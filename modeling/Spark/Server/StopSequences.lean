import Spark.Server.Decode
import Spark.Server.ReplyText

/-!
# Stop strings and what is already sent

The generation loop with its three ways to a client, up to the token that brings a stop string. The loop
says how many bytes may be sent; the translators look for their markers in all of the buffer.

* **`feedStream`** — one token: what is sent, and whether the loop goes on.
* **`findFrom_first`** — the stop string that is found is the first one there is.
* **`streamLen_le`** — the bytes that may be sent never reach a stop string that is still to come.
* **`sent_before_stop_iff`** — nothing from the cut on is sent, unless a marker behind it ends what is being
  sent.
-/

namespace Spark.Server

open Spark.Search

/-! ## The loop -/

inductive StreamPath where
  | plain
  | openai
  | anthropic
  deriving DecidableEq, Repr

/-- `stop_list_stream_safe_len`. -/
def StopList.streamSafeLen (stops : StopList) (textLen : Nat) : Nat :=
  if stops.v = [] ∨ stops.maxLen ≤ 1 then textLen
  else
    let hold := stops.maxLen - 1
    if textLen > hold then textLen - hold else 0

/-- The loop's state, and what the client was sent of it. -/
structure Outgoing where
  decode : DecodeState
  plainStreamPos : Nat
  live : ReplyStream
  sent : List Action
  deriving DecidableEq, Repr

def Outgoing.start (request : Request) : Outgoing :=
  { decode := startState request, plainStreamPos := 0
    live := ReplyStream.start request.thinkEnabled request.hasTools, sent := [] }

/-- The number of bytes that may be sent: up to a stop string, or so far that none can begin. -/
def streamLen (stops : StopList) (text : List UInt8) (scanFrom plainStreamPos : Nat) : Nat :=
  let hit := stops.findFrom text scanFrom
  let len :=
    match hit with
    | some found => found.1
    | none => stops.streamSafeLen text.length
  utf8StreamSafeLen text plainStreamPos (min len text.length) hit.isSome

def StreamPath.translator (hasTools : Bool) : StreamPath → Translator
  | .plain => openaiTranslator hasTools
  | .openai => openaiTranslator hasTools
  | .anthropic => anthropicTranslator hasTools

/-- What is sent of a token, by the way to the client. -/
def Outgoing.send (path : StreamPath) (hasTools : Bool) (out : Outgoing) (text : List UInt8) (len : Nat) :
    Outgoing :=
  match path with
  | .plain =>
    if len > out.plainStreamPos then
      { out with
        plainStreamPos := len
        sent := out.sent ++ [.delta .content out.plainStreamPos (slice text out.plainStreamPos len)] }
    else out
  | path =>
    let update := streamUpdate (path.translator hasTools) out.live text len false
    { out with live := update.1, sent := out.sent ++ update.2 }

/-- One token of the loop, with what is sent of it. -/
def feedStream (path : StreamPath) (request : Request) (client : Client) (out : Outgoing)
    (piece : List UInt8) : Outgoing × Option Ending :=
  let text := out.decode.text ++ piece
  let len := streamLen request.stops text out.decode.stopScanFrom out.plainStreamPos
  let fed := feed request client out.decode piece
  ({ out.send path request.hasTools text len with decode := fed.1 }, fed.2)

/-- Tokens that end the loop at none of them. -/
def feedStreams (path : StreamPath) (request : Request) (client : Client) :
    Outgoing → List (List UInt8) → Option Outgoing
  | out, [] => some out
  | out, piece :: pieces =>
    match feedStream path request client out piece with
    | (out, none) => feedStreams path request client out pieces
    | (_, some _) => none

/-! ## Where an update may go too far -/

/-- The content that a tool marker ends, as places in the text. -/
def contentStretch (hasTools : Bool) (raw : List UInt8) (rawLen pos : Nat) : List (Nat × Nat) :=
  if rawLen ≤ pos then []
  else
    match findTool hasTools raw pos with
    | some tool => [(pos, trimToolSeparatorWs raw pos tool)]
    | none => []

/-- The second reasoning and the content that markers end. -/
def answerStretches (hasTools guard : Bool) (raw : List UInt8) (rawLen pos : Nat) : List (Nat × Nat) :=
  if guard then
    match thinkEnd hasTools raw pos with
    | .close close => (pos, close) :: contentStretch hasTools raw rawLen (close + thinkClose.length)
    | .tool _ => contentStretch hasTools raw rawLen pos
    | .none => []
  else contentStretch hasTools raw rawLen pos

/-- The parts of the text that are ready to be sent because a marker in the buffer ends them. -/
def stretches (hasTools : Bool) (st : ReplyStream) (raw : List UInt8) (rawLen : Nat) : List (Nat × Nat) :=
  match st.mode with
  | .thinking =>
    match st.checkThinkPrefix raw rawLen false with
    | none => []
    | some st =>
      match thinkEnd hasTools raw st.emitPos with
      | .tool tool => [(st.emitPos, trimToolSeparatorWs raw st.emitPos tool)]
      | .close close => (st.emitPos, close) ::
          answerStretches hasTools st.guardSecondReasoning raw rawLen (close + thinkClose.length)
      | .none => []
  | .text => answerStretches hasTools st.guardSecondReasoning raw rawLen st.emitPos
  | _ => []

/-- No marker behind a place ends what is being sent in front of it. -/
def ClearOf (p : Nat) (hasTools : Bool) (st : ReplyStream) (raw : List UInt8) (rawLen : Nat) : Prop :=
  ∀ stretch ∈ stretches hasTools st raw rawLen, stretch.2 ≤ p ∨ stretch.2 ≤ stretch.1

/-- The updates of a run: the stream before each, the buffer and the bytes that may be sent. -/
def looks (path : StreamPath) (request : Request) (client : Client) :
    Outgoing → List (List UInt8) → List (ReplyStream × List UInt8 × Nat)
  | _, [] => []
  | out, piece :: pieces =>
    let text := out.decode.text ++ piece
    (out.live, text, streamLen request.stops text out.decode.stopScanFrom out.plainStreamPos) ::
      looks path request client (feedStream path request client out piece).1 pieces

/-- Where the text ends that an action renders. -/
def Action.reach : Action → Nat
  | .delta _ pos said => pos + said.length
  | .closeBlock => 0
  | .toolStart _ _ reach => reach
  | .toolArgs _ _ reach => reach
  | .toolEnd _ reach => reach

/-! ## Stop strings -/

/-- A list as it is built from the strings of a request. -/
structure StopList.Proper (stops : StopList) : Prop where
  ne_nil : ∀ stop ∈ stops.v, stop ≠ []
  length_le : ∀ stop ∈ stops.v, stop.length ≤ stops.maxLen

theorem proper_empty : StopList.empty.Proper := ⟨nofun, nofun⟩

theorem proper_push {stops : StopList} (h : stops.Proper) (text : List UInt8) : (stops.push text).Proper := by
  unfold StopList.push
  split
  case isTrue => exact h
  case isFalse hne =>
    refine ⟨fun stop hstop => ?_, fun stop hstop => ?_⟩
    · rcases List.mem_append.mp hstop with h' | h'
      · exact h.ne_nil stop h'
      · rw [List.mem_singleton.mp h']
        exact hne
    · rcases List.mem_append.mp hstop with h' | h'
      · exact (h.length_le stop h').trans (le_max_left _ _)
      · rw [List.mem_singleton.mp h']
        exact le_max_right _ _

/-- The stop strings of a request. -/
def stopStrings (texts : List (List UInt8)) : StopList := texts.foldl StopList.push StopList.empty

theorem proper_stopStrings (texts : List (List UInt8)) : (stopStrings texts).Proper := by
  have hall : ∀ stops : StopList, stops.Proper → (texts.foldl StopList.push stops).Proper := by
    induction texts with
    | nil => exact fun _ h => h
    | cons text texts ih => exact fun stops h => ih _ (proper_push h text)
  exact hall _ proper_empty

variable {stops : StopList} {text : List UInt8} {start : Nat}

theorem better_fst (text : List UInt8) (start : Nat) (best : Option (Nat × Nat)) (stop : List UInt8) :
    (StopList.better text start best stop).map Prod.fst =
      earlier (best.map Prod.fst) ((strstr (text.drop start) stop).map (start + ·)) := by
  unfold StopList.better
  cases strstr (text.drop start) stop with
  | none =>
    cases best with
    | none => rfl
    | some found => rfl
  | some pos =>
    cases best with
    | none => rfl
    | some found =>
      by_cases hlt : start + pos < found.1
      · simp [earlier, hlt]
      · simp [earlier, hlt]

/-- The stop string that is found is the first one from the place on where the search begins. -/
theorem findFrom_first (hproper : stops.Proper) (h0 : 0 ∉ text) (start : Nat) :
    First (fun i => start ≤ i ∧ OccursAny stops.v text i) ((stops.findFrom text start).map Prod.fst) := by
  have h0' : 0 ∉ text.drop start := fun hmem => h0 (List.mem_of_mem_drop hmem)
  have hfold : ∀ (needles : List (List UInt8)) (best : Option (Nat × Nat)) (P : Nat → Prop),
      (∀ needle ∈ needles, needle ≠ []) → First P (best.map Prod.fst) →
      First (fun i => P i ∨ (start ≤ i ∧ OccursAny needles text i))
        ((needles.foldl (StopList.better text start) best).map Prod.fst) := by
    intro needles
    induction needles with
    | nil => exact fun best P _ h => h.congr fun i => by simp [OccursAny]
    | cons needle needles ih =>
      intro best P hne h
      have hone := ((strstr_first (hne needle List.mem_cons_self) h0').congr
        fun i => occurs_drop start i).shift
      have hstep := first_earlier h hone
      rw [← better_fst] at hstep
      refine (ih _ _ (fun m hm => hne m (List.mem_cons_of_mem _ hm)) hstep).congr fun i => ?_
      simp only [OccursAny, List.mem_cons, exists_eq_or_imp, and_or_left]
      exact or_assoc
  exact (hfold stops.v none (fun _ => False) hproper.ne_nil fun _ h => h).congr
    fun i => ⟨fun h => h.resolve_left id, Or.inr⟩

/-! ## What may be sent -/

variable {n p scanFrom : Nat}

/-- The loop has seen that no stop string stands in the text, and scans again what one may begin in. -/
structure Scanned (stops : StopList) (text : List UInt8) (scanFrom : Nat) : Prop where
  free : ∀ i, ¬ OccursAny stops.v text i
  scan_le : scanFrom ≤ text.length - (stops.maxLen - 1)

theorem scanned_nil (hproper : stops.Proper) : Scanned stops [] 0 := by
  refine ⟨fun i hi => ?_, Nat.zero_le _⟩
  obtain ⟨stop, hstop, hat⟩ := hi
  have hlength := List.length_pos_of_ne_nil (hproper.ne_nil stop hstop)
  have hle := hat.le (hproper.ne_nil stop hstop)
  rw [List.length_nil] at hle
  omega

/-- What a scan from the place on finds behind more text is the first stop string of all. -/
theorem Scanned.first (hproper : stops.Proper) (h : Scanned stops (text.take n) scanFrom)
    (hn : n ≤ text.length) (h0 : 0 ∉ text) :
    First (OccursAny stops.v text) ((stops.findFrom text scanFrom).map Prod.fst) := by
  refine (findFrom_first hproper h0 scanFrom).congr fun i => ⟨And.right, fun hi => ⟨?_, hi⟩⟩
  -- a stop string that begins before the place would be in the text as a whole
  by_contra hlt
  obtain ⟨stop, hstop, hat⟩ := hi
  have hlength := hproper.length_le stop hstop
  have hscan := h.scan_le
  rw [List.length_take, min_eq_left hn] at hscan
  have hne := hproper.ne_nil stop hstop
  have hpos := List.length_pos_of_ne_nil hne
  exact h.free i ⟨stop, hstop, (occurs_take hne).mpr ⟨hat, by omega⟩⟩

theorem Scanned.next (hproper : stops.Proper) (h : Scanned stops (text.take n) scanFrom)
    (hn : n ≤ text.length) (h0 : 0 ∉ text) (hmiss : stops.findFrom text scanFrom = none) :
    Scanned stops text (stops.nextScan text scanFrom) := by
  have hfirst := h.first hproper hn h0
  rw [hmiss] at hfirst
  refine ⟨hfirst, ?_⟩
  have hscan := h.scan_le
  rw [List.length_take, min_eq_left hn] at hscan
  unfold StopList.nextScan
  split
  · exact le_refl _
  · omega

/-- The bytes that may be sent never reach a stop string, be it there or still to come. -/
theorem streamLen_le {m : Nat} (hproper : stops.Proper) (h0 : 0 ∉ text)
    (hp : First (OccursAny stops.v text) (some p)) (h : Scanned stops (text.take m) scanFrom)
    (hm : m ≤ n) (hn : n ≤ text.length) (hfree : n < text.length → ∀ i, ¬ OccursAny stops.v (text.take n) i)
    (plainStreamPos : Nat) :
    streamLen stops (text.take n) scanFrom plainStreamPos ≤ p := by
  have hscanned : Scanned stops ((text.take n).take m) scanFrom := by
    rw [List.take_take, min_eq_left hm]
    exact h
  have hlength : (text.take n).length = n := by rw [List.length_take, min_eq_left hn]
  have hfirst := hscanned.first hproper (by omega) (not_mem_take h0 n)
  unfold streamLen
  refine (utf8StreamSafeLen_spec _ _ _ _).1.trans ?_
  cases hfind : stops.findFrom (text.take n) scanFrom with
  | some found =>
    rw [hfind] at hfirst
    -- a text with a stop string in it is the last one
    have hwhole : n = text.length := by
      by_contra hne
      exact hfree (by omega) found.1 hfirst.1
    rw [hwhole, List.take_length] at hfirst
    rw [Option.some.inj (hp.unique hfirst)]
    exact min_le_left _ _
  | none =>
    rw [hfind] at hfirst
    obtain ⟨stop, hstop, hat⟩ := hp.1
    have hne := hproper.ne_nil stop hstop
    have hlate : n < p + stop.length := by
      by_contra hle
      exact hfirst p ⟨stop, hstop, (occurs_take hne).mpr ⟨hat, by omega⟩⟩
    have hmax := hproper.length_le stop hstop
    show min (stops.streamSafeLen (text.take n).length) _ ≤ p
    unfold StopList.streamSafeLen
    rw [hlength]
    split
    case isTrue hshort =>
      have hlen1 : stops.maxLen ≤ 1 := hshort.resolve_left (List.ne_nil_of_mem hstop)
      omega
    case isFalse =>
      simp only
      split
      · omega
      · omega

/-! ## One token -/

section Feed

theorem scanTools_stopScanFrom (thinkEnabled : Bool) (state : DecodeState) :
    (scanTools thinkEnabled state).1.stopScanFrom = state.stopScanFrom := by
  unfold scanTools
  split
  · simp only
    split
    · rfl
    · rfl
  · rfl

/-- The loop goes on where the scan finds nothing, and is over at a stop string where the scan finds one. -/
theorem feed_scan (request : Request) (client : Client) (state : DecodeState) (piece : List UInt8) :
    ∃ after : DecodeState, after.text = state.text ++ piece ∧
      after.stopScanFrom =
        (if (request.stops.findFrom (state.text ++ piece) state.stopScanFrom).isSome then state.stopScanFrom
          else request.stops.nextScan (state.text ++ piece) state.stopScanFrom) ∧
      ((feed request client state piece).2 = none →
        request.stops.findFrom (state.text ++ piece) state.stopScanFrom = none ∧
          (feed request client state piece).1 = after) ∧
      ((feed request client state piece).2 = some .stopString →
        ∃ found, request.stops.findFrom (state.text ++ piece) state.stopScanFrom = some found ∧
          (feed request client state piece).1 = { after with text := (state.text ++ piece).take found.1 }) := by
  unfold feed
  simp only
  generalize hfind : request.stops.findFrom (state.text ++ piece) state.stopScanFrom = hit
  generalize hstate : ({ state with
      text := state.text ++ piece
      completion := state.completion + 1
      thinking := state.thinking.feed piece
      stopScanFrom :=
        if hit.isSome = true then state.stopScanFrom
        else request.stops.nextScan (state.text ++ piece) state.stopScanFrom } : DecodeState) = grown
  have hgrown : grown.text = state.text ++ piece ∧ grown.stopScanFrom = (if hit.isSome = true then
      state.stopScanFrom else request.stops.nextScan (state.text ++ piece) state.stopScanFrom) := by
    rw [← hstate]
    exact ⟨rfl, rfl⟩
  generalize hscanned : (if (request.chat && request.hasTools) = true then
    scanTools request.thinkEnabled grown else (grown, false)) = scanned
  have hframe : scanned.1.text = grown.text ∧ scanned.1.stopScanFrom = grown.stopScanFrom := by
    rw [← hscanned]
    split
    · exact ⟨(scanTools_frame _ grown).1, scanTools_stopScanFrom _ grown⟩
    · exact ⟨rfl, rfl⟩
  refine ⟨scanned.1, hframe.1.trans hgrown.1, hframe.2.trans hgrown.2, ?_⟩
  split
  · exact ⟨nofun, nofun⟩
  split
  · exact ⟨nofun, nofun⟩
  cases hit with
  | some found => exact ⟨nofun, fun _ => ⟨found, rfl, rfl⟩⟩
  | none =>
    simp only
    split
    · exact ⟨nofun, nofun⟩
    · exact ⟨fun _ => ⟨trivial, rfl⟩, nofun⟩

end Feed

/-! ## One update -/

/-- Nothing is sent that ends behind a place. -/
def Keeps (p : Nat) (out : List Action) : Prop := ∀ action ∈ out, action.reach ≤ p

theorem keeps_append (p : Nat) (out more : List Action) : Keeps p (out ++ more) ↔ Keeps p out ∧ Keeps p more :=
  List.forall_mem_append

theorem keeps_close (p : Nat) : Keeps p [.closeBlock] := by
  intro action haction
  rw [List.mem_singleton.mp haction]
  exact Nat.zero_le p

variable {st : ReplyStream} {raw : List UInt8} {rawLen limit : Nat} {hasTools : Bool} {t : Translator}

theorem keeps_send (channel : Channel) (hlimit : limit ≤ raw.length) :
    Keeps p (st.send channel raw limit).2 ↔ limit ≤ p ∨ limit ≤ st.emitPos := by
  unfold ReplyStream.send
  split
  case isTrue hlt =>
    have hreach : st.emitPos + ((raw.drop st.emitPos).take (limit - st.emitPos)).length = limit := by
      rw [List.length_take, List.length_drop]
      omega
    simp only [Keeps, List.mem_singleton, forall_eq, Action.reach, hreach]
    omega
  case isFalse hge =>
    simp only [Keeps]
    exact iff_of_true nofun (.inr (not_lt.mp hge))

/-- A limit in front of the place keeps all behind it. -/
theorem keeps_send_le (channel : Channel) (hp : limit ≤ p ∨ limit ≤ st.emitPos) :
    Keeps p (st.send channel raw limit).2 := by
  unfold ReplyStream.send
  split
  case isTrue hlt =>
    intro action haction
    rw [List.mem_singleton.mp haction]
    have hlength : ((raw.drop st.emitPos).take (limit - st.emitPos)).length ≤ limit - st.emitPos := by
      rw [List.length_take]
      exact min_le_left _ _
    show st.emitPos + ((raw.drop st.emitPos).take (limit - st.emitPos)).length ≤ p
    omega
  case isFalse => exact nofun

theorem tool_le (h0 : 0 ∉ raw) {pos tool : Nat} (h : findTool hasTools raw pos = some tool) :
    pos ≤ tool ∧ tool ≤ raw.length := by
  have hfirst := findTool_first hasTools h0 pos
  rw [h] at hfirst
  obtain ⟨hge, -, word, hword, hat⟩ := hfirst.1
  have := hat.le (distinct_toolStarts.ne_nil hword)
  exact ⟨hge, by omega⟩

theorem contentUpdate_keeps (h0 : 0 ∉ raw) (hp : rawLen ≤ p) :
    Keeps p (contentUpdate t st raw rawLen false).2 ↔
      ∀ stretch ∈ contentStretch t.hasTools raw rawLen st.emitPos, stretch.2 ≤ p ∨ stretch.2 ≤ stretch.1 := by
  have hclosed : ∀ out, Keeps p (out ++ [.closeBlock]) ↔ Keeps p out := fun out =>
    (keeps_append p out _).trans (and_iff_left (keeps_close p))
  unfold contentUpdate contentStretch
  simp only
  cases hfind : findTool t.hasTools raw st.emitPos with
  | none =>
    simp only [Bool.false_eq_true, if_false, ite_self]
    refine iff_of_true ?_ (List.forall_mem_nil _)
    by_cases hstart : st.emitPos < rawLen
    · have hle := (textStreamSafeLimit_le hfind hstart).1
      exact keeps_send_le _ (.inl (hle.trans hp))
    · have hlimit : textStreamSafeLimit raw st.emitPos rawLen t.hasTools false = rawLen := by
        rw [textStreamSafeLimit, if_pos (not_lt.mp hstart)]
      rw [hlimit]
      exact keeps_send_le _ (.inl hp)
  | some tool =>
    simp only [hclosed]
    by_cases hstart : rawLen ≤ st.emitPos
    · have hlimit : textStreamSafeLimit raw st.emitPos rawLen t.hasTools false = rawLen := by
        rw [textStreamSafeLimit, if_pos hstart]
      rw [if_pos hstart, hlimit]
      exact iff_of_true (keeps_send_le _ (.inl hp)) (List.forall_mem_nil _)
    · have htools : t.hasTools = true := by
        by_contra hnone
        rw [findTool, if_neg hnone] at hfind
        cases hfind
      have hlimit : textStreamSafeLimit raw st.emitPos rawLen t.hasTools false =
          trimToolSeparatorWs raw st.emitPos tool := by
        rw [findTool, if_pos htools] at hfind
        obtain ⟨offset, hoffset, rfl⟩ := Option.map_eq_some_iff.mp hfind
        rw [textStreamSafeLimit, if_neg hstart, if_pos htools, hoffset]
        exact utf8StreamSafeLen_final
      have hle := (tool_le h0 hfind).2
      have htrim := (trimToolSeparatorWs_spec raw st.emitPos tool).1
      rw [if_neg hstart, hlimit, keeps_send _ (htrim.trans hle)]
      simp

theorem textUpdate_keeps (h0 : 0 ∉ raw) (hp : rawLen ≤ p) :
    Keeps p (textUpdate t st raw rawLen false).2 ↔
      ∀ stretch ∈ answerStretches t.hasTools st.guardSecondReasoning raw rawLen st.emitPos,
        stretch.2 ≤ p ∨ stretch.2 ≤ stretch.1 := by
  have hcontent : ∀ st, Keeps p (contentUpdate t st raw rawLen false).2 ↔ _ :=
    fun st => contentUpdate_keeps h0 hp
  unfold textUpdate guardUpdate answerStretches
  cases hguard : st.guardSecondReasoning with
  | false =>
    simp only [Bool.false_eq_true, if_false, if_true, List.nil_append]
    exact hcontent st
  | true =>
    simp only [if_true, Bool.false_eq_true, if_false]
    cases hend : thinkEnd t.hasTools raw st.emitPos with
    | tool tool =>
      simp only [if_true, List.nil_append]
      exact hcontent _
    | close close =>
      have hle := close_le h0 hend
      simp only [if_true, keeps_append, hcontent, List.forall_mem_cons]
      rw [keeps_send _ (by omega), and_iff_left (keeps_close p)]
    | none => exact iff_of_true (List.forall_mem_nil _) (List.forall_mem_nil _)

theorem toolUpdate_keeps (hsound : Sound st) (hrawLen : rawLen ≤ raw.length) (hp : rawLen ≤ p) :
    Keeps p (toolUpdate st raw rawLen).2 := by
  have hlength : (raw.take rawLen).length = rawLen := by rw [List.length_take, min_eq_left hrawLen]
  intro action haction
  have hreach := (toolLoop_ofTool (raw.take rawLen) ((raw.take rawLen).length + 1) hsound.known).1 action
    haction
  rw [hlength] at hreach
  cases action with
  | delta => exact absurd hreach id
  | closeBlock => exact absurd hreach id
  | toolStart => exact le_trans hreach hp
  | toolArgs => exact le_trans hreach hp
  | toolEnd => exact le_trans hreach hp

/-- What the answer's part of an update keeps is all that is left to keep. -/
theorem andIn_text_keeps (h0 : 0 ∉ raw) (hrawLen : rawLen ≤ raw.length) (hp : rawLen ≤ p)
    {done : ReplyStream × List Action} (hsound : Sound done.1) :
    Keeps p (andIn .tool (toolUpdate · raw rawLen) (andIn .text (textUpdate t · raw rawLen false) done)).2 ↔
      Keeps p done.2 ∧ (done.1.mode = .text →
        ∀ stretch ∈ answerStretches t.hasTools done.1.guardSecondReasoning raw rawLen done.1.emitPos,
          stretch.2 ≤ p ∨ stretch.2 ≤ stretch.1) := by
  have htool : ∀ done : ReplyStream × List Action, Sound done.1 →
      (Keeps p (andIn .tool (toolUpdate · raw rawLen) done).2 ↔ Keeps p done.2) := by
    intro done hsound
    unfold andIn
    split
    · exact (keeps_append p _ _).trans (and_iff_left (toolUpdate_keeps hsound hrawLen hp))
    · exact Iff.rfl
  by_cases hmode : done.1.mode = .text
  · rw [andIn_of (textUpdate t · raw rawLen false) hmode, htool, keeps_append,
      textUpdate_keeps h0 hp]
    · simp [hmode]
    · exact sound_textUpdate t rawLen false hsound
  · rw [andIn_of_ne (textUpdate t · raw rawLen false) hmode, htool done hsound]
    simp [hmode]

/-- An update of bytes in front of a place sends nothing from there on, unless a marker behind it ends
what is being sent. -/
theorem streamUpdate_keeps (h0 : 0 ∉ raw) (hsound : Sound st) (hrawLen : rawLen ≤ raw.length)
    (hp : rawLen ≤ p) :
    Keeps p (streamUpdate t st raw rawLen false).2 ↔ ClearOf p t.hasTools st raw rawLen := by
  have hquiet : Keeps p [] := List.forall_mem_nil _
  rw [streamUpdate, if_neg (by simp [hsound.active])]
  by_cases hthinking : st.mode = .thinking
  · have hnext : Sound (readThinking t st raw rawLen false).1 := sound_readThinking t rawLen false hsound
    rw [andIn_of (readThinking t · raw rawLen false) hthinking]
    simp only [List.nil_append]
    rw [andIn_text_keeps h0 hrawLen hp hnext]
    simp only [ClearOf, stretches, hthinking, readThinking]
    cases hcheck : st.checkThinkPrefix raw rawLen false with
    | none => simp [hthinking, hquiet]
    | some st' =>
      obtain ⟨hmode', -, hguard'⟩ := checkThinkPrefix_frame hcheck
      simp only [thinkingUpdate]
      cases hend : thinkEnd t.hasTools raw st'.emitPos with
      | tool tool =>
        have hat := (thinkEnd_spec t.hasTools h0 st'.emitPos).tool tool hend
        obtain ⟨-, word, hword, hoccurs⟩ := hat
        have hle := hoccurs.le (distinct_toolStarts.ne_nil hword)
        have htrim := (trimToolSeparatorWs_spec raw st'.emitPos tool).1
        have hsent : Keeps p (st'.send .reasoning raw (trimToolSeparatorWs raw st'.emitPos tool)).2 ↔ _ :=
          keeps_send .reasoning (by omega)
        have hmode := (send_frame st' .reasoning raw (trimToolSeparatorWs raw st'.emitPos tool)).2.1
        simp only [List.forall_mem_singleton]
        split
        · rw [keeps_append, and_iff_left (keeps_close p)]
          exact (and_iff_left fun h => by cases h).trans hsent
        · rw [hmode, hmode', hthinking]
          exact (and_iff_left fun h => by cases h).trans hsent
      | close close =>
        have hle := close_le h0 hend
        simp only [List.forall_mem_cons, (send_frame st' .reasoning raw close).2.2, hguard', true_implies]
        rw [keeps_append, and_iff_left (keeps_close p), keeps_send _ (by omega)]
      | none =>
        simp only [Bool.false_eq_true, if_false]
        rw [(send_frame _ _ _ _).2.1, hmode', hthinking]
        refine (and_iff_left fun h => by cases h).trans ?_
        have hsafe := (utf8StreamSafeLen_spec raw st'.emitPos
          (if rawLen > thinkClose.length - 1 then rawLen - (thinkClose.length - 1) else st'.emitPos) false).1
        have hlimit : (if rawLen > thinkClose.length - 1 then rawLen - (thinkClose.length - 1)
            else st'.emitPos) ≤ max p st'.emitPos := by
          split
          · omega
          · exact le_max_right _ _
        exact iff_of_true (keeps_send_le _ (le_max_iff.mp (hsafe.trans hlimit))) (List.forall_mem_nil _)
  · rw [andIn_of_ne (readThinking t · raw rawLen false) hthinking, andIn_text_keeps h0 hrawLen hp hsound]
    cases hmode : st.mode with
    | thinking => exact absurd hmode hthinking
    | text => simp [ClearOf, stretches, hmode, hquiet]
    | tool => simp [ClearOf, stretches, hmode, hquiet]
    | suppress => simp [ClearOf, stretches, hmode, hquiet]

/-! ## A run -/

section Run

variable {path : StreamPath} {request : Request} {client : Client} {out out' : Outgoing}
  {pieces : List (List UInt8)} {piece : List UInt8}

/-- What the loop keeps from token to token: what it has sent of a text that goes on with a stop string
ends in front of that. -/
structure Running (request : Request) (text : List UInt8) (n : Nat) (out : Outgoing) : Prop where
  le_length : n ≤ text.length
  text_eq : out.decode.text = text.take n
  scanned : Scanned request.stops (text.take n) out.decode.stopScanFrom
  sound : Sound out.live

theorem running_start (hproper : request.stops.Proper) (text : List UInt8) :
    Running request text 0 (Outgoing.start request) :=
  ⟨Nat.zero_le _, rfl, scanned_nil hproper, sound_start _ _⟩

theorem translator_hasTools (path : StreamPath) (hasTools : Bool) :
    (path.translator hasTools).hasTools = hasTools := by
  cases path
  · rfl
  · rfl
  · rfl

theorem sound_outgoing (text : List UInt8) (len : Nat) (hasTools : Bool) (h : Sound out.live) :
    Sound (out.send path hasTools text len).live := by
  unfold Outgoing.send
  split
  · split
    · exact h
    · exact h
  · exact sound_streamUpdate _ text len false h

/-- What is sent of a token is behind what was sent before. -/
theorem outgoing_keeps (h0 : 0 ∉ raw) (hsound : Sound out.live) (hrawLen : rawLen ≤ raw.length)
    (hp : rawLen ≤ p) :
    Keeps p (out.send path hasTools raw rawLen).sent ↔
      Keeps p out.sent ∧ (path = .plain ∨ ClearOf p hasTools out.live raw rawLen) := by
  cases path with
  | plain =>
    refine Iff.trans ?_ (and_iff_left (.inl rfl)).symm
    simp only [Outgoing.send]
    split
    · refine (keeps_append p _ _).trans (and_iff_left fun action haction => ?_)
      have hlength := length_slice raw out.plainStreamPos rawLen
      rw [List.mem_singleton.mp haction]
      show out.plainStreamPos + (slice raw out.plainStreamPos rawLen).length ≤ p
      omega
    · exact Iff.rfl
  | openai =>
    refine (keeps_append p _ _).trans (and_congr_right fun _ => ?_)
    rw [streamUpdate_keeps h0 hsound hrawLen hp, translator_hasTools]
    simp
  | anthropic =>
    refine (keeps_append p _ _).trans (and_congr_right fun _ => ?_)
    rw [streamUpdate_keeps h0 hsound hrawLen hp, translator_hasTools]
    simp

theorem take_grow {rest : List UInt8} (h : text.drop n = piece ++ rest) :
    text.take n ++ piece = text.take (n + piece.length) := by
  rw [List.take_add, h, List.take_left]

theorem drop_grow {rest : List UInt8} (h : text.drop n = piece ++ rest) :
    text.drop (n + piece.length) = rest := by
  rw [← List.drop_drop, h, List.drop_left]

theorem grow_le {rest : List UInt8} (h : text.drop n = piece ++ rest) (hn : n ≤ text.length) :
    n + piece.length ≤ text.length := by
  have hlength := congrArg List.length h
  rw [List.length_drop, List.length_append] at hlength
  omega

theorem Running.feed {rest : List UInt8} (path : StreamPath) (client : Client)
    (hproper : request.stops.Proper) (h0 : 0 ∉ text) (h : Running request text n out)
    (hrest : text.drop n = piece ++ rest) (hgoes : (feedStream path request client out piece).2 = none) :
    Running request text (n + piece.length) (feedStream path request client out piece).1 := by
  obtain ⟨after, htext, hscan, hgone, -⟩ := feed_scan request client out.decode piece
  obtain ⟨hmiss, hfed⟩ := hgone hgoes
  rw [hmiss] at hscan
  rw [h.text_eq, take_grow hrest] at hmiss hscan htext
  have hle := grow_le hrest h.le_length
  refine ⟨hle, ?_, ?_, sound_outgoing _ _ _ h.sound⟩
  · show (Server.feed request client out.decode piece).1.text = _
    rw [hfed, htext]
  · show Scanned request.stops _ (Server.feed request client out.decode piece).1.stopScanFrom
    rw [hfed, hscan]
    have hscanned := h.scanned
    rw [show text.take n = (text.take (n + piece.length)).take n by rw [List.take_take, min_eq_left (by omega)]]
      at hscanned
    refine hscanned.next hproper ?_ (not_mem_take h0 _) hmiss
    rw [List.length_take, min_eq_left hle]
    omega

theorem feedStreams_running {rest : List UInt8} (hproper : request.stops.Proper) (h0 : 0 ∉ text)
    (h : Running request text n out) (hrest : text.drop n = pieces.flatten ++ rest)
    (hrun : feedStreams path request client out pieces = some out') :
    Running request text (n + pieces.flatten.length) out' := by
  induction pieces generalizing n out with
  | nil =>
    cases hrun
    exact h
  | cons piece pieces ih =>
    rw [List.flatten_cons, List.append_assoc] at hrest
    rw [feedStreams] at hrun
    split at hrun
    case h_1 next hfed =>
      have hnext := h.feed path client hproper h0 hrest (congrArg Prod.snd hfed)
      rw [hfed] at hnext
      have hall := ih hnext (drop_grow hrest) hrun
      rwa [List.flatten_cons, List.length_append, ← Nat.add_assoc]
    case h_2 => cases hrun

/-- A token of a run sends nothing from the stop string on, unless a marker behind that ends what is being
sent. -/
theorem feedStream_keeps {rest : List UInt8} (path : StreamPath) (client : Client)
    (hproper : request.stops.Proper) (h0 : 0 ∉ text)
    (hp : First (OccursAny request.stops.v text) (some p)) (h : Running request text n out)
    (hrest : text.drop n = piece ++ rest)
    (hlast : rest = [] ∨ (feedStream path request client out piece).2 = none) :
    Keeps p (feedStream path request client out piece).1.sent ↔
      Keeps p out.sent ∧ (path = .plain ∨
        ClearOf p request.hasTools out.live (out.decode.text ++ piece)
          (streamLen request.stops (out.decode.text ++ piece) out.decode.stopScanFrom out.plainStreamPos)) := by
  have hle := grow_le hrest h.le_length
  have hfree : n + piece.length < text.length → ∀ i, ¬ OccursAny request.stops.v (text.take (n + piece.length)) i := by
    intro hlt
    rcases hlast with rfl | hgoes
    · have hend := congrArg List.length (drop_grow hrest)
      rw [List.length_drop, List.length_nil] at hend
      omega
    · exact (h.feed path client hproper h0 hrest hgoes).scanned.free
  have hbound := streamLen_le hproper h0 hp h.scanned (Nat.le_add_right n piece.length) hle hfree
    out.plainStreamPos
  show Keeps p (out.send path request.hasTools (out.decode.text ++ piece) _).sent ↔ _
  rw [h.text_eq, take_grow hrest]
  refine outgoing_keeps (not_mem_take h0 _) h.sound ?_ hbound
  exact (utf8StreamSafeLen_spec _ _ _ _).1.trans (min_le_right _ _)

theorem feedStreams_keeps {rest : List UInt8} (hproper : request.stops.Proper) (h0 : 0 ∉ text)
    (hp : First (OccursAny request.stops.v text) (some p)) (h : Running request text n out)
    (hrest : text.drop n = pieces.flatten ++ rest)
    (hrun : feedStreams path request client out pieces = some out') :
    Keeps p out'.sent ↔ Keeps p out.sent ∧ (path = .plain ∨
      ∀ look ∈ looks path request client out pieces, ClearOf p request.hasTools look.1 look.2.1 look.2.2) := by
  induction pieces generalizing n out with
  | nil =>
    cases hrun
    exact (and_iff_left (.inr (List.forall_mem_nil _))).symm
  | cons piece pieces ih =>
    rw [List.flatten_cons, List.append_assoc] at hrest
    rw [feedStreams] at hrun
    split at hrun
    case h_1 next hfed =>
      have hgoes := congrArg Prod.snd hfed
      have hnext := h.feed path client hproper h0 hrest hgoes
      have hone := feedStream_keeps path client hproper h0 hp h hrest (.inr hgoes)
      rw [hfed] at hnext hone
      rw [ih hnext (drop_grow hrest) hrun, hone, looks, hfed]
      simp only [List.forall_mem_cons]
      rw [and_assoc, ← or_and_left]
    case h_2 => cases hrun

theorem looks_append (hrun : feedStreams path request client out pieces = some out') (piece : List UInt8) :
    looks path request client out (pieces ++ [piece]) =
      looks path request client out pieces ++ looks path request client out' [piece] := by
  induction pieces generalizing out with
  | nil =>
    cases hrun
    rfl
  | cons first pieces ih =>
    rw [feedStreams] at hrun
    split at hrun
    case h_1 next hfed =>
      rw [List.cons_append, looks, looks, hfed]
      exact congrArg (List.cons _) (ih hrun)
    case h_2 => cases hrun

/-- The text is cut at its first stop string. Nothing from there on was sent as plain text, nor to a chat
client unless some update found a marker behind it that ends reasoning or content in front of it. -/
theorem sent_before_stop_iff (path : StreamPath) (request : Request) (client : Client)
    (texts pieces : List (List UInt8)) (piece : List UInt8) (hstops : request.stops = stopStrings texts)
    (h0 : 0 ∉ pieces.flatten ++ piece)
    (hrun : feedStreams path request client (Outgoing.start request) pieces = some out)
    (hstop : feedStream path request client out piece = (out', some .stopString)) :
    ∃ p, out'.decode.text = (pieces.flatten ++ piece).take p ∧
      First (OccursAny request.stops.v (pieces.flatten ++ piece)) (some p) ∧
      ((∀ action ∈ out'.sent, action.reach ≤ p) ↔ path = .plain ∨
        ∀ look ∈ looks path request client (Outgoing.start request) (pieces ++ [piece]),
          ClearOf p request.hasTools look.1 look.2.1 look.2.2) := by
  have hproper : request.stops.Proper := hstops ▸ proper_stopStrings texts
  have hstart := running_start hproper (pieces.flatten ++ piece)
  have hall : (pieces.flatten ++ piece).drop 0 = pieces.flatten ++ piece := List.drop_zero
  have hrunning := feedStreams_running hproper h0 hstart hall hrun
  rw [Nat.zero_add] at hrunning
  have hrest : (pieces.flatten ++ piece).drop pieces.flatten.length = piece ++ [] := by
    rw [List.drop_left, List.append_nil]
  -- the scan finds the first stop string there is
  obtain ⟨after, -, -, -, hcut⟩ := feed_scan request client out.decode piece
  obtain ⟨found, hfind, hfed⟩ := hcut (congrArg Prod.snd hstop)
  have htext : out.decode.text ++ piece = pieces.flatten ++ piece := by
    rw [hrunning.text_eq, List.take_left]
  rw [htext] at hfind hfed
  have hp := hrunning.scanned.first hproper (hrunning.le_length) h0
  rw [hfind] at hp
  refine ⟨found.1, ?_, hp, ?_⟩
  · have hdecode : (feed request client out.decode piece).1 = out'.decode :=
      congrArg (fun fed => fed.1.decode) hstop
    rw [← hdecode, hfed]
  · have hbefore := feedStreams_keeps hproper h0 hp hstart hall hrun
    have hlast := feedStream_keeps path client hproper h0 hp hrunning hrest (.inl rfl)
    rw [hstop, hbefore] at hlast
    refine hlast.trans ?_
    rw [looks_append hrun]
    simp only [List.forall_mem_append, looks, List.forall_mem_singleton]
    have hnothing : Keeps found.1 (Outgoing.start request).sent := List.forall_mem_nil _
    rw [and_iff_right hnothing, ← or_and_left]

end Run

/-! ## A stop string around a `</think>` -/

/-- A request that reasons and ends at a `</think>` behind a letter. -/
def thinkingRequest : Request :=
  { chat := true, hasTools := false, thinkEnabled := true, promptText := none
    stops := stopStrings [bytes "x</think>"], maxTokens := 8 }

/-- The run of such a request: a letter that may be the stop string's, and what makes it one. -/
def thinkingPieces : List (List UInt8) := [bytes "a", bytes "x"]

def beforeStop : Outgoing :=
  (feedStreams .openai thinkingRequest patientClient (Outgoing.start thinkingRequest) thinkingPieces).getD
    (Outgoing.start thinkingRequest)

theorem stop_string_ends :
    (feedStream .openai thinkingRequest patientClient beforeStop thinkClose).2 = some .stopString := by
  decide

theorem sent_before_stop_iff_sample :
    ∃ p, (feedStream .openai thinkingRequest patientClient beforeStop thinkClose).1.decode.text =
        (thinkingPieces.flatten ++ thinkClose).take p ∧
      First (OccursAny thinkingRequest.stops.v (thinkingPieces.flatten ++ thinkClose)) (some p) ∧
      ((∀ action ∈ (feedStream .openai thinkingRequest patientClient beforeStop thinkClose).1.sent,
          action.reach ≤ p) ↔ StreamPath.openai = .plain ∨
        ∀ look ∈ looks .openai thinkingRequest patientClient (Outgoing.start thinkingRequest)
            (thinkingPieces ++ [thinkClose]),
          ClearOf p thinkingRequest.hasTools look.1 look.2.1 look.2.2) :=
  sent_before_stop_iff .openai thinkingRequest patientClient [bytes "x</think>"] thinkingPieces thinkClose
    rfl (by decide)
    (show feedStreams .openai thinkingRequest patientClient (Outgoing.start thinkingRequest) thinkingPieces =
      some beforeStop by decide)
    (Prod.ext rfl stop_string_ends)

/-- The text is cut behind the first letter, and the second one is sent: the `</think>` is looked for in
all of the buffer. -/
theorem stop_string_sent :
    (feedStream .openai thinkingRequest patientClient beforeStop thinkClose).2 = some .stopString ∧
      (feedStream .openai thinkingRequest patientClient beforeStop thinkClose).1.decode.text = bytes "a" ∧
      Action.delta .reasoning 0 (bytes "ax") ∈
        (feedStream .openai thinkingRequest patientClient beforeStop thinkClose).1.sent := by
  decide

end Spark.Server
