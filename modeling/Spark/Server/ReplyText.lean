import Spark.Server.SafeLimits
import Spark.Server.AnthropicBlocks

/-!
# A reply does not depend on its pieces

What the translators send as reasoning and content, for every way a reply can come in pieces.

* **`replyReasoning`**, **`replyContent`** — what a whole reply says.
* **`Told`** — how much of it is sent by the state an update leaves.
* **`streamUpdate_told`** — every update keeps that.
* **`split_blind_iff`** — the pieces make no difference unless a tool marker stands in the reasoning.

A marker is longer than the seven bytes that are kept back in reasoning: one that comes in pieces there
is sent, and one that comes whole is not.
-/

namespace Spark.Server

open Spark.Search

/-! ## Pieces -/

/-- What one update adds to the text, and the bytes at its end that may not be sent yet. -/
structure Update where
  piece : List UInt8
  held : Nat
  deriving DecidableEq, Repr

/-- Updates of a text that grows. -/
def grow {σ ε : Type} (update : σ → List UInt8 → Nat → σ × List ε) :
    List UInt8 → List Update → σ → σ × List ε
  | _, [], s => (s, [])
  | text, u :: updates, s =>
    let grown := text ++ u.piece
    let step := update s grown (grown.length - u.held)
    let rest := grow update grown updates step.1
    (rest.1, step.2 ++ rest.2)

/-- The bytes the generation loop can keep back of a text without stop strings: those of one character
that is not whole. -/
def heldBytes : Nat := 3

/-- Updates that bring a text, the end of which may come with the last update only. -/
structure Splits (text : List UInt8) (updates : List Update) : Prop where
  spells : (updates.map Update.piece).flatten <+: text
  held : ∀ u ∈ updates, u.held ≤ heldBytes

/-- All actions of a reply. -/
def replyActions (t : Translator) (thinkEnabled : Bool) (text : List UInt8) (updates : List Update) :
    List Action :=
  let grown := grow (fun st raw rawLen => streamUpdate t st raw rawLen false) [] updates
    (ReplyStream.start thinkEnabled t.hasTools)
  grown.2 ++ (streamUpdate t grown.1 text text.length true).2

/-- All deltas of an OpenAI chat reply. -/
def openaiReply (thinkEnabled hasTools : Bool) (text : List UInt8) (updates : List Update) :
    List OpenAiDelta :=
  let grown := grow (fun st raw rawLen => openaiSseStreamUpdate hasTools st raw rawLen false) [] updates
    (ReplyStream.start thinkEnabled hasTools)
  grown.2 ++ (openaiSseStreamUpdate hasTools grown.1 text text.length true).2

/-- An Anthropic stream with its blocks; without them once a block could not be opened. -/
def anthropicStep (hasTools final : Bool) (s : ReplyStream × Option AnthropicBlocks) (raw : List UInt8)
    (rawLen : Nat) : (ReplyStream × Option AnthropicBlocks) × List AnthropicEvent :=
  match s.2 with
  | none => (s, [])
  | some blocks =>
    let update := anthropicSseStreamUpdate hasTools s.1 blocks raw rawLen final
    ((update.1, update.2.2), update.2.1)

def anthropicStart (thinkEnabled hasTools : Bool) : ReplyStream × Option AnthropicBlocks :=
  (ReplyStream.start thinkEnabled hasTools, some ⟨none, 0⟩)

/-- All events of the updates of an Anthropic reply. -/
def anthropicReply (thinkEnabled hasTools : Bool) (text : List UInt8) (updates : List Update) :
    List AnthropicEvent :=
  let grown := grow (anthropicStep hasTools false) [] updates (anthropicStart thinkEnabled hasTools)
  grown.2 ++ (anthropicStep hasTools true grown.1 text text.length).2

def OpenAiDelta.said (channel : Channel) : OpenAiDelta → List UInt8
  | .reasoningContent text => if channel = .reasoning then text else []
  | .content text => if channel = .content then text else []
  | _ => []

/-! ## What a reply says -/

def slice (text : List UInt8) (a b : Nat) : List UInt8 := (text.drop a).take (b - a)

/-- Where reasoning begins. -/
def reasoningStart (text : List UInt8) : Nat :=
  if thinkOpen.isPrefixOf text then thinkOpen.length else 0

/-- Where the answer begins behind a `</think>`: reasoning that a second one ends is no part of it. -/
def answerBehind (hasTools : Bool) (text : List UInt8) (pos : Nat) : Nat :=
  if hasTools then
    match thinkEnd hasTools text pos with
    | .close close => close + thinkClose.length
    | _ => pos
  else pos

def answerStart (thinkEnabled hasTools : Bool) (text : List UInt8) : Option Nat :=
  if thinkEnabled then
    match thinkEnd hasTools text (reasoningStart text) with
    | .close close => some (answerBehind hasTools text (close + thinkClose.length))
    | _ => none
  else some 0

/-- Where content ends: at the end of the reply, or at the white space before a tool block. -/
def contentEnd (hasTools : Bool) (text : List UInt8) (start : Nat) : Nat :=
  match findTool hasTools text start with
  | some tool => trimToolSeparatorWs text start tool
  | none => text.length

/-- The reasoning between two `</think>`. -/
def secondReasoning (hasTools : Bool) (text : List UInt8) (pos : Nat) : List UInt8 :=
  if hasTools then
    match thinkEnd hasTools text pos with
    | .close close => slice text pos close
    | _ => []
  else []

def replyReasoning (thinkEnabled hasTools : Bool) (text : List UInt8) : List UInt8 :=
  if thinkEnabled then
    match thinkEnd hasTools text (reasoningStart text) with
    | .close close =>
      slice text (reasoningStart text) close ++ secondReasoning hasTools text (close + thinkClose.length)
    | _ => slice text (reasoningStart text) text.length
  else []

def replyContent (thinkEnabled hasTools : Bool) (text : List UInt8) : List UInt8 :=
  match answerStart thinkEnabled hasTools text with
  | some start => slice text start (contentEnd hasTools text start)
  | none => []

/-- The marker of the tool block that is recognised in a reply. -/
def openingMarker (thinkEnabled hasTools : Bool) (text : List UInt8) : Option Nat :=
  if thinkEnabled then
    match thinkEnd hasTools text (reasoningStart text) with
    | .tool tool => some tool
    | .close close => findTool hasTools text (answerBehind hasTools text (close + thinkClose.length))
    | .none => none
  else findTool hasTools text 0

/-- The bytes of a delta lie before the marker, and those of content before the white space in front of
it. -/
def Hidden (text : List UInt8) (marker : Nat) : Action → Prop
  | .delta channel pos said =>
    pos + said.length ≤ marker ∧
      (channel = .content → ∀ i, pos ≤ i → i < pos + said.length →
        ∃ j, i ≤ j ∧ j < marker ∧ spaceAt text j = false)
  | _ => True

/-- The pieces of a reply make no difference to what is said, and nothing of a tool block is said. -/
structure SplitBlind (thinkEnabled hasTools : Bool) (text : List UInt8) : Prop where
  openai : ∀ u v, Splits text u → Splits text v → ∀ channel,
    saidBy (OpenAiDelta.said channel) (openaiReply thinkEnabled hasTools text u) =
      saidBy (OpenAiDelta.said channel) (openaiReply thinkEnabled hasTools text v)
  anthropic : ∀ u v, Splits text u → Splits text v → ∀ channel,
    saidBy (AnthropicEvent.said channel) (anthropicReply thinkEnabled hasTools text u) =
      saidBy (AnthropicEvent.said channel) (anthropicReply thinkEnabled hasTools text v)
  hidden : ∀ t ∈ [openaiTranslator hasTools, anthropicTranslator hasTools], ∀ u, Splits text u →
    ∀ marker, openingMarker thinkEnabled hasTools text = some marker →
      ∀ action ∈ replyActions t thinkEnabled text u, Hidden text marker action

/-- No tool marker stands in the reasoning. -/
def PlainReasoning (thinkEnabled hasTools : Bool) (text : List UInt8) : Prop :=
  thinkEnabled = true → ∀ tool, thinkEnd hasTools text (reasoningStart text) ≠ .tool tool

/-! ## Slices -/

variable {text : List UInt8} {a b c n : Nat}

theorem slice_self (text : List UInt8) (a : Nat) : slice text a a = [] := by simp [slice]

theorem slice_append (hab : a ≤ b) (hbc : b ≤ c) : slice text a b ++ slice text b c = slice text a c := by
  have hsplit : text.drop b = (text.drop a).drop (b - a) := by
    rw [List.drop_drop, Nat.add_sub_cancel' hab]
  rw [slice, slice, slice, hsplit, ← Nat.sub_add_sub_cancel hbc hab, Nat.add_comm, List.take_add]

theorem slice_take (hb : b ≤ n) : slice (text.take n) a b = slice text a b := by
  rw [slice, slice, List.drop_take, List.take_take]
  congr 1
  omega

theorem length_slice (text : List UInt8) (a b : Nat) : (slice text a b).length ≤ b - a := by
  rw [slice, List.length_take]
  exact min_le_left _ _

/-! ## Sending -/

/-- Where the bytes of a delta end. -/
def Within (bound : Nat) : Action → Prop
  | .delta _ pos said => pos + said.length ≤ bound
  | _ => True

/-- Content lies in the answer. -/
def InAnswer (start : Option Nat) : Action → Prop
  | .delta .content pos _ => ∃ a, start = some a ∧ a ≤ pos
  | _ => True

theorem Within.mono {bound bound' : Nat} {action : Action} (h : Within bound action) (hle : bound ≤ bound') :
    Within bound' action := by
  cases action with
  | delta => exact le_trans h hle
  | _ => trivial

/-- What some actions say, up to where in the text, and that content lies in the answer. -/
structure Says (answer : Option Nat) (out : List Action) (reasoning content : List UInt8) (bound : Nat) :
    Prop where
  reasoning_eq : saidBy (Action.said .reasoning) out = reasoning
  content_eq : saidBy (Action.said .content) out = content
  within : ∀ action ∈ out, Within bound action
  inAnswer : ∀ action ∈ out, InAnswer answer action

variable {answer : Option Nat} {out more : List Action} {r r' ct ct' : List UInt8} {bound bound' : Nat}

theorem Says.nil (answer : Option Nat) (bound : Nat) : Says answer [] [] [] bound :=
  ⟨rfl, rfl, nofun, nofun⟩

theorem Says.mono (h : Says answer out r ct bound) (hle : bound ≤ bound') : Says answer out r ct bound' :=
  ⟨h.reasoning_eq, h.content_eq, fun action haction => (h.within action haction).mono hle, h.inAnswer⟩

theorem Says.append (h : Says answer out r ct bound) (hmore : Says answer more r' ct' bound) :
    Says answer (out ++ more) (r ++ r') (ct ++ ct') bound where
  reasoning_eq := by rw [saidBy_append, h.reasoning_eq, hmore.reasoning_eq]
  content_eq := by rw [saidBy_append, h.content_eq, hmore.content_eq]
  within := fun action haction => (List.mem_append.mp haction).elim (h.within action) (hmore.within action)
  inAnswer := fun action haction =>
    (List.mem_append.mp haction).elim (h.inAnswer action) (hmore.inAnswer action)

/-- Actions that say nothing. -/
def Action.isSilent : Action → Bool
  | .delta _ _ _ => false
  | _ => true

theorem says_silent (answer : Option Nat) (bound : Nat) (h : ∀ action ∈ more, action.isSilent = true) :
    Says answer more [] [] bound := by
  have hsaid : ∀ channel, saidBy (Action.said channel) more = [] := by
    intro channel
    refine List.flatMap_eq_nil_iff.mpr fun action haction => ?_
    cases action with
    | delta => exact absurd (h _ haction) (by simp [Action.isSilent])
    | _ => rfl
  refine ⟨hsaid _, hsaid _, fun action haction => ?_, fun action haction => ?_⟩
  · cases action with
    | delta => exact absurd (h _ haction) (by simp [Action.isSilent])
    | _ => trivial
  · cases action with
    | delta => exact absurd (h _ haction) (by simp [Action.isSilent])
    | _ => trivial

theorem Says.append_silent (h : Says answer out r ct bound) (hmore : ∀ action ∈ more, action.isSilent = true) :
    Says answer (out ++ more) r ct bound := by
  have happend := h.append (says_silent answer bound hmore)
  rwa [List.append_nil, List.append_nil] at happend

variable {st : ReplyStream} {limit : Nat}

theorem send_emitPos (st : ReplyStream) (channel : Channel) (raw : List UInt8) (limit : Nat) :
    (st.send channel raw limit).1.emitPos = max st.emitPos limit := by
  unfold ReplyStream.send
  split
  case isTrue hlt => exact (max_eq_right (le_of_lt hlt)).symm
  case isFalse hge => exact (max_eq_left (not_lt.mp hge)).symm

theorem send_checked (st : ReplyStream) (channel : Channel) (raw : List UInt8) (limit : Nat) :
    (st.send channel raw limit).1.checkedThinkPrefix = st.checkedThinkPrefix := by
  unfold ReplyStream.send
  split
  · rfl
  · rfl

/-- What sending up to a limit says. -/
theorem says_send (text : List UInt8) (st : ReplyStream) (channel : Channel)
    (hlimit : st.emitPos < limit → limit ≤ n)
    (hanswer : channel = .content → ∃ a, answer = some a ∧ a ≤ st.emitPos) :
    Says answer (st.send channel (text.take n) limit).2
      (if channel = .reasoning then slice text st.emitPos (max st.emitPos limit) else [])
      (if channel = .content then slice text st.emitPos (max st.emitPos limit) else [])
      (max st.emitPos limit) := by
  unfold ReplyStream.send
  split
  case isTrue hlt =>
    have hmax : max st.emitPos limit = limit := max_eq_right (le_of_lt hlt)
    have hslice : ((text.take n).drop st.emitPos).take (limit - st.emitPos) = slice text st.emitPos limit :=
      slice_take (hlimit hlt)
    simp only [hmax, hslice]
    refine ⟨?_, ?_, fun action haction => ?_, fun action haction => ?_⟩
    · cases channel
      · simp [saidBy, Action.said]
      · simp [saidBy, Action.said]
    · cases channel
      · simp [saidBy, Action.said]
      · simp [saidBy, Action.said]
    · rw [List.mem_singleton.mp haction]
      have := length_slice text st.emitPos limit
      show st.emitPos + (slice text st.emitPos limit).length ≤ limit
      omega
    · rw [List.mem_singleton.mp haction]
      cases channel with
      | reasoning => trivial
      | content => exact hanswer rfl
  case isFalse hge =>
    rw [max_eq_left (not_lt.mp hge), slice_self, ite_self, ite_self]
    exact Says.nil _ _

/-! ## What is said by now -/

/-- Where the last byte that is said ends, in a whole reply. -/
def saidEnd (thinkEnabled hasTools : Bool) (text : List UInt8) : Nat :=
  match answerStart thinkEnabled hasTools text with
  | some start => contentEnd hasTools text start
  | none => text.length

/-- What is sent of a reply by the state a stream is in. -/
inductive Told (thinkEnabled hasTools : Bool) (text : List UInt8) (st : ReplyStream) (out : List Action) :
    Prop where
  | waiting (hthink : thinkEnabled = true) (hmode : st.mode = .thinking)
      (hguard : st.guardSecondReasoning = hasTools) (hchecked : st.checkedThinkPrefix = false)
      (hpos : st.emitPos = 0) (hsaid : Says (answerStart thinkEnabled hasTools text) out [] [] 0)
  | reasoning (hthink : thinkEnabled = true) (hmode : st.mode = .thinking)
      (hguard : st.guardSecondReasoning = hasTools) (hchecked : st.checkedThinkPrefix = true)
      (hstart : reasoningStart text ≤ st.emitPos)
      (hle : st.emitPos ≤ text.length)
      (hbefore : ∀ i, (thinkEnd hasTools text (reasoningStart text)).pos? = some i → st.emitPos ≤ i)
      (hsaid : Says (answerStart thinkEnabled hasTools text) out
        (slice text (reasoningStart text) st.emitPos) [] st.emitPos)
  | guarded (close : Nat) (hthink : thinkEnabled = true) (htools : hasTools = true) (hmode : st.mode = .text)
      (hguard : st.guardSecondReasoning = true)
      (hend : thinkEnd hasTools text (reasoningStart text) = .close close)
      (hpos : st.emitPos = close + thinkClose.length)
      (hsaid : Says (answerStart thinkEnabled hasTools text) out (slice text (reasoningStart text) close) []
        st.emitPos)
  | content (start : Nat) (hmode : st.mode = .text) (hguard : st.guardSecondReasoning = false)
      (hanswer : answerStart thinkEnabled hasTools text = some start) (hstart : start ≤ st.emitPos)
      (hend : st.emitPos ≤ contentEnd hasTools text start)
      (hsaid : Says (some start) out (replyReasoning thinkEnabled hasTools text)
        (slice text start st.emitPos) st.emitPos)
  | past (hmode : st.mode = .tool ∨ st.mode = .suppress)
      (hsaid : Says (answerStart thinkEnabled hasTools text) out (replyReasoning thinkEnabled hasTools text)
        (replyContent thinkEnabled hasTools text) (saidEnd thinkEnabled hasTools text))

variable {thinkEnabled hasTools final : Bool} {rawLen : Nat}

/-- The bytes of an update: a part of the text, and nearly all of it may be sent; the last update has all
of it. -/
structure Shows (text : List UInt8) (n rawLen : Nat) (final : Bool) : Prop where
  le_length : n ≤ text.length
  rawLen_le : rawLen ≤ n
  near : n ≤ rawLen + heldBytes
  last : final = true → rawLen = text.length

theorem Shows.whole (h : Shows text n rawLen true) : n = text.length ∧ rawLen = text.length := by
  have hlast := h.last rfl
  have hle := h.rawLen_le
  have hle' := h.le_length
  exact ⟨by omega, hlast⟩

theorem Shows.take (h : Shows text n rawLen true) : text.take n = text :=
  List.take_of_length_le h.whole.1.ge

theorem start_le_contentEnd {start : Nat} (h0 : 0 ∉ text) (hstart : start ≤ text.length) :
    start ≤ contentEnd hasTools text start := by
  have hfirst := findTool_first hasTools h0 start
  unfold contentEnd
  cases hfind : findTool hasTools text start with
  | none => exact hstart
  | some tool =>
    rw [hfind] at hfirst
    exact (trimToolSeparatorWs_spec text start tool).2.1 hfirst.1.1

theorem reasoningStart_le (text : List UInt8) : reasoningStart text ≤ text.length := by
  unfold reasoningStart
  split
  case isTrue hopen => exact (List.isPrefixOf_iff_prefix.mp hopen).length_le
  case isFalse => exact Nat.zero_le _

/-! ## One update -/

/-- Behind the last look for reasoning, content begins. -/
theorem told_content {start : Nat} (h0 : 0 ∉ text) (hmode : st.mode = .text)
    (hguard : st.guardSecondReasoning = false)
    (hanswer : answerStart thinkEnabled hasTools text = some start) (hpos : st.emitPos = start)
    (hlength : start ≤ text.length)
    (hsaid : Says (answerStart thinkEnabled hasTools text) out (replyReasoning thinkEnabled hasTools text) []
      start) : Told thinkEnabled hasTools text st out := by
  refine .content start hmode hguard hanswer hpos.ge ?_ ?_
  · rw [hpos]
    exact start_le_contentEnd h0 hlength
  · rw [hpos, slice_self, ← hanswer]
    exact hsaid

/-- Once the look for a leading `<think>` is over, it has found what the whole reply begins with. -/
theorem checkThinkPrefix_eq {st' : ReplyStream} (hshows : Shows text n rawLen final)
    (hchecked : st.checkedThinkPrefix = false) (hpos : st.emitPos = 0)
    (hcheck : st.checkThinkPrefix (text.take n) rawLen final = some st') :
    st' = { st with checkedThinkPrefix := true, emitPos := reasoningStart text } := by
  rw [ReplyStream.checkThinkPrefix, if_neg (by simp [hchecked])] at hcheck
  split at hcheck
  case isTrue => cases hcheck
  case isFalse hgo =>
    rw [← Option.some.inj hcheck]
    congr 1
    have hle := hshows.rawLen_le
    have hle' := hshows.le_length
    rw [hpos, reasoningStart]
    by_cases hopen : thinkOpen.isPrefixOf text = true
    · have hfront := List.isPrefixOf_iff_prefix.mp hopen
      have hlong : thinkOpen.length ≤ rawLen := by
        by_contra hshort
        have hlength := hfront.length_le
        refine hgo ⟨by omega, ?_, ?_⟩
        · obtain ⟨rest, rfl⟩ := hfront
          rw [List.take_take, min_eq_left hle, List.take_append_of_le_length (by omega)]
        · cases final with
          | false => rfl
          | true =>
            have := hshows.last rfl
            omega
      have hin : thinkOpen.isPrefixOf (text.take n) = true :=
        List.isPrefixOf_iff_prefix.mpr (List.prefix_take_iff.mpr ⟨hfront, hlong.trans hle⟩)
      rw [if_pos ⟨hlong, hin⟩, if_pos hopen]
    · have hout : ¬ thinkOpen.isPrefixOf (text.take n) = true := fun hin => hopen
        (List.isPrefixOf_iff_prefix.mpr
          ((List.isPrefixOf_iff_prefix.mp hin).trans (List.take_prefix n text)))
      rw [if_neg (fun h => hout h.2), if_neg hopen]

theorem told_checkThinkPrefix {st' : ReplyStream} (h0 : 0 ∉ text) (hshows : Shows text n rawLen final)
    (h : Told thinkEnabled hasTools text st out) (hmode : st.mode = .thinking)
    (hcheck : st.checkThinkPrefix (text.take n) rawLen final = some st') :
    Told thinkEnabled hasTools text st' out ∧ st'.checkedThinkPrefix = true ∧ st'.mode = .thinking := by
  cases h with
  | guarded _ _ _ hmode' => exact absurd (hmode.symm.trans hmode') nofun
  | content _ hmode' => exact absurd (hmode.symm.trans hmode') nofun
  | past hmode' =>
    rcases hmode' with h | h
    · exact absurd (hmode.symm.trans h) nofun
    · exact absurd (hmode.symm.trans h) nofun
  | reasoning hthink _ hguard hchecked hstart hle hbefore hsaid =>
    rw [ReplyStream.checkThinkPrefix, if_pos hchecked] at hcheck
    obtain rfl := Option.some.inj hcheck
    exact ⟨.reasoning hthink hmode hguard hchecked hstart hle hbefore hsaid, hchecked, hmode⟩
  | waiting hthink _ hguard hchecked hpos hsaid =>
    obtain rfl := checkThinkPrefix_eq hshows hchecked hpos hcheck
    refine ⟨.reasoning hthink hmode hguard rfl (le_refl _) (reasoningStart_le text)
      (fun i => thinkEnd_ge h0) ?_, rfl, hmode⟩
    rw [slice_self]
    exact hsaid.mono (Nat.zero_le _)

/-- Reasoning that a `</think>` ends, sent to that. -/
theorem told_close {close : Nat} {st' : ReplyStream} (h0 : 0 ∉ text) (hthink : thinkEnabled = true)
    (hend : thinkEnd hasTools text (reasoningStart text) = .close close) (hmode : st'.mode = .text)
    (hguard : st'.guardSecondReasoning = hasTools) (hpos : st'.emitPos = close + thinkClose.length)
    (hsaid : Says (answerStart thinkEnabled hasTools text) out (slice text (reasoningStart text) close) []
      close) : Told thinkEnabled hasTools text st' out := by
  have hsaid' := hsaid.mono (Nat.le_add_right close thinkClose.length)
  cases htools : hasTools with
  | true =>
    subst htools
    exact .guarded close hthink rfl hmode hguard hend hpos (hpos ▸ hsaid')
  | false =>
    subst htools
    refine told_content h0 hmode hguard ?_ hpos (close_le h0 hend) ?_
    · simp [answerStart, hthink, hend, answerBehind]
    · have hreasoning : replyReasoning thinkEnabled false text = slice text (reasoningStart text) close := by
        simp [replyReasoning, hthink, hend, secondReasoning]
      rw [hreasoning]
      exact hsaid'

theorem told_thinkingUpdate (h0 : 0 ∉ text) (hplain : PlainReasoning thinkEnabled hasTools text)
    (hshows : Shows text n rawLen final) (h : Told thinkEnabled hasTools text st out)
    (hmode : st.mode = .thinking) (hchecked : st.checkedThinkPrefix = true) :
    Told thinkEnabled hasTools text (thinkingUpdate hasTools st (text.take n) rawLen final).1
        (out ++ (thinkingUpdate hasTools st (text.take n) rawLen final).2) ∧
      (final = true → (thinkingUpdate hasTools st (text.take n) rawLen final).1.mode ≠ .thinking) := by
  cases h with
  | waiting _ _ _ hunchecked => exact absurd (hchecked.symm.trans hunchecked) nofun
  | guarded _ _ _ hmode' => exact absurd (hmode.symm.trans hmode') nofun
  | content _ hmode' => exact absurd (hmode.symm.trans hmode') nofun
  | past hmode' =>
    rcases hmode' with h | h
    · exact absurd (hmode.symm.trans h) nofun
    · exact absurd (hmode.symm.trans h) nofun
  | reasoning hthink _ hguard _ hstart hle hbefore hsaid =>
    have hlen := hshows.rawLen_le
    have hlen' := hshows.le_length
    have hsame : thinkEnd hasTools text st.emitPos = thinkEnd hasTools text (reasoningStart text) :=
      thinkEnd_advance h0 hstart hbefore
    -- what is sent up to a limit is what reasoning there is up to it
    have hsent : ∀ limit, (st.emitPos < limit → limit ≤ n) → Says (answerStart thinkEnabled hasTools text)
        (out ++ (st.send .reasoning (text.take n) limit).2)
        (slice text (reasoningStart text) (max st.emitPos limit)) [] (max st.emitPos limit) := by
      intro limit hlimit
      have hmore := (hsaid.mono (le_max_left st.emitPos limit)).append
        (says_send text st .reasoning hlimit nofun)
      simp only [if_true, reduceCtorEq, if_false, List.append_nil] at hmore
      rwa [slice_append hstart (le_max_left _ _)] at hmore
    have hsendMode : ∀ limit, (st.send .reasoning (text.take n) limit).1.mode = .thinking ∧
        (st.send .reasoning (text.take n) limit).1.guardSecondReasoning = hasTools := fun limit =>
      ⟨(send_frame st _ _ limit).2.1.trans hmode, (send_frame st _ _ limit).2.2.trans hguard⟩
    unfold thinkingUpdate
    cases hfound : thinkEnd hasTools (text.take n) st.emitPos with
    | tool tool =>
      have hin := thinkEnd_take h0 hfound nofun
      rw [hsame] at hin
      exact absurd hin (hplain hthink tool)
    | close close =>
      have hin := thinkEnd_take h0 hfound nofun
      rw [hsame] at hin
      have hclose : close ≤ n := by
        have := close_le (not_mem_take h0 n) hfound
        rw [List.length_take] at this
        omega
      have hsaid' := hsent close fun _ => hclose
      rw [max_eq_right (hbefore close (by rw [hin]; rfl))] at hsaid'
      refine ⟨?_, fun _ => nofun⟩
      simp only
      rw [← List.append_assoc]
      exact told_close h0 hthink hin rfl (hsendMode close).2 rfl (hsaid'.append_silent (by simp [Action.isSilent]))
    | none =>
      simp only
      cases final with
      | true =>
        obtain ⟨rfl, hraw⟩ := hshows.whole
        rw [hshows.take, hsame] at hfound
        have hsaid' := hsent rawLen fun _ => hlen
        rw [max_eq_right (hraw ▸ hle), hraw] at hsaid'
        refine ⟨.past (.inr rfl) ?_, fun _ => nofun⟩
        have hreasoning : replyReasoning thinkEnabled hasTools text =
            slice text (reasoningStart text) text.length := by
          simp [replyReasoning, hthink, hfound]
        have hanswer : answerStart thinkEnabled hasTools text = none := by
          simp [answerStart, hthink, hfound]
        simp only [if_true]
        rw [hreasoning, replyContent, saidEnd, hraw]
        simp only [hanswer] at hsaid' ⊢
        rw [← List.append_assoc]
        exact hsaid'.append_silent (by simp [Action.isSilent])
      | false =>
        refine ⟨?_, nofun⟩
        simp only [Bool.false_eq_true, if_false]
        generalize hlimit : (if rawLen > thinkClose.length - 1 then rawLen - (thinkClose.length - 1)
          else st.emitPos) = limit
        have hsafe := (utf8StreamSafeLen_spec (text.take n) st.emitPos limit false).1
        have hbound : limit ≤ max st.emitPos (rawLen - (thinkClose.length - 1)) := by
          rw [← hlimit]
          split
          · exact le_max_right _ _
          · exact le_max_left _ _
        have hsent' := hsent (utf8StreamSafeLen (text.take n) st.emitPos limit false)
        have hpos := send_emitPos st .reasoning (text.take n)
          (utf8StreamSafeLen (text.take n) st.emitPos limit false)
        have hmode' := hsendMode (utf8StreamSafeLen (text.take n) st.emitPos limit false)
        have hchecked' := send_checked st .reasoning (text.take n)
          (utf8StreamSafeLen (text.take n) st.emitPos limit false)
        revert hsafe hsent' hpos hmode' hchecked'
        generalize utf8StreamSafeLen (text.take n) st.emitPos limit false = safe
        intro hsafe hsent' hpos hmode' hchecked'
        refine .reasoning hthink hmode'.1 hmode'.2 (hchecked'.trans hchecked) ?_ ?_ ?_ ?_
        · rw [hpos]
          exact hstart.trans (le_max_left _ _)
        · rw [hpos]
          omega
        · intro i hi
          rw [hpos]
          have hbefore' := hbefore i hi
          cases hend : thinkEnd hasTools text (reasoningStart text) with
          | tool tool => exact absurd hend (hplain hthink tool)
          | none => rw [hend] at hi; cases hi
          | close close =>
            rw [hend] at hi
            obtain rfl := Option.some.inj hi
            -- a `</think>` that is not whole yet begins in the last seven bytes
            have hafter := close_after h0 hfound hbefore' ((thinkEnd_spec hasTools h0 _).close close hend)
            omega
        · rw [hpos]
          exact hsent' fun _ => by omega

/-- The look for more reasoning settles where the answer begins, or waits. -/
theorem told_guardUpdate (h0 : 0 ∉ text) (hshows : Shows text n rawLen final)
    (h : Told thinkEnabled hasTools text st out) (hmode : st.mode = .text) :
    Told thinkEnabled hasTools text (guardUpdate hasTools st (text.take n) final).1.1
        (out ++ (guardUpdate hasTools st (text.take n) final).1.2) ∧
      (final = true → (guardUpdate hasTools st (text.take n) final).2 = true) := by
  have hlen := hshows.le_length
  cases h with
  | waiting _ hmode' => exact absurd (hmode.symm.trans hmode') nofun
  | reasoning _ hmode' => exact absurd (hmode.symm.trans hmode') nofun
  | past hmode' =>
    rcases hmode' with h | h
    · exact absurd (hmode.symm.trans h) nofun
    · exact absurd (hmode.symm.trans h) nofun
  | content start _ hguard hanswer hstart hend hsaid =>
    rw [guardUpdate, if_neg (by simp [hguard]), List.append_nil]
    exact ⟨.content start hmode hguard hanswer hstart hend hsaid, fun _ => rfl⟩
  | guarded first hthink htools _ hguard hfirst hpos hsaid =>
    subst htools
    have hlength := close_le h0 hfirst
    -- without a second `</think>` the answer begins behind the first
    have hopen : (∀ second, thinkEnd true text st.emitPos ≠ .close second) →
        Told thinkEnabled true text { st with guardSecondReasoning := false } out := by
      intro hnone
      have hanswer : answerStart thinkEnabled true text = some (first + thinkClose.length) ∧
          replyReasoning thinkEnabled true text = slice text (reasoningStart text) first := by
        simp only [answerStart, replyReasoning, hthink, hfirst, if_true, answerBehind, secondReasoning, ← hpos]
        cases hsecond : thinkEnd true text st.emitPos with
        | close second => exact absurd hsecond (hnone second)
        | tool tool => simp
        | none => simp
      refine told_content h0 hmode rfl hanswer.1 hpos hlength ?_
      rw [hanswer.2]
      exact hpos ▸ hsaid
    rw [guardUpdate, if_pos hguard]
    cases hfound : thinkEnd true (text.take n) st.emitPos with
    | tool tool =>
      have hin := thinkEnd_take h0 hfound nofun
      simp only [List.append_nil]
      exact ⟨hopen fun second h => absurd (hin.symm.trans h) nofun, fun _ => trivial⟩
    | none =>
      cases final with
      | true =>
        rw [hshows.take] at hfound
        simp only [if_true, List.append_nil]
        exact ⟨hopen fun second h => absurd (hfound.symm.trans h) nofun, fun _ => trivial⟩
      | false =>
        simp only [Bool.false_eq_true, if_false, List.append_nil]
        exact ⟨.guarded first hthink rfl hmode hguard hfirst hpos hsaid, nofun⟩
    | close second =>
      have hin := thinkEnd_take h0 hfound nofun
      have hge : st.emitPos ≤ second := thinkEnd_ge h0 (by rw [hin]; rfl)
      have hlength' := close_le h0 hin
      have hle : second ≤ n := by
        have := close_le (not_mem_take h0 n) hfound
        rw [List.length_take] at this
        omega
      have hanswer : answerStart thinkEnabled true text = some (second + thinkClose.length) ∧
          replyReasoning thinkEnabled true text =
            slice text (reasoningStart text) first ++ slice text st.emitPos second := by
        simp only [answerStart, replyReasoning, hthink, hfirst, if_true, answerBehind, secondReasoning,
          ← hpos, hin]
        exact ⟨trivial, trivial⟩
      have hmore := (hsaid.mono (le_max_left st.emitPos second)).append
        (says_send text st .reasoning (fun _ => hle) nofun)
      simp only [if_true, reduceCtorEq, if_false, List.append_nil, max_eq_right hge] at hmore
      simp only [← List.append_assoc]
      refine ⟨told_content h0 ((send_frame st _ _ _).2.1.trans hmode) rfl hanswer.1 rfl hlength' ?_,
        fun _ => trivial⟩
      rw [hanswer.2]
      exact (hmore.append_silent (by simp [Action.isSilent])).mono (Nat.le_add_right _ _)

/-- What an update finds of a tool block from the last byte sent is what there is from the start of the
answer. -/
theorem findTool_answer {start : Nat} (h0 : 0 ∉ text) (hstart : start ≤ st.emitPos)
    (hend : st.emitPos ≤ contentEnd hasTools text start) :
    findTool hasTools text st.emitPos = findTool hasTools text start := by
  refine findTool_advance h0 hstart fun tool htool => ?_
  rw [contentEnd, htool] at hend
  exact hend.trans (trimToolSeparatorWs_spec text start tool).1

theorem told_contentUpdate (t : Translator) (h0 : 0 ∉ text) (hshows : Shows text n rawLen final)
    (h : Told thinkEnabled t.hasTools text st out) (hmode : st.mode = .text)
    (hguard : st.guardSecondReasoning = false) :
    Told thinkEnabled t.hasTools text (contentUpdate t st (text.take n) rawLen final).1
        (out ++ (contentUpdate t st (text.take n) rawLen final).2) ∧
      (final = true → (contentUpdate t st (text.take n) rawLen final).1.mode = .tool ∨
        (contentUpdate t st (text.take n) rawLen final).1.mode = .suppress) := by
  have hlen := hshows.rawLen_le
  have hlen' := hshows.le_length
  cases h with
  | waiting _ hmode' => exact absurd (hmode.symm.trans hmode') (by simp)
  | reasoning _ hmode' => exact absurd (hmode.symm.trans hmode') (by simp)
  | guarded _ _ _ _ hguard' => exact absurd (hguard.symm.trans hguard') (by simp)
  | past hmode' =>
    rcases hmode' with h | h
    · exact absurd (hmode.symm.trans h) (by simp)
    · exact absurd (hmode.symm.trans h) (by simp)
  | content start _ _ hanswer hstart hend hsaid =>
    have hsame := findTool_answer h0 hstart hend
    have hcontent : replyContent thinkEnabled t.hasTools text =
        slice text start (contentEnd t.hasTools text start) := by
      rw [replyContent, hanswer]
    have hsaidEnd : saidEnd thinkEnabled t.hasTools text = contentEnd t.hasTools text start := by
      rw [saidEnd, hanswer]
    have hsent : ∀ limit, (st.emitPos < limit → limit ≤ n) → Says (some start)
        (out ++ (st.send .content (text.take n) limit).2) (replyReasoning thinkEnabled t.hasTools text)
        (slice text start (max st.emitPos limit)) (max st.emitPos limit) := by
      intro limit hlimit
      have hmore := (hsaid.mono (le_max_left st.emitPos limit)).append
        (says_send text st .content hlimit fun _ => ⟨start, rfl, hstart⟩)
      simp only [if_true, reduceCtorEq, if_false, List.append_nil] at hmore
      rwa [slice_append hstart (le_max_left _ _)] at hmore
    -- once all content is sent, the rest of the reply adds none
    have hover : ∀ (st' : ReplyStream) (limit : Nat), (st.emitPos < limit → limit ≤ n) →
        max st.emitPos limit = contentEnd t.hasTools text start → (st'.mode = .tool ∨ st'.mode = .suppress) →
        Told thinkEnabled t.hasTools text st'
          (out ++ ((st.send .content (text.take n) limit).2 ++ [.closeBlock])) := by
      intro st' limit hlimit hmax hmode'
      refine .past hmode' ?_
      rw [hcontent, hsaidEnd, hanswer, ← List.append_assoc, ← hmax]
      exact (hsent limit hlimit).append_silent (by simp [Action.isSilent])
    unfold contentUpdate
    cases hfound : findTool t.hasTools (text.take n) st.emitPos with
    | some tool =>
      have hin := findTool_take h0 hfound
      have hwhole := hsame.symm.trans hin
      have hcontentEnd : contentEnd t.hasTools text start = trimToolSeparatorWs text start tool := by
        rw [contentEnd, hwhole]
      have hfirst := findTool_first t.hasTools (not_mem_take h0 n) st.emitPos
      rw [hfound] at hfirst
      obtain ⟨hge, htools, word, hword, hat⟩ := hfirst.1
      have hfits := ((occurs_take (distinct_toolStarts.ne_nil hword)).mp hat).2
      have hlong := (toolStarts_length word hword).1
      rw [length_thinkClose] at hlong
      have hlimit : textStreamSafeLimit (text.take n) st.emitPos rawLen t.hasTools final =
          contentEnd t.hasTools text start := by
        have hnear := hshows.near
        obtain ⟨off, hoff, rfl⟩ : ∃ off, findAnyToolStart ((text.take n).drop st.emitPos) = some off ∧
            st.emitPos + off = tool := by
          rw [findTool, if_pos htools] at hfound
          exact Option.map_eq_some_iff.mp hfound
        rw [textStreamSafeLimit, if_neg (by simp only [heldBytes] at hnear; omega), if_pos htools]
        simp only [hoff]
        rw [utf8StreamSafeLen_final, trimToolSeparatorWs_take (by omega) hge, hcontentEnd]
        exact trimToolSeparatorWs_advance hstart (hcontentEnd ▸ hend)
      have htrim := (trimToolSeparatorWs_spec text start tool).1
      have hmodes : ∀ reads : Bool, (if reads then StreamMode.tool else .suppress) = .tool ∨
          (if reads then StreamMode.tool else .suppress) = .suppress := by decide
      refine ⟨hover _ _ (fun _ => ?_) ?_ (hmodes _), fun _ => hmodes _⟩
      · rw [hlimit, hcontentEnd]
        omega
      · rw [hlimit, max_eq_right hend]
    | none =>
      simp only
      cases final with
      | true =>
        obtain ⟨rfl, hraw⟩ := hshows.whole
        rw [hshows.take] at hfound
        have hwhole : contentEnd t.hasTools text start = text.length := by
          rw [contentEnd, ← hsame, hfound]
        have hlimit : textStreamSafeLimit (text.take text.length) st.emitPos rawLen t.hasTools true =
            text.length := by
          rw [hshows.take, textStreamSafeLimit, hraw]
          split
          · rfl
          split
          case isTrue htools =>
            have hoff : findAnyToolStart (text.drop st.emitPos) = none := by
              rw [findTool, if_pos htools] at hfound
              exact Option.map_eq_none_iff.mp hfound
            simp only [hoff, if_true]
            exact utf8StreamSafeLen_final
          case isFalse => exact utf8StreamSafeLen_final
        rw [hlimit]
        refine ⟨hover _ _ (fun _ => le_refl _) ?_ (.inr rfl), fun _ => .inr rfl⟩
        rw [max_eq_right (hwhole ▸ hend), hwhole]
      | false =>
        simp only [Bool.false_eq_true, if_false]
        generalize hlimit : textStreamSafeLimit (text.take n) st.emitPos rawLen t.hasTools false = limit
        have hbound : (st.emitPos < limit → limit ≤ n) ∧
            max st.emitPos limit ≤ contentEnd t.hasTools text start := by
          by_cases hmore : st.emitPos < rawLen
          · have hle := (textStreamSafeLimit_le hfound hmore).1
            rw [hlimit] at hle
            refine ⟨fun _ => hle.trans hlen, max_le hend ?_⟩
            cases hwhole : findTool t.hasTools text start with
            | none =>
              rw [contentEnd, hwhole]
              exact hle.trans (hlen.trans hlen')
            | some tool =>
              have hfirst := findTool_first t.hasTools h0 start
              rw [hwhole] at hfirst
              have htools := hfirst.1.2.1
              have hbefore : st.emitPos ≤ trimToolSeparatorWs text start tool := by
                rw [contentEnd, hwhole] at hend
                exact hend
              have htrim := (trimToolSeparatorWs_spec text start tool).1
              rw [contentEnd, hwhole, ← hlimit]
              show _ ≤ trimToolSeparatorWs text start tool
              rw [htools] at hfound hfirst ⊢
              rw [← trimToolSeparatorWs_advance hstart hbefore]
              exact textStreamSafeLimit_before_tool h0 hlen hfound hmore (hbefore.trans htrim) hfirst.1.2
          · rw [textStreamSafeLimit, if_pos (by omega)] at hlimit
            exact ⟨fun h => by omega, max_le hend (by omega)⟩
        have hpos := send_emitPos st .content (text.take n) limit
        refine ⟨.content start ((send_frame st _ _ _).2.1.trans hmode) ((send_frame st _ _ _).2.2.trans hguard)
          hanswer ?_ ?_ ?_, fun h => by cases h⟩
        · rw [hpos]
          exact hstart.trans (le_max_left _ _)
        · rw [hpos]
          exact hbound.2
        · rw [hpos]
          exact hsent limit hbound.1

/-! ## A whole update -/

theorem OfTool.isSilent {bound : Nat} {action : Action} (h : OfTool bound action) :
    action.isSilent = true := by
  cases action with
  | delta => exact h.elim
  | _ => rfl

theorem told_textUpdate (t : Translator) (h0 : 0 ∉ text) (hshows : Shows text n rawLen final)
    (h : Told thinkEnabled t.hasTools text st out) (hmode : st.mode = .text) :
    Told thinkEnabled t.hasTools text (textUpdate t st (text.take n) rawLen final).1
        (out ++ (textUpdate t st (text.take n) rawLen final).2) ∧
      (final = true → (textUpdate t st (text.take n) rawLen final).1.mode = .tool ∨
        (textUpdate t st (text.take n) rawLen final).1.mode = .suppress) := by
  obtain ⟨htold, hgo⟩ := told_guardUpdate h0 hshows h hmode
  obtain ⟨hmode', hguard⟩ := guardUpdate_mode t.hasTools (text.take n) final hmode
  unfold textUpdate
  simp only
  split
  case isTrue hon =>
    obtain ⟨htold', hlast⟩ := told_contentUpdate t h0 hshows htold hmode' (hguard hon)
    rw [← List.append_assoc]
    exact ⟨htold', hlast⟩
  case isFalse hoff => exact ⟨htold, fun hfinal => absurd (hgo hfinal) hoff⟩

theorem told_toolUpdate (hsound : Sound st) (h : Told thinkEnabled hasTools text st out)
    (hmode : st.mode = .tool) :
    Told thinkEnabled hasTools text (toolUpdate st (text.take n) rawLen).1
      (out ++ (toolUpdate st (text.take n) rawLen).2) := by
  cases h with
  | waiting _ hmode' => exact absurd (hmode.symm.trans hmode') nofun
  | reasoning _ hmode' => exact absurd (hmode.symm.trans hmode') nofun
  | guarded _ _ _ hmode' => exact absurd (hmode.symm.trans hmode') nofun
  | content _ hmode' => exact absurd (hmode.symm.trans hmode') nofun
  | past _ hsaid =>
    have hloop := (toolLoop_ofTool ((text.take n).take rawLen) (((text.take n).take rawLen).length + 1)
      hsound.known).1
    refine .past ?_ (hsaid.append_silent fun action haction => (hloop action haction).isSilent)
    show (if _ then StreamMode.tool else .suppress) = .tool ∨ (if _ then StreamMode.tool else .suppress) = .suppress
    split
    · exact .inl rfl
    · exact .inr rfl

/-- The last update waits for no `<think>`. -/
theorem checkThinkPrefix_final (st : ReplyStream) (raw : List UInt8) (rawLen : Nat) :
    st.checkThinkPrefix raw rawLen true ≠ none := by
  unfold ReplyStream.checkThinkPrefix
  split
  · nofun
  · rw [if_neg (by simp)]
    nofun

/-- What holds behind some parts of an update: the last one is by then through with their modes. -/
structure Stage (thinkEnabled hasTools final : Bool) (text : List UInt8) (passed : List StreamMode)
    (st : ReplyStream) (out : List Action) : Prop where
  sound : Sound st
  told : Told thinkEnabled hasTools text st out
  through : final = true → st.mode ∉ passed

theorem Stage.andIn {passed : List StreamMode} {mode : StreamMode}
    {part : ReplyStream → ReplyStream × List Action} {done : ReplyStream × List Action}
    (h : Stage thinkEnabled hasTools final text passed done.1 (out ++ done.2))
    (hpart : ∀ st out, st.mode = mode → Stage thinkEnabled hasTools final text passed st out →
      Stage thinkEnabled hasTools final text (mode :: passed) (part st).1 (out ++ (part st).2)) :
    Stage thinkEnabled hasTools final text (mode :: passed) (andIn mode part done).1
      (out ++ (andIn mode part done).2) := by
  unfold Server.andIn
  split
  case isTrue hmode =>
    simp only
    rw [← List.append_assoc]
    exact hpart _ _ hmode h
  case isFalse hmode =>
    exact ⟨h.sound, h.told, fun hfinal => by simpa [hmode] using h.through hfinal⟩

/-- Every update keeps to what the whole reply says, and the last one sends all of it. -/
theorem told_streamUpdate (t : Translator) (h0 : 0 ∉ text) (hplain : PlainReasoning thinkEnabled t.hasTools text)
    (hshows : Shows text n rawLen final) (hsound : Sound st)
    (h : Told thinkEnabled t.hasTools text st out) :
    Stage thinkEnabled t.hasTools final text [.text, .thinking]
      (streamUpdate t st (text.take n) rawLen final).1
      (out ++ (streamUpdate t st (text.take n) rawLen final).2) := by
  rw [streamUpdate, if_neg (by simp [hsound.active])]
  have hstart : Stage thinkEnabled t.hasTools final text [] (st, ([] : List Action)).1
      (out ++ (st, ([] : List Action)).2) :=
    ⟨hsound, by rwa [List.append_nil], fun _ => nofun⟩
  have hthinking : ∀ st out, st.mode = .thinking →
      Stage thinkEnabled t.hasTools final text [] st out →
      Stage thinkEnabled t.hasTools final text [.thinking] (readThinking t st (text.take n) rawLen final).1
        (out ++ (readThinking t st (text.take n) rawLen final).2) := by
    intro st out hmode h
    unfold readThinking
    cases hcheck : st.checkThinkPrefix (text.take n) rawLen final with
    | none =>
      refine ⟨h.sound, by simpa using h.told, fun hfinal => ?_⟩
      exact absurd hcheck (hfinal ▸ checkThinkPrefix_final st _ _)
    | some st' =>
      obtain ⟨htold, hchecked, hmode'⟩ := told_checkThinkPrefix h0 hshows h.told hmode hcheck
      obtain ⟨-, htool, hactive, -⟩ := checkThinkPrefix_frame hcheck
      obtain ⟨htold', hlast⟩ := told_thinkingUpdate h0 hplain hshows htold hmode' hchecked
      exact ⟨sound_thinkingUpdate t.hasTools rawLen final
        ⟨hactive.trans h.sound.active, htool.symm ▸ h.sound.known⟩, htold',
        fun hfinal => by simpa using hlast hfinal⟩
  have htext : ∀ st out, st.mode = .text →
      Stage thinkEnabled t.hasTools final text [.thinking] st out →
      Stage thinkEnabled t.hasTools final text [.text, .thinking] (textUpdate t st (text.take n) rawLen final).1
        (out ++ (textUpdate t st (text.take n) rawLen final).2) := by
    intro st out hmode h
    obtain ⟨htold, hlast⟩ := told_textUpdate t h0 hshows h.told hmode
    refine ⟨sound_textUpdate t rawLen final h.sound, htold, fun hfinal => ?_⟩
    rcases hlast hfinal with h | h
    · simp [h]
    · simp [h]
  have hsecond := (hstart.andIn hthinking).andIn htext
  revert hsecond
  generalize andIn .text (textUpdate t · (text.take n) rawLen final)
    (andIn .thinking (readThinking t · (text.take n) rawLen final) (st, [])) = second
  intro hsecond
  unfold andIn
  split
  case isFalse => exact hsecond
  case isTrue hmode =>
    simp only
    rw [← List.append_assoc]
    refine ⟨sound_toolUpdate rawLen hsecond.sound, told_toolUpdate hsecond.sound hsecond.told hmode,
      fun _ => ?_⟩
    show (if _ then StreamMode.tool else .suppress) ∉ _
    split
    · simp
    · simp

/-! ## A whole reply -/

theorem told_start (thinkEnabled hasTools : Bool) (text : List UInt8) (h0 : 0 ∉ text) :
    Told thinkEnabled hasTools text (ReplyStream.start thinkEnabled hasTools) [] := by
  cases thinkEnabled with
  | true => exact .waiting rfl rfl (Bool.true_and _) rfl rfl (Says.nil _ _)
  | false =>
    exact told_content h0 rfl rfl rfl rfl (Nat.zero_le _) (Says.nil _ _)

/-- The text of an update is a part of the whole, and all but a few of its bytes may be sent. -/
theorem shows_of_split {front : List UInt8} {u : Update} {updates : List Update}
    (hspells : front ++ ((u :: updates).map Update.piece).flatten <+: text) (hheld : u.held ≤ heldBytes) :
    front ++ u.piece = text.take (front ++ u.piece).length ∧
      Shows text (front ++ u.piece).length ((front ++ u.piece).length - u.held) false ∧
      front ++ u.piece ++ (updates.map Update.piece).flatten <+: text := by
  rw [List.map_cons, List.flatten_cons, ← List.append_assoc] at hspells
  have hfront : front ++ u.piece <+: text := (List.prefix_append _ _).trans hspells
  exact ⟨List.prefix_iff_eq_take.mp hfront, ⟨hfront.length_le, Nat.sub_le _ _, by omega, nofun⟩, hspells⟩

/-- Every update of a reply keeps to what the whole reply says. -/
theorem told_grow (t : Translator) (h0 : 0 ∉ text) (hplain : PlainReasoning thinkEnabled t.hasTools text)
    (updates : List Update) (front : List UInt8) (hsound : Sound st)
    (h : Told thinkEnabled t.hasTools text st out)
    (hspells : front ++ (updates.map Update.piece).flatten <+: text)
    (hheld : ∀ u ∈ updates, u.held ≤ heldBytes) :
    Sound (grow (fun st raw rawLen => streamUpdate t st raw rawLen false) front updates st).1 ∧
      Told thinkEnabled t.hasTools text
        (grow (fun st raw rawLen => streamUpdate t st raw rawLen false) front updates st).1
        (out ++ (grow (fun st raw rawLen => streamUpdate t st raw rawLen false) front updates st).2) := by
  induction updates generalizing front st out with
  | nil =>
    rw [grow, List.append_nil]
    exact ⟨hsound, h⟩
  | cons u updates ih =>
    obtain ⟨htake, hshows, hrest⟩ := shows_of_split hspells (hheld u List.mem_cons_self)
    have hstep := told_streamUpdate t h0 hplain hshows hsound h
    rw [← htake] at hstep
    have hlast := ih (front ++ u.piece) hstep.sound hstep.told hrest
      fun v hv => hheld v (List.mem_cons_of_mem _ hv)
    rw [grow]
    simp only
    rw [← List.append_assoc]
    exact hlast

theorem says_replyActions (t : Translator) (h0 : 0 ∉ text)
    (hplain : PlainReasoning thinkEnabled t.hasTools text) {updates : List Update} (hsplits : Splits text updates) :
    Says (answerStart thinkEnabled t.hasTools text) (replyActions t thinkEnabled text updates)
      (replyReasoning thinkEnabled t.hasTools text) (replyContent thinkEnabled t.hasTools text)
      (saidEnd thinkEnabled t.hasTools text) := by
  obtain ⟨hsound, htold⟩ := told_grow t h0 hplain updates [] (sound_start thinkEnabled t.hasTools)
    (told_start thinkEnabled t.hasTools text h0) hsplits.spells hsplits.held
  have hshows : Shows text text.length text.length true := ⟨le_refl _, le_refl _, by omega, fun _ => rfl⟩
  have hlast := told_streamUpdate t h0 hplain hshows hsound htold
  rw [hshows.take, List.nil_append] at hlast
  have hthrough := hlast.through rfl
  cases hlast.told with
  | waiting _ hmode => simp [hmode] at hthrough
  | reasoning _ hmode => simp [hmode] at hthrough
  | guarded _ _ _ hmode => simp [hmode] at hthrough
  | content _ hmode => simp [hmode] at hthrough
  | past _ hsaid => exact hsaid

/-! ## In the words of each protocol -/

theorem said_openaiDelta (channel : Channel) (actions : List Action) :
    saidBy (OpenAiDelta.said channel) (actions.filterMap openaiDelta) =
      saidBy (Action.said channel) actions := by
  induction actions with
  | nil => rfl
  | cons action actions ih =>
    have hone : ∀ action : Action, saidBy (OpenAiDelta.said channel) ([action].filterMap openaiDelta) =
        action.said channel := by
      intro action
      cases action with
      | delta sent pos text =>
        cases text with
        | nil => cases sent <;> cases channel <;> rfl
        | cons b text => cases sent <;> cases channel <;> simp [openaiDelta, saidBy, OpenAiDelta.said, Action.said]
      | toolArgs index fragment reach =>
        cases fragment with
        | nil => rfl
        | cons b fragment => rfl
      | _ => rfl
    have hsplit : (action :: actions).filterMap openaiDelta =
        [action].filterMap openaiDelta ++ actions.filterMap openaiDelta := by
      rw [← List.filterMap_append, List.singleton_append]
    rw [hsplit, saidBy_append, hone, ih]
    rfl

theorem grow_openai (hasTools : Bool) (updates : List Update) (front : List UInt8) (st : ReplyStream) :
    grow (fun st raw rawLen => openaiSseStreamUpdate hasTools st raw rawLen false) front updates st =
      ((grow (fun st raw rawLen => streamUpdate (openaiTranslator hasTools) st raw rawLen false)
          front updates st).1,
        (grow (fun st raw rawLen => streamUpdate (openaiTranslator hasTools) st raw rawLen false)
          front updates st).2.filterMap openaiDelta) := by
  induction updates generalizing front st with
  | nil => rfl
  | cons u updates ih =>
    rw [grow, grow]
    simp only [ih]
    simp only [openaiSseStreamUpdate, List.filterMap_append]

theorem said_openaiReply (thinkEnabled hasTools : Bool) (text : List UInt8) (updates : List Update)
    (channel : Channel) :
    saidBy (OpenAiDelta.said channel) (openaiReply thinkEnabled hasTools text updates) =
      saidBy (Action.said channel) (replyActions (openaiTranslator hasTools) thinkEnabled text updates) := by
  rw [openaiReply, grow_openai]
  simp only [openaiSseStreamUpdate, ← List.filterMap_append]
  exact said_openaiDelta channel _

/-- One update of an Anthropic stream, by its actions. -/
theorem anthropicStep_tells (hasTools final : Bool) (blocks : AnthropicBlocks) (raw : List UInt8) (rawLen : Nat)
    (hfits : Fits st blocks.openBlock) :
    ∃ after, Tells blocks (streamUpdate (anthropicTranslator hasTools) st raw rawLen final).2 after ∧
      Fits (streamUpdate (anthropicTranslator hasTools) st raw rawLen final).1 after.openBlock ∧
      anthropicStep hasTools final (st, some blocks) raw rawLen =
        (((streamUpdate (anthropicTranslator hasTools) st raw rawLen final).1, some after),
          (anthropicActions blocks (streamUpdate (anthropicTranslator hasTools) st raw rawLen final).2).1) := by
  obtain ⟨after, htells, hfits'⟩ :=
    (streamUpdate_tells (anthropicTranslator hasTools) raw rawLen final blocks.nextIndex hfits).told
  refine ⟨after, htells, hfits', ?_⟩
  simp only [anthropicStep, anthropicSseStreamUpdate, htells.opened]

/-- The updates of an Anthropic stream, by their actions. -/
theorem grow_anthropic (hasTools : Bool) (updates : List Update) (front : List UInt8)
    (blocks : AnthropicBlocks) (hfits : Fits st blocks.openBlock) :
    ∃ after, Fits (grow (fun st raw rawLen => streamUpdate (anthropicTranslator hasTools) st raw rawLen false)
        front updates st).1 after.openBlock ∧
      (grow (anthropicStep hasTools false) front updates (st, some blocks)).1 =
        ((grow (fun st raw rawLen => streamUpdate (anthropicTranslator hasTools) st raw rawLen false)
          front updates st).1, some after) ∧
      Tells blocks (grow (fun st raw rawLen => streamUpdate (anthropicTranslator hasTools) st raw rawLen false)
          front updates st).2 after ∧
      (grow (anthropicStep hasTools false) front updates (st, some blocks)).2 =
        (anthropicActions blocks
          (grow (fun st raw rawLen => streamUpdate (anthropicTranslator hasTools) st raw rawLen false)
            front updates st).2).1 := by
  induction updates generalizing front st blocks with
  | nil => exact ⟨blocks, hfits, rfl, Tells.nil blocks, rfl⟩
  | cons u updates ih =>
    obtain ⟨middle, htells, hfits', hstep⟩ := anthropicStep_tells hasTools false blocks (front ++ u.piece)
      ((front ++ u.piece).length - u.held) hfits
    obtain ⟨after, hlast, hstate, htells', hevents⟩ := ih (front ++ u.piece) middle hfits'
    refine ⟨after, hlast, ?_, htells.append htells', ?_⟩
    · rw [grow]
      simp only [hstep]
      exact hstate
    · rw [grow]
      simp only [hstep, hevents]
      rw [grow, anthropicActions_append, Sent.andThen, htells.opened]

theorem fits_start (thinkEnabled hasTools : Bool) : Fits (ReplyStream.start thinkEnabled hasTools) none := by
  cases thinkEnabled with
  | true => exact ⟨.inl rfl, rfl⟩
  | false => exact ⟨.inl rfl, rfl⟩

theorem said_anthropicReply (thinkEnabled hasTools : Bool) (text : List UInt8) (updates : List Update)
    (channel : Channel) :
    saidBy (AnthropicEvent.said channel) (anthropicReply thinkEnabled hasTools text updates) =
      saidBy (Action.said channel) (replyActions (anthropicTranslator hasTools) thinkEnabled text updates) := by
  obtain ⟨middle, hfits, hstate, htells, hevents⟩ :=
    grow_anthropic hasTools updates [] ⟨none, 0⟩ (fits_start thinkEnabled hasTools)
  obtain ⟨after, htells', -, hstep⟩ := anthropicStep_tells hasTools true middle text text.length hfits
  rw [anthropicReply, anthropicStart]
  simp only [hstate, hevents, hstep]
  rw [saidBy_append, htells.same, htells'.same, replyActions, saidBy_append]
  rfl

/-! ## Markers in the reasoning -/

/-- Nothing of a tool block is said: the white space in front of the marker is not content. -/
theorem hidden_of_says {marker : Nat} (hplain : PlainReasoning thinkEnabled hasTools text)
    (hmarker : openingMarker thinkEnabled hasTools text = some marker)
    (hsaid : Says (answerStart thinkEnabled hasTools text) out r ct (saidEnd thinkEnabled hasTools text)) :
    ∀ action ∈ out, Hidden text marker action := by
  obtain ⟨start, hanswer, hfind⟩ : ∃ start, answerStart thinkEnabled hasTools text = some start ∧
      findTool hasTools text start = some marker := by
    cases hthink : thinkEnabled with
    | false =>
      subst hthink
      exact ⟨0, rfl, hmarker⟩
    | true =>
      subst hthink
      simp only [openingMarker, if_true] at hmarker
      simp only [answerStart, if_true]
      cases hend : thinkEnd hasTools text (reasoningStart text) with
      | tool tool => exact absurd hend (hplain rfl tool)
      | close close =>
        rw [hend] at hmarker
        exact ⟨_, rfl, hmarker⟩
      | none =>
        rw [hend] at hmarker
        cases hmarker
  have hsaidEnd : saidEnd thinkEnabled hasTools text = trimToolSeparatorWs text start marker := by
    rw [saidEnd, hanswer]
    show contentEnd hasTools text start = _
    rw [contentEnd, hfind]
  obtain ⟨htrim, -, -, hlast⟩ := trimToolSeparatorWs_spec text start marker
  intro action haction
  cases action with
  | delta channel pos said =>
    have hwithin : pos + said.length ≤ trimToolSeparatorWs text start marker := by
      rw [← hsaidEnd]
      exact hsaid.within _ haction
    refine ⟨hwithin.trans htrim, fun hcontent i hi hlt => ?_⟩
    subst hcontent
    obtain ⟨a, ha, hpos⟩ := hsaid.inAnswer _ haction
    obtain rfl := Option.some.inj (hanswer.symm.trans ha)
    exact ⟨trimToolSeparatorWs text start marker - 1, by omega, by omega, hlast (by omega)⟩
  | _ => trivial

/-- Without a marker in the reasoning the pieces make no difference. -/
theorem splitBlind_of_plain (h0 : 0 ∉ text) (hplain : PlainReasoning thinkEnabled hasTools text) :
    SplitBlind thinkEnabled hasTools text where
  openai := by
    intro u v hu hv channel
    rw [said_openaiReply, said_openaiReply]
    have hleft := says_replyActions (openaiTranslator hasTools) h0 hplain hu
    have hright := says_replyActions (openaiTranslator hasTools) h0 hplain hv
    cases channel with
    | reasoning => rw [hleft.reasoning_eq, hright.reasoning_eq]
    | content => rw [hleft.content_eq, hright.content_eq]
  anthropic := by
    intro u v hu hv channel
    rw [said_anthropicReply, said_anthropicReply]
    have hleft := says_replyActions (anthropicTranslator hasTools) h0 hplain hu
    have hright := says_replyActions (anthropicTranslator hasTools) h0 hplain hv
    cases channel with
    | reasoning => rw [hleft.reasoning_eq, hright.reasoning_eq]
    | content => rw [hleft.content_eq, hright.content_eq]
  hidden := by
    intro t ht u hu marker hmarker
    have htools : t.hasTools = hasTools := by
      simp only [List.mem_cons, List.not_mem_nil, or_false] at ht
      rcases ht with rfl | rfl
      · rfl
      · rfl
    subst htools
    exact hidden_of_says hplain hmarker (says_replyActions t h0 hplain hu)

/-- The bytes of a delta that is sent alone. -/
theorem said_send_reasoning (st : ReplyStream) (raw : List UInt8) (limit : Nat) :
    saidBy (Action.said .reasoning) (st.send .reasoning raw limit).2 = slice raw st.emitPos limit := by
  unfold ReplyStream.send
  split
  case isTrue => simp [saidBy, Action.said, slice]
  case isFalse hge =>
    rw [slice, Nat.sub_eq_zero_of_le (not_lt.mp hge), List.take_zero]
    rfl

theorem saidBy_closeBlock (channel : Channel) (actions : List Action) :
    saidBy (Action.said channel) (actions ++ [.closeBlock]) = saidBy (Action.said channel) actions := by
  rw [saidBy_append]
  exact List.append_nil _

/-- An update that leaves reasoning neither for content nor for a tool block is its first part alone. -/
theorem streamUpdate_thinking {t : Translator} {raw : List UInt8} {st st' : ReplyStream}
    (hactive : st.active = true) (hmode : st.mode = .thinking)
    (hcheck : st.checkThinkPrefix raw rawLen final = some st')
    (hlast : (thinkingUpdate t.hasTools st' raw rawLen final).1.mode = .thinking ∨
      (thinkingUpdate t.hasTools st' raw rawLen final).1.mode = .suppress) :
    streamUpdate t st raw rawLen final = thinkingUpdate t.hasTools st' raw rawLen final := by
  have hread : andIn .thinking (readThinking t · raw rawLen final) (st, []) =
      thinkingUpdate t.hasTools st' raw rawLen final := by
    rw [andIn, if_pos hmode, readThinking, hcheck]
    rfl
  rw [streamUpdate, if_neg (by simp [hactive]), hread]
  have hskip : ∀ {mode : StreamMode} {part : ReplyStream → ReplyStream × List Action},
      mode = .text ∨ mode = .tool → andIn mode part (thinkingUpdate t.hasTools st' raw rawLen final) =
        thinkingUpdate t.hasTools st' raw rawLen final := by
    intro mode part hmode
    rw [andIn, if_neg]
    rcases hmode with rfl | rfl
    · rcases hlast with h | h
      · simp [h]
      · simp [h]
    · rcases hlast with h | h
      · simp [h]
      · simp [h]
  rw [hskip (.inl rfl), hskip (.inr rfl)]

/-- A reply that comes as a whole: the marker and what follows it are kept. -/
theorem whole_before_marker {tool : Nat} (htool : thinkEnd hasTools text (reasoningStart text) = .tool tool) :
    (saidBy (OpenAiDelta.said .reasoning) (openaiReply true hasTools text [])).length ≤
      tool - reasoningStart text := by
  have hshows : Shows text text.length text.length true := ⟨le_refl _, le_refl _, by omega, fun _ => rfl⟩
  rw [said_openaiReply, replyActions, grow]
  show (saidBy _ ([] ++ (streamUpdate _ (ReplyStream.start true hasTools) text text.length true).2)).length ≤ _
  rw [List.nil_append]
  cases hcheck : (ReplyStream.start true hasTools).checkThinkPrefix text text.length true with
  | none => exact absurd hcheck (checkThinkPrefix_final _ _ _)
  | some st' =>
    have hst := checkThinkPrefix_eq hshows rfl rfl (by rw [hshows.take]; exact hcheck)
    have hpos : st'.emitPos = reasoningStart text := by rw [hst]
    have hmode : st'.mode = .thinking := by rw [hst]; rfl
    have hend : thinkEnd hasTools text st'.emitPos = .tool tool := by rw [hpos, htool]
    have htrim := (trimToolSeparatorWs_spec text st'.emitPos tool).1
    have hsend := said_send_reasoning st' text (trimToolSeparatorWs text st'.emitPos tool)
    have hlength := length_slice text st'.emitPos (trimToolSeparatorWs text st'.emitPos tool)
    have hupdate : (thinkingUpdate hasTools st' text text.length true).1.mode = .thinking ∨
        (thinkingUpdate hasTools st' text text.length true).1.mode = .suppress := by
      simp only [thinkingUpdate, hend]
      split
      · exact .inr rfl
      · exact .inl ((send_frame st' _ _ _).2.1.trans hmode)
    rw [streamUpdate_thinking rfl rfl hcheck hupdate]
    simp only [openaiTranslator, thinkingUpdate, hend]
    split
    · rw [saidBy_closeBlock, hsend]
      omega
    · rw [hsend]
      omega

/-- The pieces that show the marker up to eight bytes behind its start. -/
def brokenOff (text : List UInt8) (tool : Nat) : List Update := [⟨text.take (tool + 8), 0⟩]

/-- A reply that breaks off inside the marker: its first byte is sent. -/
theorem broken_behind_marker {tool : Nat} (h0 : 0 ∉ text)
    (htool : thinkEnd hasTools text (reasoningStart text) = .tool tool) :
    Splits text (brokenOff text tool) ∧
      tool + 1 - reasoningStart text ≤
        (saidBy (OpenAiDelta.said .reasoning)
          (openaiReply true hasTools text (brokenOff text tool))).length := by
  have hspec := thinkEnd_spec hasTools h0 (reasoningStart text)
  rw [htool] at hspec
  have hge : reasoningStart text ≤ tool := thinkEnd_ge h0 (by rw [htool]; rfl)
  obtain ⟨-, word, hword, hat⟩ := hspec.tool tool rfl
  have hfits := hat.le (distinct_toolStarts.ne_nil hword)
  have hlong := (toolStarts_length word hword).1
  rw [length_thinkClose] at hlong
  have hangle := distinct_toolStarts.letter hword hat
  have hshows : Shows text (tool + 8) (tool + 8) false := ⟨by omega, le_refl _, by omega, nofun⟩
  have htake : (text.take (tool + 8)).length = tool + 8 := by
    rw [List.length_take, min_eq_left (by omega)]
  refine ⟨⟨?_, by simp [brokenOff]⟩, ?_⟩
  · simpa [brokenOff] using List.take_prefix (tool + 8) text
  -- the part of the reply has neither the whole marker nor anything else that ends reasoning
  have hnone : thinkEnd hasTools (text.take (tool + 8)) (reasoningStart text) = .none := by
    cases hfound : thinkEnd hasTools (text.take (tool + 8)) (reasoningStart text) with
    | none => rfl
    | close close => exact absurd (htool.symm.trans (thinkEnd_take h0 hfound nofun)) nofun
    | tool tool' =>
      obtain rfl := ThinkEnd.tool.inj (htool.symm.trans (thinkEnd_take h0 hfound nofun))
      have hspec' := (thinkEnd_spec hasTools (not_mem_take h0 (tool + 8)) (reasoningStart text)).tool tool hfound
      obtain ⟨-, word', hword', hat'⟩ := hspec'
      have hfits' := ((occurs_take (distinct_toolStarts.ne_nil hword')).mp hat').2
      have hlong' := (toolStarts_length word' hword').1
      rw [length_thinkClose] at hlong'
      omega
  cases hcheck : (ReplyStream.start true hasTools).checkThinkPrefix (text.take (tool + 8)) (tool + 8) false with
  | none =>
    have hshort : ¬ tool + 8 < thinkOpen.length := by
      rw [show thinkOpen.length = 7 by decide]
      omega
    rw [ReplyStream.checkThinkPrefix, if_neg (by simp [ReplyStream.start]), if_neg (fun h => hshort h.1)]
      at hcheck
    cases hcheck
  | some st' =>
    have hst := checkThinkPrefix_eq hshows rfl rfl hcheck
    have hpos : st'.emitPos = reasoningStart text := by rw [hst]
    have hmode : st'.mode = .thinking := by rw [hst]; rfl
    have hsafe : utf8StreamSafeLen (text.take (tool + 8)) st'.emitPos (tool + 1) false = tool + 1 := by
      obtain ⟨hle, -, hall⟩ := utf8StreamSafeLen_spec (text.take (tool + 8)) st'.emitPos (tool + 1) false
      by_contra hne
      have hbyte := hall tool (by omega) (by omega)
      rw [List.getD_eq_getElem?_getD, List.getElem?_take_of_lt (by omega), hangle] at hbyte
      exact absurd hbyte (by decide)
    have hupdate : thinkingUpdate hasTools st' (text.take (tool + 8)) (tool + 8) false =
        st'.send .reasoning (text.take (tool + 8)) (tool + 1) := by
      rw [← hpos] at hnone
      simp only [thinkingUpdate, hnone, length_thinkClose, Bool.false_eq_true, if_false]
      rw [if_pos (by omega), show tool + 8 - (8 - 1) = tool + 1 by omega, hsafe]
    have hfirst : streamUpdate (openaiTranslator hasTools) (ReplyStream.start true hasTools)
        (text.take (tool + 8)) (tool + 8) false = st'.send .reasoning (text.take (tool + 8)) (tool + 1) := by
      rw [streamUpdate_thinking rfl rfl hcheck, openaiTranslator, hupdate]
      left
      rw [openaiTranslator, hupdate]
      exact (send_frame st' _ _ _).2.1.trans hmode
    have hlength : (slice (text.take (tool + 8)) st'.emitPos (tool + 1)).length =
        tool + 1 - reasoningStart text := by
      rw [slice, List.length_take, List.length_drop, htake, hpos]
      omega
    rw [said_openaiReply, replyActions, brokenOff, grow]
    simp only [List.nil_append, htake, Nat.sub_zero, saidBy_append]
    rw [show (openaiTranslator hasTools).hasTools = hasTools from rfl, hfirst, said_send_reasoning]
    simp only [List.length_append, hlength]
    omega

/-- With a marker in the reasoning, the pieces decide whether it is sent. -/
theorem plain_of_splitBlind (h0 : 0 ∉ text) (h : SplitBlind thinkEnabled hasTools text) :
    PlainReasoning thinkEnabled hasTools text := by
  rintro rfl tool htool
  obtain ⟨hsplits, hbroken⟩ := broken_behind_marker h0 htool
  have hwhole := whole_before_marker htool
  have hge : reasoningStart text ≤ tool := thinkEnd_ge h0 (by rw [htool]; rfl)
  have hsame := h.openai [] (brokenOff text tool) ⟨List.nil_prefix, nofun⟩ hsplits .reasoning
  rw [hsame] at hwhole
  omega

/-- The pieces of a reply make no difference, and nothing of its tool block is said, if and only if no
tool marker stands in its reasoning. -/
theorem split_blind_iff (thinkEnabled hasTools : Bool) (text : List UInt8) (h0 : 0 ∉ text) :
    SplitBlind thinkEnabled hasTools text ↔ PlainReasoning thinkEnabled hasTools text :=
  ⟨plain_of_splitBlind h0, splitBlind_of_plain h0⟩

/-- Reasoning, a call behind it, and an answer. -/
def sampleReply : List UInt8 := bytes "a</think> b\n\n<tool_calls></tool_calls>"

theorem split_blind_iff_sample : 0 ∉ sampleReply ∧
    (SplitBlind true true sampleReply ↔ PlainReasoning true true sampleReply) :=
  ⟨by decide, split_blind_iff true true sampleReply (by decide)⟩

/-- A call in the reasoning. -/
def quotedCall : List UInt8 := bytes "a<tool_calls></tool_calls>"

theorem call_in_reasoning_not_blind : 0 ∉ quotedCall ∧ ¬ SplitBlind true true quotedCall :=
  ⟨by decide, fun h => plain_of_splitBlind (by decide) h rfl 1 (by decide)⟩

end Spark.Server
