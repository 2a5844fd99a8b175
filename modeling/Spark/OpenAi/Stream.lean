import Mathlib.Algebra.GroupWithZero.Nat
import Spark.OpenAi.Wire

/-!
# Streamed and whole completions

The two stream producers of `common/openai.rs`, the handlers that do not stream, and the incremental
decoder of `qwen_tokenizer.rs`. A producer decodes the tokens so far at every token, holds back the
replacement characters at the end, sends what is new, and sends the rest when the backend is done.

* **`feed_spec`** — what the backend's tokens leave behind: the deltas sent, and why it stopped.
* **`streamed_equals_whole`** — a stream sends the text of the whole completion, or says why not.
-/

namespace Spark.OpenAi

def replacement : Char := Char.ofNat 0xfffd

/-- `trim_end_matches('\u{fffd}')`. -/
def stablePart (text : Text) : Text := text.rdropWhile (· == replacement)

/-- `len()` of a string, in bytes. -/
def utf8Len (text : Text) : Nat := (text.map Char.utf8Size).sum

/-- `&text[bytes..]`; `none` where the slice would panic. -/
def dropBytes : Nat → Text → Option Text
  | 0, text => some text
  | _ + 1, [] => none
  | bytes + 1, c :: rest =>
    if c.utf8Size ≤ bytes + 1 then dropBytes (bytes + 1 - c.utf8Size) rest else none

def notMonotonic : Text := "streaming tokenizer decode was not prefix-monotonic".toList

def disconnected : Text := "client disconnected".toList

/-! ## The incremental decoder -/

/-- A token decoder: `decode(ids, true)`, with the text of its error. -/
abbrev Decoder := List Nat → Except Text Text

structure IncrementalDecoder where
  ids : List Nat := []
  emitted : Text := []

inductive PushError where
  | decode (message : Text)
  | nonMonotonicDecode
  deriving DecidableEq

/-- What both methods do with a text to show: answer what comes after the emitted part. The slice behind
a successful `starts_with` drops that part. -/
def IncrementalDecoder.advance (decoder : IncrementalDecoder) (shown : Text) :
    Except PushError Text × IncrementalDecoder :=
  if decoder.emitted.isPrefixOf shown then
    (.ok (shown.drop decoder.emitted.length), { decoder with emitted := shown })
  else (.error .nonMonotonicDecode, decoder)

def IncrementalDecoder.push (decode : Decoder) (decoder : IncrementalDecoder) (token : Nat) :
    Except PushError Text × IncrementalDecoder :=
  let decoder := { decoder with ids := decoder.ids ++ [token] }
  match decode decoder.ids with
  | .error message => (.error (.decode message), decoder)
  | .ok decoded => decoder.advance (stablePart decoded)

def IncrementalDecoder.finish (decode : Decoder) (decoder : IncrementalDecoder) :
    Except PushError Text × IncrementalDecoder :=
  match decode decoder.ids with
  | .error message => (.error (.decode message), decoder)
  | .ok decoded => decoder.advance decoded

/-! ## The backend -/

/-- What a backend does when nothing stops it: the tokens it emits, and how it ends. -/
structure BackendRun where
  tokens : List Nat
  result : Except Text FinishReason

/-- `backend.generate`: a failed `emit` stops it and is what it answers. -/
def generate {σ : Type} (emit : σ → Nat → Except Text Unit × σ) (result : Except Text FinishReason) :
    List Nat → σ → Except Text FinishReason × σ
  | [], s => (result, s)
  | token :: rest, s =>
    match emit s token with
    | (.error e, s) => (.error e, s)
    | (.ok (), s) => generate emit result rest s

/-! ## Completions that are not streamed -/

structure Completion where
  content : Text
  finishReason : FinishReason
  completionTokens : Nat

/-- The generation of both handlers. -/
def complete (decode : Decoder) (run : BackendRun) : Except Text Completion :=
  match generate (fun ids token => (.ok (), ids ++ [token])) run.result run.tokens ([] : List Nat) with
  | (.error e, _) => .error e
  | (.ok finishReason, ids) =>
    match decode ids with
    | .error e => .error e
    | .ok content => .ok { content, finishReason, completionTokens := ids.length }

/-- `respond_non_streaming`: the status and the body. -/
def respondNonStreaming (decode : Decoder) (run : BackendRun) (prepared : PreparedCompletion) : Nat × Json :=
  match complete decode run with
  | .error e => (500, errorValue e)
  | .ok c => (200, completionValue prepared c.finishReason c.content c.completionTokens)

/-- `respond_response_non_streaming`. -/
def respondResponseNonStreaming (decode : Decoder) (run : BackendRun) (prepared : PreparedResponse)
    (now : Nat) : Nat × Json :=
  match complete decode run with
  | .error e => (500, errorValue e)
  | .ok c =>
    (200, responseValue prepared now c.finishReason c.content prepared.promptTokenIds.length
      c.completionTokens)

/-! ## The callback of the producers -/

structure StreamState where
  ids : List Nat := []
  emitted : Text := []
  sequence : Nat := 0
  box : Outbox

/-- The callback both producers hand to `generate`; they differ in the frame a delta is sent in, which
the chat producer does not number. -/
def emitToken (decode : Decoder) (frame : Nat → Text → Frame) (s : StreamState) (token : Nat) :
    Except Text Unit × StreamState :=
  let s := { s with ids := s.ids ++ [token] }
  match decode s.ids with
  | .error e => (.error e, s)
  | .ok decoded =>
    let stable := stablePart decoded
    if s.emitted.isPrefixOf stable then
      let delta := stable.drop s.emitted.length
      if delta.isEmpty then (.ok (), { s with emitted := stable })
      else
        match s.box.send (frame s.sequence delta) with
        | none => (.error disconnected, s)
        | some box => (.ok (), { s with emitted := stable, sequence := s.sequence + 1, box })
    else (.error notMonotonic, s)

/-- How a producer ends: the channel as it leaves it, and whether it panicked. -/
structure Ending where
  box : Outbox
  panicked : Bool := false

/-! ## The chat producer -/

def produceStream (decode : Decoder) (run : BackendRun) (prepared : PreparedCompletion)
    (includeUsage : Bool) (box : Outbox) : Ending :=
  match box.send (openingChunk prepared) with
  | none => { box }
  | some box =>
    match generate (emitToken decode fun _ delta => chunk prepared delta) run.result run.tokens { box } with
    | (.error e, s) => { box := (s.box.post (errorFrame e)).post .done }
    | (.ok finishReason, s) =>
      match decode s.ids with
      | .error e => { box := (s.box.post (errorFrame e)).post .done }
      | .ok decoded =>
        match dropBytes (utf8Len s.emitted) decoded with
        | none => { box := s.box, panicked := true }
        | some finalDelta =>
          match (if finalDelta.isEmpty then some s.box else s.box.send (chunk prepared finalDelta)) with
          | none => { box := s.box }
          | some box =>
            let usageValue :=
              if includeUsage then some (usage prepared.promptTokenIds.length s.ids.length) else none
            match box.send (finishChunk prepared finishReason usageValue) with
            | none => { box }
            | some box => { box := box.post .done }

/-! ## The responses producer -/

/-- The frame of one event: its name is also its `type`. -/
def responseEvent (name : String) (sequence : Nat) (fields : List (String × Json)) : Frame :=
  .event name (.obj ([("type", .ofString name), ("sequence_number", .num sequence)] ++ fields))

def createdEvent (prepared : PreparedResponse) (sequence : Nat) : Frame :=
  responseEvent "response.created" sequence
    [("response", responseEnvelope prepared "in_progress" none .null (.arr []) .null)]

def inProgressEvent (prepared : PreparedResponse) (sequence : Nat) : Frame :=
  responseEvent "response.in_progress" sequence
    [("response", responseEnvelope prepared "in_progress" none .null (.arr []) .null)]

def itemAddedEvent (prepared : PreparedResponse) (sequence : Nat) : Frame :=
  responseEvent "response.output_item.added" sequence
    [("output_index", .num 0), ("item", responseMessageItem prepared "in_progress" [])]

def partAddedEvent (prepared : PreparedResponse) (sequence : Nat) : Frame :=
  responseEvent "response.content_part.added" sequence
    [("item_id", .str prepared.messageId), ("output_index", .num 0), ("content_index", .num 0),
      ("part", .obj [("type", .ofString "output_text"), ("text", .str []), ("annotations", .arr [])])]

def deltaEvent (prepared : PreparedResponse) (sequence : Nat) (delta : Text) : Frame :=
  responseEvent "response.output_text.delta" sequence
    [("item_id", .str prepared.messageId), ("output_index", .num 0), ("content_index", .num 0),
      ("delta", .str delta), ("logprobs", .arr [])]

/-- The failure of the backend or of a decode on the way. -/
def failedEvent (prepared : PreparedResponse) (now sequence : Nat) (message : Text) : Frame :=
  responseEvent "response.failed" sequence
    [("response", responseEnvelope prepared "failed" (some now) .null (.arr []) .null),
      ("error", apiErrorValue message "server_error" none)]

/-- The failure of the last decode, which carries no envelope. -/
def decodeFailedEvent (sequence : Nat) (message : Text) : Frame :=
  responseEvent "response.failed" sequence [("error", apiErrorValue message "server_error" none)]

def textDoneEvent (prepared : PreparedResponse) (text : Text) (sequence : Nat) : Frame :=
  responseEvent "response.output_text.done" sequence
    [("item_id", .str prepared.messageId), ("output_index", .num 0), ("content_index", .num 0),
      ("text", .str text), ("logprobs", .arr [])]

def partDoneEvent (prepared : PreparedResponse) (text : Text) (sequence : Nat) : Frame :=
  responseEvent "response.content_part.done" sequence
    [("item_id", .str prepared.messageId), ("output_index", .num 0), ("content_index", .num 0),
      ("part", outputText text)]

def itemDoneEvent (prepared : PreparedResponse) (status : String) (text : Text) (sequence : Nat) : Frame :=
  responseEvent "response.output_item.done" sequence
    [("output_index", .num 0), ("item", responseMessageItem prepared status text)]

def completedEvent (value : Json) (sequence : Nat) : Frame :=
  responseEvent "response.completed" sequence [("response", value)]

/-- Events sent one after the other, numbered from `sequence`, until one is not taken; whether all
were. -/
def sendEvents : List (Nat → Frame) → Nat → Outbox → Outbox × Bool
  | [], _, box => (box, true)
  | event :: rest, sequence, box =>
    match box.send (event sequence) with
    | none => (box, false)
    | some box => sendEvents rest (sequence + 1) box

def prologue (prepared : PreparedResponse) : List (Nat → Frame) :=
  [createdEvent prepared, inProgressEvent prepared, itemAddedEvent prepared, partAddedEvent prepared]

def epilogue (prepared : PreparedResponse) (now : Nat) (finishReason : FinishReason) (decoded : Text)
    (completionTokens : Nat) : List (Nat → Frame) :=
  [textDoneEvent prepared decoded, partDoneEvent prepared decoded,
    itemDoneEvent prepared (responseStatus finishReason) decoded,
    completedEvent (responseValue prepared now finishReason decoded prepared.promptTokenIds.length
      completionTokens)]

/-- `produce_response_stream`; `now` is what `unix_seconds` answers at its end. -/
def produceResponseStream (decode : Decoder) (run : BackendRun) (prepared : PreparedResponse) (now : Nat)
    (box : Outbox) : Ending :=
  match sendEvents (prologue prepared) 0 box with
  | (box, false) => { box }
  | (box, true) =>
    let sequence := (prologue prepared).length
    match generate (emitToken decode (deltaEvent prepared)) run.result run.tokens { sequence, box } with
    | (.error e, s) => { box := s.box.post (failedEvent prepared now s.sequence e) }
    | (.ok finishReason, s) =>
      match decode s.ids with
      | .error e => { box := s.box.post (decodeFailedEvent s.sequence e) }
      | .ok decoded =>
        match dropBytes (utf8Len s.emitted) decoded with
        | none => { box := s.box, panicked := true }
        | some finalDelta =>
          let flushed :=
            if finalDelta.isEmpty then some (s.box, s.sequence)
            else (s.box.send (deltaEvent prepared s.sequence finalDelta)).map (·, s.sequence + 1)
          match flushed with
          | none => { box := s.box }
          | some (box, sequence) =>
            { box := (sendEvents (epilogue prepared now finishReason decoded s.ids.length) sequence box).1 }

/-! ## Texts -/

theorem stablePart_prefix (text : Text) : stablePart text <+: text := List.rdropWhile_prefix _ _

/-- Slicing at the length of a prefix drops it. -/
theorem dropBytes_append (a b : Text) : dropBytes (utf8Len a) (a ++ b) = some b := by
  induction a with
  | nil => rw [show utf8Len [] = 0 from rfl, dropBytes, List.nil_append]
  | cons c rest ih =>
    have hpos := c.utf8Size_pos
    have hlen : utf8Len (c :: rest) = c.utf8Size + utf8Len rest := rfl
    obtain ⟨n, hn⟩ : ∃ n, utf8Len (c :: rest) = n + 1 := ⟨utf8Len (c :: rest) - 1, by omega⟩
    rw [hn, List.cons_append, dropBytes, if_pos (by omega), show n + 1 - c.utf8Size = utf8Len rest by omega]
    exact ih

theorem dropBytes_of_append {a text : Text} (h : a <+: text) :
    dropBytes (utf8Len a) text = some (text.drop a.length) := by
  obtain ⟨b, rfl⟩ := h
  rw [dropBytes_append, List.drop_left]

/-! ## What the tokens leave behind -/

/-- Frames numbered from `start`. -/
def numbered : List (Nat → Frame) → Nat → List Frame
  | [], _ => []
  | frame :: rest, start => frame start :: numbered rest (start + 1)

theorem numbered_append (a b : List (Nat → Frame)) :
    ∀ start, numbered (a ++ b) start = numbered a start ++ numbered b (start + a.length) := by
  induction a with
  | nil => exact fun start => rfl
  | cons frame rest ih =>
    intro start
    rw [List.cons_append, numbered, numbered, ih, List.length_cons, List.cons_append,
      show start + 1 + rest.length = start + (rest.length + 1) by omega]

theorem sendEvents_connected (events : List (Nat → Frame)) :
    ∀ {sequence : Nat} {box : Outbox}, box.room = none →
      sendEvents events sequence box = ({ box with frames := box.frames ++ numbered events sequence }, true) := by
  induction events with
  | nil =>
    intro sequence box _
    rw [sendEvents, numbered, List.append_nil]
  | cons event rest ih =>
    intro sequence box hroom
    have hrest := @ih (sequence + 1) { box with frames := box.frames ++ [event sequence] } hroom
    rw [sendEvents, Outbox.send_connected hroom]
    show sendEvents rest (sequence + 1) _ = _
    rw [hrest, numbered, List.append_assoc, List.singleton_append]

section Feed

variable (decode : Decoder) (frame : Nat → Text → Frame) (before : List Frame) (start : Nat)

def deltaFrames (deltas : List Text) : List Frame :=
  numbered (deltas.map fun delta sequence => frame sequence delta) start

/-- The deltas a state has sent, after the frames `before`. -/
structure Sent (deltas : List Text) (s : StreamState) : Prop where
  nonempty : ∀ delta ∈ deltas, delta ≠ []
  box : s.box = { frames := before ++ deltaFrames frame start deltas, room := none }
  sequence : s.sequence = start + deltas.length

/-- The state after the tokens `done`, none of which stopped it. -/
structure Fed (done : List Nat) (deltas : List Text) (s : StreamState) : Prop extends
    Sent frame before start deltas s where
  ids : s.ids = done
  emitted : s.emitted = deltas.flatten
  shown : done = [] ∧ s.emitted = [] ∨ ∃ text, decode done = .ok text ∧ s.emitted = stablePart text

/-- Why the callback stops at a token after `done`: the decode fails, or takes back what it showed. -/
def Stops (done : List Nat) (token : Nat) (message : Text) : Prop :=
  decode (done ++ [token]) = .error message ∨
    message = notMonotonic ∧ ∃ old new, decode done = .ok old ∧ decode (done ++ [token]) = .ok new ∧
      ¬ stablePart old <+: stablePart new

/-- Some token of a run stops the callback. -/
def Interrupts (done tokens : List Nat) (message : Text) : Prop :=
  ∃ fed token rest, tokens = fed ++ token :: rest ∧ Stops decode (done ++ fed) token message

variable {decode frame before start}

/-- What was sent is part of the text so far. -/
theorem Fed.prefix_decode {done : List Nat} {deltas : List Text} {s : StreamState}
    (h : Fed decode frame before start done deltas s) {text : Text} (htext : decode done = .ok text) :
    s.emitted <+: text := by
  rcases h.shown with ⟨-, hnil⟩ | ⟨text', htext', hshown⟩
  · rw [hnil]
    exact List.nil_prefix
  · rw [htext] at htext'
    cases htext'
    rw [hshown]
    exact stablePart_prefix text

theorem Sent.send {deltas : List Text} {s : StreamState} (h : Sent frame before start deltas s)
    {delta : Text} :
    s.box.send (frame s.sequence delta) =
      some { frames := before ++ deltaFrames frame start (deltas ++ [delta]), room := none } := by
  have hroom : s.box.room = none := by rw [h.box]
  have hframes : s.box.frames = before ++ deltaFrames frame start deltas := by rw [h.box]
  rw [Outbox.send_connected hroom, hframes, hroom, h.sequence]
  simp only [deltaFrames, List.map_append, numbered_append, List.length_map, List.append_assoc]
  rfl

theorem emitToken_spec {done : List Nat} {deltas : List Text} {s : StreamState}
    (h : Fed decode frame before start done deltas s) (token : Nat) :
    (∃ more s', emitToken decode frame s token = (.ok (), s') ∧
        Fed decode frame before start (done ++ [token]) (deltas ++ more) s') ∨
      ∃ message s', emitToken decode frame s token = (.error message, s') ∧
        Sent frame before start deltas s' ∧ Stops decode done token message := by
  have hids : s.ids ++ [token] = done ++ [token] := by rw [h.ids]
  have hsent : Sent frame before start deltas { s with ids := done ++ [token] } :=
    ⟨h.nonempty, h.box, h.sequence⟩
  unfold emitToken
  simp only [hids]
  cases hdecode : decode (done ++ [token]) with
  | error message => exact .inr ⟨message, _, rfl, hsent, .inl hdecode⟩
  | ok decoded =>
    simp only
    by_cases hprefix : s.emitted.isPrefixOf (stablePart decoded) = true
    · rw [if_pos hprefix]
      have hsplit := List.prefix_iff_eq_append.mp (List.isPrefixOf_iff_prefix.mp hprefix)
      by_cases hempty : ((stablePart decoded).drop s.emitted.length).isEmpty = true
      · -- Nothing new: what is shown now is what was shown before.
        rw [if_pos hempty]
        refine .inl ⟨[], _, rfl, ?_⟩
        rw [List.isEmpty_iff] at hempty
        rw [hempty, List.append_nil] at hsplit
        rw [List.append_nil]
        exact ⟨⟨h.nonempty, h.box, h.sequence⟩, rfl, hsplit.symm.trans h.emitted, .inr ⟨decoded, hdecode, rfl⟩⟩
      · rw [if_neg hempty, hsent.send]
        refine .inl ⟨[(stablePart decoded).drop s.emitted.length], _, rfl, ⟨⟨?_, rfl, ?_⟩, rfl, ?_, ?_⟩⟩
        · refine List.forall_mem_append.mpr ⟨h.nonempty, List.forall_mem_singleton.mpr ?_⟩
          intro hnil
          rw [hnil] at hempty
          exact hempty rfl
        · rw [List.length_append, List.length_singleton, ← Nat.add_assoc, ← h.sequence]
        · rw [List.flatten_append, ← h.emitted, List.flatten_singleton]
          exact hsplit.symm
        · exact .inr ⟨decoded, hdecode, rfl⟩
    · rw [if_neg hprefix]
      refine .inr ⟨notMonotonic, _, rfl, hsent, .inr ⟨rfl, ?_⟩⟩
      rw [List.isPrefixOf_iff_prefix] at hprefix
      rcases h.shown with ⟨-, hnil⟩ | ⟨old, hold, hshown⟩
      · rw [hnil] at hprefix
        exact absurd List.nil_prefix hprefix
      · rw [hshown] at hprefix
        exact ⟨old, decoded, hold, hdecode, hprefix⟩

/-- **What a backend run leaves.** All its tokens are fed, or one of them stops it; what was sent before
stays sent. -/
theorem feed_spec (result : Except Text FinishReason) (rest : List Nat) :
    ∀ {done : List Nat} {deltas : List Text} {s : StreamState},
      Fed decode frame before start done deltas s →
      (∃ deltas' s', generate (emitToken decode frame) result rest s = (result, s') ∧
          Fed decode frame before start (done ++ rest) deltas' s') ∨
        ∃ message deltas' s', generate (emitToken decode frame) result rest s = (.error message, s') ∧
          Sent frame before start deltas' s' ∧ Interrupts decode done rest message := by
  induction rest with
  | nil =>
    intro done deltas s h
    rw [List.append_nil]
    exact .inl ⟨deltas, s, rfl, h⟩
  | cons token rest ih =>
    intro done deltas s h
    rw [generate]
    rcases emitToken_spec h token with ⟨more, s', heq, hfed⟩ | ⟨message, s', heq, hsent, hstops⟩
    · rw [heq]
      show (∃ deltas' s'', generate (emitToken decode frame) result rest s' = _ ∧ _) ∨ _
      rcases ih hfed with ⟨deltas', s'', heq', hfed'⟩ | ⟨message, deltas', s'', heq', hsent, hstops⟩
      · rw [List.append_assoc, List.singleton_append] at hfed'
        exact .inl ⟨deltas', s'', heq', hfed'⟩
      · obtain ⟨fed, last, after, rfl, hlast⟩ := hstops
        rw [List.append_assoc, List.singleton_append] at hlast
        exact .inr ⟨message, deltas', s'', heq', hsent, token :: fed, last, after, rfl, hlast⟩
    · rw [heq]
      refine .inr ⟨message, deltas, s', rfl, hsent, [], token, rest, rfl, ?_⟩
      rw [List.append_nil]
      exact hstops

theorem fed_start (decode : Decoder) (frame : Nat → Text → Frame) (before : List Frame) (start : Nat) :
    Fed decode frame before start [] [] { sequence := start, box := { frames := before, room := none } } where
  nonempty := nofun
  box := by simp [deltaFrames, numbered]
  sequence := rfl
  ids := rfl
  emitted := rfl
  shown := .inl ⟨rfl, rfl⟩

end Feed

/-! ## Whole streams -/

/-- A chat stream: the opening chunk, the deltas, and what ends it. -/
def chatFrames (prepared : PreparedCompletion) (deltas : List Text) (tail : List Frame) : List Frame :=
  openingChunk prepared :: deltas.map (chunk prepared) ++ tail

def chatFinish (prepared : PreparedCompletion) (includeUsage : Bool) (finishReason : FinishReason)
    (completionTokens : Nat) : List Frame :=
  [finishChunk prepared finishReason
    (if includeUsage then some (usage prepared.promptTokenIds.length completionTokens) else none), .done]

/-- A stream of events, numbered from zero: the prologue, the deltas, and what ends it. -/
def responseFrames (prepared : PreparedResponse) (deltas : List Text) (tail : List (Nat → Frame)) : List Frame :=
  numbered (prologue prepared ++ (deltas.map fun delta sequence => deltaEvent prepared sequence delta) ++ tail) 0

/-- What a client that stayed has been sent by a producer that returned. -/
def Ending.delivered (frames : List Frame) : Ending := { box := { frames, room := none } }

/-- What the backend can answer a producer with: a token that stops the callback, or its own failure. -/
def Fails (decode : Decoder) (run : BackendRun) (message : Text) : Prop :=
  Interrupts decode [] run.tokens message ∨ run.result = .error message

theorem numbered_const (deltas : List Text) (f : Text → Frame) :
    ∀ start, numbered (deltas.map fun delta _ => f delta) start = deltas.map f := by
  induction deltas with
  | nil => exact fun start => rfl
  | cons delta rest ih =>
    intro start
    rw [List.map_cons, List.map_cons, numbered, ih]

/-- The deltas with the rest of the text, which is not sent when there is none. -/
theorem flushed_deltas {decode : Decoder} {frame : Nat → Text → Frame} {before : List Frame} {start : Nat}
    {tokens : List Nat} {deltas : List Text} {s : StreamState}
    (h : Fed decode frame before start tokens deltas s) {text : Text} (htext : decode tokens = .ok text) :
    ∃ deltas', (∀ delta ∈ deltas', delta ≠ []) ∧ deltas'.flatten = text ∧
      (if (text.drop s.emitted.length).isEmpty then some (s.box, s.sequence)
        else (s.box.send (frame s.sequence (text.drop s.emitted.length))).map (·, s.sequence + 1)) =
      some (({ frames := before ++ deltaFrames frame start deltas', room := none } : Outbox),
        start + deltas'.length) := by
  have hsplit := List.prefix_iff_eq_append.mp (h.prefix_decode htext)
  by_cases hempty : (text.drop s.emitted.length).isEmpty = true
  · refine ⟨deltas, h.nonempty, ?_, ?_⟩
    · rw [List.isEmpty_iff] at hempty
      rw [hempty, List.append_nil] at hsplit
      rw [← h.emitted, hsplit]
    · rw [if_pos hempty, h.box, h.sequence]
  · refine ⟨deltas ++ [text.drop s.emitted.length], ?_, ?_, ?_⟩
    · refine List.forall_mem_append.mpr ⟨h.nonempty, List.forall_mem_singleton.mpr ?_⟩
      intro hnil
      rw [hnil] at hempty
      exact hempty rfl
    · rw [List.flatten_append, ← h.emitted, List.flatten_singleton, hsplit]
    · rw [if_neg hempty, h.toSent.send, Option.map_some, h.sequence, List.length_append, List.length_singleton,
        Nat.add_assoc]

/-- **What a chat stream is**, for every run. -/
theorem produceStream_spec (decode : Decoder) (run : BackendRun) (prepared : PreparedCompletion)
    (includeUsage : Bool) :
    ∃ deltas tail, (∀ delta ∈ deltas, delta ≠ []) ∧
      produceStream decode run prepared includeUsage .connected =
        .delivered (chatFrames prepared deltas tail) ∧
      ((∃ finishReason text, run.result = .ok finishReason ∧ decode run.tokens = .ok text ∧
          deltas.flatten = text ∧ tail = chatFinish prepared includeUsage finishReason run.tokens.length) ∨
        ∃ message, (Fails decode run message ∨ decode run.tokens = .error message) ∧
          tail = [errorFrame message, .done]) := by
  have hsend : Outbox.connected.send (openingChunk prepared) =
      some { frames := [openingChunk prepared], room := none } := Outbox.send_connected rfl _
  have hfed := fed_start decode (fun _ delta => chunk prepared delta) [openingChunk prepared] 0
  unfold produceStream
  simp only [hsend]
  rcases feed_spec run.result run.tokens hfed with
    ⟨deltas, s, hrun, hs⟩ | ⟨message, deltas, s, hrun, hs, hstops⟩
  · rw [List.nil_append] at hs
    simp only [hrun]
    have hbox : s.box = { frames := chatFrames prepared deltas [], room := none } := by
      rw [hs.box, deltaFrames, numbered_const, chatFrames, List.append_nil, List.singleton_append]
    cases hresult : run.result with
    | error message =>
      refine ⟨deltas, _, hs.nonempty, ?_, .inr ⟨message, .inl (.inr hresult), rfl⟩⟩
      simp [hbox, Outbox.post_connected, Ending.delivered, chatFrames]
    | ok finishReason =>
      simp only [hs.ids]
      cases hdecode : decode run.tokens with
      | error message =>
        refine ⟨deltas, _, hs.nonempty, ?_, .inr ⟨message, .inr rfl, rfl⟩⟩
        simp [hbox, Outbox.post_connected, Ending.delivered, chatFrames]
      | ok text =>
        obtain ⟨deltas', hne, hflat, hflush⟩ := flushed_deltas hs hdecode
        refine ⟨deltas', _, hne, ?_, .inl ⟨finishReason, text, rfl, rfl, hflat, rfl⟩⟩
        replace hflush := congrArg (Option.map Prod.fst) hflush
        rw [apply_ite (Option.map Prod.fst), Option.map_map] at hflush
        simp only [Function.comp_def, Option.map_some, Option.map_id'] at hflush
        simp only [dropBytes_of_append (hs.prefix_decode hdecode), hflush, deltaFrames, numbered_const]
        simp [Outbox.send_connected, Outbox.post_connected, Ending.delivered, chatFrames, chatFinish]
  · simp only [hrun]
    refine ⟨deltas, _, hs.nonempty, ?_, .inr ⟨message, .inl (.inl hstops), rfl⟩⟩
    rw [hs.box, deltaFrames, numbered_const]
    simp [Outbox.post_connected, Ending.delivered, chatFrames]

/-- **What a stream of events is**, for every run. -/
theorem produceResponseStream_spec (decode : Decoder) (run : BackendRun) (prepared : PreparedResponse)
    (now : Nat) :
    ∃ deltas tail, (∀ delta ∈ deltas, delta ≠ []) ∧
      produceResponseStream decode run prepared now .connected =
        .delivered (responseFrames prepared deltas tail) ∧
      ((∃ finishReason text, run.result = .ok finishReason ∧ decode run.tokens = .ok text ∧
          deltas.flatten = text ∧ tail = epilogue prepared now finishReason text run.tokens.length) ∨
        ∃ message, (Fails decode run message ∧ tail = [fun sequence => failedEvent prepared now sequence message]) ∨
          (decode run.tokens = .error message ∧ tail = [fun sequence => decodeFailedEvent sequence message])) := by
  have hprologue : sendEvents (prologue prepared) 0 .connected =
      ({ frames := numbered (prologue prepared) 0, room := none }, true) := sendEvents_connected _ rfl
  have hfed := fed_start decode (deltaEvent prepared) (numbered (prologue prepared) 0) (prologue prepared).length
  -- The frames of the prologue and the deltas, with one event or four behind them.
  have hframes : ∀ deltas tail, numbered (prologue prepared) 0 ++
      deltaFrames (deltaEvent prepared) (prologue prepared).length deltas ++
        numbered tail ((prologue prepared).length + deltas.length) = responseFrames prepared deltas tail := by
    intro deltas tail
    rw [responseFrames, numbered_append, numbered_append, deltaFrames, List.length_append, List.length_map,
      Nat.zero_add, Nat.zero_add]
  unfold produceResponseStream
  simp only [hprologue]
  rcases feed_spec run.result run.tokens hfed with
    ⟨deltas, s, hrun, hs⟩ | ⟨message, deltas, s, hrun, hs, hstops⟩
  · rw [List.nil_append] at hs
    simp only [hrun]
    cases hresult : run.result with
    | error message =>
      refine ⟨deltas, _, hs.nonempty, ?_, .inr ⟨message, .inl ⟨.inr hresult, rfl⟩⟩⟩
      simp only [hs.box, hs.sequence, Outbox.post_connected, Ending.delivered, ← hframes, numbered]
    | ok finishReason =>
      simp only [hs.ids]
      cases hdecode : decode run.tokens with
      | error message =>
        refine ⟨deltas, _, hs.nonempty, ?_, .inr ⟨message, .inr ⟨rfl, rfl⟩⟩⟩
        simp only [hs.box, hs.sequence, Outbox.post_connected, Ending.delivered, ← hframes, numbered]
      | ok text =>
        obtain ⟨deltas', hne, hflat, hflush⟩ := flushed_deltas hs hdecode
        refine ⟨deltas', _, hne, ?_, .inl ⟨finishReason, text, rfl, rfl, hflat, rfl⟩⟩
        simp only [dropBytes_of_append (hs.prefix_decode hdecode), hflush, sendEvents_connected,
          Ending.delivered, ← hframes]
  · simp only [hrun]
    refine ⟨deltas, _, hs.nonempty, ?_, .inr ⟨message, .inl ⟨.inl hstops, rfl⟩⟩⟩
    simp only [hs.box, hs.sequence, Outbox.post_connected, Ending.delivered, ← hframes, numbered]

/-! ## Streamed against whole -/

theorem generate_collect (result : Except Text FinishReason) (tokens : List Nat) :
    ∀ ids : List Nat, generate (fun ids token => (.ok (), ids ++ [token])) result tokens ids =
      (result, ids ++ tokens) := by
  induction tokens with
  | nil =>
    intro ids
    rw [generate, List.append_nil]
  | cons token rest ih =>
    intro ids
    rw [generate]
    show generate _ result rest (ids ++ [token]) = _
    rw [ih, List.append_assoc, List.singleton_append]

theorem complete_ok {decode : Decoder} {run : BackendRun} {c : Completion} (h : complete decode run = .ok c) :
    run.result = .ok c.finishReason ∧ decode run.tokens = .ok c.content ∧
      run.tokens.length = c.completionTokens := by
  rw [complete, generate_collect, List.nil_append] at h
  cases hresult : run.result with
  | error e =>
    rw [hresult] at h
    cases h
  | ok finishReason =>
    rw [hresult] at h
    simp only at h
    cases hdecode : decode run.tokens with
    | error e =>
      rw [hdecode] at h
      cases h
    | ok content =>
      rw [hdecode] at h
      cases h
      exact ⟨rfl, rfl, rfl⟩

/-- The state of the callback after the first `k` tokens of a run, none of which stopped it. -/
def Midway (decode : Decoder) (frame : Nat → Text → Frame) (before : List Frame) (run : BackendRun)
    (k : Nat) (s : StreamState) : Prop :=
  ∃ reason, generate (emitToken decode frame) (.ok reason) (run.tokens.take k)
    { sequence := before.length, box := { frames := before, room := none } } = (.ok reason, s)

/-- In the middle of a stream, what was sent is part of the text so far. -/
theorem Midway.sent_prefix {decode : Decoder} {frame : Nat → Text → Frame} {before : List Frame}
    {run : BackendRun} {k : Nat} {s : StreamState} (h : Midway decode frame before run k s) :
    ∃ deltas, s.box.frames = before ++ deltaFrames frame before.length deltas ∧
      ∀ text, decode (run.tokens.take k) = .ok text → deltas.flatten <+: text := by
  obtain ⟨reason, h⟩ := h
  rcases feed_spec (.ok reason) (run.tokens.take k) (fed_start decode frame before before.length) with
    ⟨deltas, s', hrun, hs⟩ | ⟨message, deltas, s', hrun, -, -⟩
  · rw [hrun] at h
    cases h
    rw [List.nil_append] at hs
    refine ⟨deltas, by rw [hs.box], fun text htext => ?_⟩
    rw [← hs.emitted]
    exact hs.prefix_decode htext
  · rw [hrun] at h
    cases h

/-- What each handler makes of a run whose completion is `c`. The deltas of a stream are the content of the
whole answer, with its reason and its counts behind them; or a token stopped the stream, and the client
is told why. -/
theorem streamed_equals_whole (decode : Decoder) (run : BackendRun) (c : Completion)
    (h : complete decode run = .ok c) :
    (∀ prepared : PreparedCompletion,
      respondNonStreaming decode run prepared =
        (200, completionValue prepared c.finishReason c.content c.completionTokens) ∧
      (∀ includeUsage, ∃ deltas tail,
        produceStream decode run prepared includeUsage .connected =
          .delivered (chatFrames prepared deltas tail) ∧
        (deltas.flatten = c.content ∧
            tail = chatFinish prepared includeUsage c.finishReason c.completionTokens ∨
          ∃ message, Interrupts decode [] run.tokens message ∧ tail = [errorFrame message, .done])) ∧
      ∀ k s, Midway decode (fun _ delta => chunk prepared delta) [openingChunk prepared] run k s →
        ∃ deltas, s.box.frames = chatFrames prepared deltas [] ∧
          ∀ text, decode (run.tokens.take k) = .ok text → deltas.flatten <+: text) ∧
    ∀ (prepared : PreparedResponse) (now : Nat),
      respondResponseNonStreaming decode run prepared now =
        (200, responseValue prepared now c.finishReason c.content prepared.promptTokenIds.length
          c.completionTokens) ∧
      (∃ deltas tail,
        produceResponseStream decode run prepared now .connected =
          .delivered (responseFrames prepared deltas tail) ∧
        (deltas.flatten = c.content ∧
            tail = epilogue prepared now c.finishReason c.content c.completionTokens ∨
          ∃ message, Interrupts decode [] run.tokens message ∧
            tail = [fun sequence => failedEvent prepared now sequence message])) ∧
      ∀ k s, Midway decode (deltaEvent prepared) (numbered (prologue prepared) 0) run k s →
        ∃ deltas, s.box.frames = responseFrames prepared deltas [] ∧
          ∀ text, decode (run.tokens.take k) = .ok text → deltas.flatten <+: text := by
  obtain ⟨hresult, hdecode, hcount⟩ := complete_ok h
  have hfails : ∀ message, Fails decode run message → Interrupts decode [] run.tokens message := by
    intro message hfails
    rcases hfails with hstops | herror
    · exact hstops
    · rw [hresult] at herror
      cases herror
  refine ⟨fun prepared => ⟨?_, fun includeUsage => ?_, fun k s hmid => ?_⟩,
    fun prepared now => ⟨?_, ?_, fun k s hmid => ?_⟩⟩
  · rw [respondNonStreaming, h]
  · obtain ⟨deltas, tail, -, heq, hends⟩ := produceStream_spec decode run prepared includeUsage
    refine ⟨deltas, tail, heq, ?_⟩
    rcases hends with ⟨finishReason, text, hok, htext, hflat, htail⟩ | ⟨message, hfail, htail⟩
    · rw [hresult] at hok
      rw [hdecode] at htext
      cases hok
      cases htext
      rw [hcount] at htail
      exact .inl ⟨hflat, htail⟩
    · rcases hfail with hfail | hfail
      · exact .inr ⟨message, hfails message hfail, htail⟩
      · rw [hdecode] at hfail
        cases hfail
  · obtain ⟨deltas, hframes, hsent⟩ := hmid.sent_prefix
    refine ⟨deltas, ?_, hsent⟩
    rw [hframes, deltaFrames, numbered_const, chatFrames, List.append_nil, List.singleton_append]
  · rw [respondResponseNonStreaming, h]
  · obtain ⟨deltas, tail, -, heq, hends⟩ := produceResponseStream_spec decode run prepared now
    refine ⟨deltas, tail, heq, ?_⟩
    rcases hends with ⟨finishReason, text, hok, htext, hflat, htail⟩ | ⟨message, hfail⟩
    · rw [hresult] at hok
      rw [hdecode] at htext
      cases hok
      cases htext
      rw [hcount] at htail
      exact .inl ⟨hflat, htail⟩
    · rcases hfail with ⟨hfail, htail⟩ | ⟨hfail, -⟩
      · exact .inr ⟨message, hfails message hfail, htail⟩
      · rw [hdecode] at hfail
        cases hfail
  · obtain ⟨deltas, hframes, hsent⟩ := hmid.sent_prefix
    refine ⟨deltas, ?_, hsent⟩
    rw [hframes, responseFrames, List.append_nil, numbered_append, Nat.zero_add]
    rfl

/-- A character spread over two tokens, and a tokenizer that refuses its first half. -/
def splitCharacter : BackendRun := { tokens := [1, 2], result := .ok .stop }

def lossyHalves : Decoder
  | [] => .ok []
  | [_] => .ok ['a', replacement]
  | _ => .ok ['a', 'b']

def strictHalves : Decoder
  | [] => .ok []
  | [_] => .error ['h', 'a', 'l', 'f']
  | _ => .ok ['a', 'b']

def samplePrepared : PreparedCompletion :=
  { completionId := ['i', 'd'], created := 7, model := ['m'], promptTokenIds := [5] }

theorem streamed_equals_whole_sample :
    (∃ c, complete lossyHalves splitCharacter = .ok c) ∧
      ∃ deltas tail, produceStream lossyHalves splitCharacter samplePrepared true .connected =
        .delivered (chatFrames samplePrepared deltas tail) ∧
        (deltas.flatten = ['a', 'b'] ∧ tail = chatFinish samplePrepared true .stop 2 ∨
          ∃ message, Interrupts lossyHalves [] [1, 2] message ∧ tail = [errorFrame message, .done]) :=
  ⟨⟨_, rfl⟩, ((streamed_equals_whole lossyHalves splitCharacter ⟨['a', 'b'], .stop, 2⟩ rfl).1
    samplePrepared).2.1 true⟩

/-- The whole completion has a text, and its stream reports neither that text nor a decode that is not
monotonic: it reports the first token's failed decode. -/
theorem failed_decode_ends_stream :
    ∃ c, complete strictHalves splitCharacter = .ok c ∧
      ¬ ∃ deltas tail, produceStream strictHalves splitCharacter samplePrepared false .connected =
        .delivered (chatFrames samplePrepared deltas tail) ∧
        (deltas.flatten = c.content ∧
            tail = chatFinish samplePrepared false c.finishReason c.completionTokens ∨
          tail = [errorFrame notMonotonic, .done]) := by
  refine ⟨⟨['a', 'b'], .stop, 2⟩, rfl, ?_⟩
  intro hclaim
  obtain ⟨deltas, tail, heq, hends⟩ := hclaim
  have hrun : produceStream strictHalves splitCharacter samplePrepared false .connected =
      .delivered [openingChunk samplePrepared, errorFrame ['h', 'a', 'l', 'f'], .done] := rfl
  rw [hrun, Ending.delivered, Ending.delivered, chatFrames, Ending.mk.injEq, Outbox.mk.injEq,
    List.cons_append, List.cons.injEq] at heq
  have hframes := heq.1.1.2
  cases deltas with
  | nil =>
    rw [List.map_nil, List.nil_append] at hframes
    rcases hends with ⟨hflat, -⟩ | htail
    · cases hflat
    · rw [htail, List.cons.injEq] at hframes
      have hmessage : ['h', 'a', 'l', 'f'] = notMonotonic := by
        simpa [errorFrame, errorValue, apiErrorValue] using hframes.1
      exact absurd (congrArg List.length hmessage) (by decide)
  | cons delta rest =>
    have hlen := congrArg List.length hframes
    rcases hends with ⟨-, htail⟩ | htail
    · rw [htail] at hlen
      simp [chatFinish] at hlen
    · rw [htail] at hlen
      simp at hlen

end Spark.OpenAi
