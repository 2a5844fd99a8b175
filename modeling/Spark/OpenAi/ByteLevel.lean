import Spark.Lib.Utf8
import Spark.OpenAi.Stream

/-!
# Streaming over a byte-level tokenizer

The tokenizers this boundary serves give each token a byte string and decode to the lossy text of all the
bytes. Under such a decoder the text shown while streaming only grows: a replacement character at the end
may still become something else and is held back, and nothing before it can change.

* **`stablePart_lossy_append`** — more bytes extend the stable part.
* **`byteLevel_streams`** — no token is refused, and the pieces and the flush are the whole text.
-/

namespace Spark.OpenAi

/-- `decode(ids, true)` of a byte-level tokenizer. -/
def byteLevel (bytesOf : Nat → List UInt8) : Decoder :=
  fun ids => .ok (Utf8.lossy (ids.flatMap bytesOf))

/-- Every token pushed in turn, up to the first that is refused; the pieces they gave. -/
def IncrementalDecoder.pushAll (decode : Decoder) :
    List Nat → IncrementalDecoder → Except PushError (List Text) × IncrementalDecoder
  | [], decoder => (.ok [], decoder)
  | token :: rest, decoder =>
    match decoder.push decode token with
    | (.error e, decoder) => (.error e, decoder)
    | (.ok piece, decoder) =>
      match pushAll decode rest decoder with
      | (.error e, decoder) => (.error e, decoder)
      | (.ok pieces, decoder) => (.ok (piece :: pieces), decoder)

/-! ## The stable part only grows -/

theorem stablePart_append (a b : Text) : stablePart a <+: stablePart (a ++ b) := by
  induction b using List.reverseRecOn with
  | nil => simp
  | append_singleton b c ih =>
    rw [← List.append_assoc, stablePart, stablePart, List.rdropWhile_concat]
    split
    · exact ih
    · exact (List.rdropWhile_prefix _ _).trans ((List.prefix_append a b).trans (List.prefix_append _ _))

theorem stablePart_lossy (bytes : List UInt8) :
    stablePart (Utf8.lossy bytes) = stablePart (Utf8.feed .start bytes).1 := by
  rw [Utf8.lossy]
  rcases Utf8.flush_cases (Utf8.feed .start bytes).2 with hflush | hflush
  · rw [hflush, List.append_nil]
  · rw [hflush]
    exact List.rdropWhile_concat_pos _ _ _ rfl

theorem stablePart_lossy_append (a b : List UInt8) :
    stablePart (Utf8.lossy a) <+: stablePart (Utf8.lossy (a ++ b)) := by
  obtain ⟨rest, hrest⟩ := Utf8.lossy_append a b
  rw [stablePart_lossy a, hrest]
  exact stablePart_append _ rest

section Shown

variable (bytesOf : Nat → List UInt8)

/-- What a stream has shown after some tokens. -/
def shown (ids : List Nat) : Text := stablePart (Utf8.lossy (ids.flatMap bytesOf))

theorem shown_append (ids : List Nat) (token : Nat) : shown bytesOf ids <+: shown bytesOf (ids ++ [token]) := by
  rw [shown, shown, List.flatMap_append]
  exact stablePart_lossy_append _ _

variable {bytesOf}

/-! ## The incremental decoder -/

theorem advance_of_prefix {decoder : IncrementalDecoder} {text : Text} (h : decoder.emitted <+: text) :
    decoder.advance text = (.ok (text.drop decoder.emitted.length), { decoder with emitted := text }) := by
  rw [IncrementalDecoder.advance, if_pos (List.isPrefixOf_iff_prefix.mpr h)]

theorem push_byteLevel {decoder : IncrementalDecoder} (h : decoder.emitted = shown bytesOf decoder.ids)
    (token : Nat) :
    ∃ piece, decoder.push (byteLevel bytesOf) token =
        (.ok piece, { ids := decoder.ids ++ [token], emitted := shown bytesOf (decoder.ids ++ [token]) }) ∧
      decoder.emitted ++ piece = shown bytesOf (decoder.ids ++ [token]) := by
  have hprefix : decoder.emitted <+: shown bytesOf (decoder.ids ++ [token]) := by
    rw [h]
    exact shown_append bytesOf decoder.ids token
  refine ⟨_, ?_, List.prefix_iff_eq_append.mp hprefix⟩
  show IncrementalDecoder.advance { decoder with ids := decoder.ids ++ [token] } _ = _
  exact advance_of_prefix hprefix

theorem pushAll_byteLevel (tokens : List Nat) :
    ∀ {decoder : IncrementalDecoder}, decoder.emitted = shown bytesOf decoder.ids →
      ∃ pieces, decoder.pushAll (byteLevel bytesOf) tokens =
          (.ok pieces, { ids := decoder.ids ++ tokens, emitted := shown bytesOf (decoder.ids ++ tokens) }) ∧
        decoder.emitted ++ pieces.flatten = shown bytesOf (decoder.ids ++ tokens) := by
  induction tokens with
  | nil =>
    intro decoder h
    refine ⟨[], ?_, ?_⟩
    · rw [IncrementalDecoder.pushAll, List.append_nil, ← h]
    · rw [List.flatten_nil, List.append_nil, List.append_nil, h]
  | cons token rest ih =>
    intro decoder h
    obtain ⟨piece, hpush, hpiece⟩ := push_byteLevel h token
    obtain ⟨pieces, hrest, hpieces⟩ :=
      @ih { ids := decoder.ids ++ [token], emitted := shown bytesOf (decoder.ids ++ [token]) } rfl
    rw [List.append_assoc, List.singleton_append] at hrest hpieces
    refine ⟨piece :: pieces, ?_, ?_⟩
    · simp only [IncrementalDecoder.pushAll, hpush, hrest]
    · rw [List.flatten_cons, ← List.append_assoc, hpiece, hpieces]

theorem finish_byteLevel {decoder : IncrementalDecoder} (h : decoder.emitted = shown bytesOf decoder.ids) :
    ∃ rest decoder', decoder.finish (byteLevel bytesOf) = (.ok rest, decoder') ∧
      decoder.emitted ++ rest = Utf8.lossy (decoder.ids.flatMap bytesOf) := by
  have hprefix : decoder.emitted <+: Utf8.lossy (decoder.ids.flatMap bytesOf) := by
    rw [h]
    exact stablePart_prefix _
  exact ⟨_, _, advance_of_prefix hprefix, List.prefix_iff_eq_append.mp hprefix⟩

/-- Tokens pushed and finished: no piece is missing and none is shown twice. -/
theorem incremental_byteLevel (bytesOf : Nat → List UInt8) (tokens : List Nat) :
    ∃ pieces decoder rest decoder',
      IncrementalDecoder.pushAll (byteLevel bytesOf) tokens {} = (.ok pieces, decoder) ∧
      decoder.finish (byteLevel bytesOf) = (.ok rest, decoder') ∧
      pieces.flatten ++ rest = Utf8.lossy (tokens.flatMap bytesOf) := by
  obtain ⟨pieces, hpush, hpieces⟩ := @pushAll_byteLevel bytesOf tokens {} rfl
  obtain ⟨rest, decoder', hfinish, hrest⟩ :=
    @finish_byteLevel bytesOf { ids := [] ++ tokens, emitted := shown bytesOf ([] ++ tokens) } rfl
  refine ⟨pieces, _, rest, decoder', hpush, hfinish, ?_⟩
  rw [← List.nil_append pieces.flatten, hpieces, hrest, List.nil_append]

/-! ## The producers -/

/-- A token is taken, or the client is gone. -/
theorem emitToken_byteLevel {frame : Nat → Text → Frame} {s : StreamState}
    (h : s.emitted = shown bytesOf s.ids) (token : Nat) :
    (∃ s', emitToken (byteLevel bytesOf) frame s token = (.ok (), s') ∧
        s'.emitted = shown bytesOf s'.ids) ∨
      ∃ s', emitToken (byteLevel bytesOf) frame s token = (.error disconnected, s') := by
  have hprefix : s.emitted <+: stablePart (Utf8.lossy ((s.ids ++ [token]).flatMap bytesOf)) := by
    rw [h]
    exact shown_append bytesOf s.ids token
  simp only [emitToken, byteLevel]
  rw [if_pos (List.isPrefixOf_iff_prefix.mpr hprefix)]
  split
  · exact .inl ⟨_, rfl, rfl⟩
  · split
    · exact .inr ⟨_, rfl⟩
    · exact .inl ⟨_, rfl, rfl⟩

theorem generate_byteLevel {frame : Nat → Text → Frame} (result : Except Text FinishReason) (tokens : List Nat) :
    ∀ {s : StreamState}, s.emitted = shown bytesOf s.ids →
      (generate (emitToken (byteLevel bytesOf) frame) result tokens s).1 = result ∨
        (generate (emitToken (byteLevel bytesOf) frame) result tokens s).1 = .error disconnected := by
  induction tokens with
  | nil => exact fun _ => .inl rfl
  | cons token rest ih =>
    intro s h
    rw [generate]
    rcases emitToken_byteLevel h token with ⟨s', heq, h'⟩ | ⟨s', heq⟩
    · rw [heq]
      exact ih h'
    · rw [heq]
      exact .inr rfl

theorem not_interrupts_byteLevel {tokens : List Nat} {message : Text} :
    ¬ Interrupts (byteLevel bytesOf) [] tokens message := by
  rintro ⟨fed, token, rest, -, hfails | ⟨-, old, new, hold, hnew, hnot⟩⟩
  · cases hfails
  · cases hold
    cases hnew
    exact hnot (shown_append bytesOf _ token)

end Shown

/-! ## Whole runs -/

/-- **A byte-level tokenizer is never refused.** The incremental decoder takes every token, and its pieces and
the last one are the decode of all ids. The callback of the producers stops only when its client is gone;
with a client that stays, a stream ends with all the text, or with the backend's own failure. -/
theorem byteLevel_streams (bytesOf : Nat → List UInt8) :
    (∀ tokens, ∃ pieces decoder rest decoder',
      IncrementalDecoder.pushAll (byteLevel bytesOf) tokens {} = (.ok pieces, decoder) ∧
      decoder.finish (byteLevel bytesOf) = (.ok rest, decoder') ∧
      byteLevel bytesOf tokens = .ok (pieces.flatten ++ rest)) ∧
    (∀ frame result tokens sequence box,
      (generate (emitToken (byteLevel bytesOf) frame) result tokens { sequence, box }).1 = result ∨
        (generate (emitToken (byteLevel bytesOf) frame) result tokens { sequence, box }).1 =
          .error disconnected) ∧
    (∀ run prepared includeUsage, ∃ deltas tail,
      produceStream (byteLevel bytesOf) run prepared includeUsage .connected =
        .delivered (chatFrames prepared deltas tail) ∧
      ((∃ reason, run.result = .ok reason ∧ byteLevel bytesOf run.tokens = .ok deltas.flatten ∧
          tail = chatFinish prepared includeUsage reason run.tokens.length) ∨
        ∃ message, run.result = .error message ∧ tail = [errorFrame message, .done])) ∧
    ∀ run prepared now, ∃ deltas tail,
      produceResponseStream (byteLevel bytesOf) run prepared now .connected =
        .delivered (responseFrames prepared deltas tail) ∧
      ((∃ reason, run.result = .ok reason ∧ byteLevel bytesOf run.tokens = .ok deltas.flatten ∧
          tail = epilogue prepared now reason deltas.flatten run.tokens.length) ∨
        ∃ message, run.result = .error message ∧
          tail = [fun sequence => failedEvent prepared now sequence message]) := by
  refine ⟨fun tokens => ?_, fun frame result tokens sequence box => ?_, fun run prepared includeUsage => ?_,
    fun run prepared now => ?_⟩
  · obtain ⟨pieces, decoder, rest, decoder', hpush, hfinish, hwhole⟩ := incremental_byteLevel bytesOf tokens
    refine ⟨pieces, decoder, rest, decoder', hpush, hfinish, ?_⟩
    rw [hwhole, byteLevel]
  · exact generate_byteLevel result tokens rfl
  · obtain ⟨deltas, tail, -, heq, hends⟩ := produceStream_spec (byteLevel bytesOf) run prepared includeUsage
    refine ⟨deltas, tail, heq, ?_⟩
    rcases hends with ⟨reason, text, hresult, htext, rfl, htail⟩ | ⟨message, (hstops | hresult) | hdecode, htail⟩
    · exact .inl ⟨reason, hresult, htext, htail⟩
    · exact absurd hstops not_interrupts_byteLevel
    · exact .inr ⟨message, hresult, htail⟩
    · cases hdecode
  · obtain ⟨deltas, tail, -, heq, hends⟩ := produceResponseStream_spec (byteLevel bytesOf) run prepared now
    refine ⟨deltas, tail, heq, ?_⟩
    rcases hends with ⟨reason, text, hresult, htext, rfl, htail⟩ |
      ⟨message, ⟨hstops | hresult, htail⟩ | ⟨hdecode, -⟩⟩
    · exact .inl ⟨reason, hresult, htext, htail⟩
    · exact absurd hstops not_interrupts_byteLevel
    · exact .inr ⟨message, hresult, htail⟩
    · cases hdecode

end Spark.OpenAi
