import Spark.Server.Entities
import Spark.Tokenizer.Glm4

/-!
# Messages as tokens

The texts of a chat in front of a GLM model (`engine.c`, `ds4_chat_append_message`): the texts of the system and of
the assistant may name control tokens, the ones of users and of tools may not, and what a tool says cannot close its
wrapper.

* **`specialTokenAt`** — the control tokens that a rendered text names.
* **`wrappedLoop_text`** — a payload is the text with its closing words protected.
* **`payload_contained`** — and so ends where it ends, without a control token.
-/

namespace Spark.Tokenizer

open Search
open Server (bytes cString protects_entity)

/-! ## Control tokens -/

/-- `ds4_vocab` of a GLM model; `bos_id` and `eos_id` may stand in the model file. -/
structure GlmVocab extends Vocab where
  bosId : Option Nat
  eosId : Option Nat

/-- `vocab_lookup_optional`; none is -1. -/
def vocabLookupOptional (vocab : GlmVocab) (text : String) : Option Nat := tableGet (bytes text) vocab.token 0

/-- The table of `special_token_at`, with the ids that `vocab_load` looks up. -/
def specials (vocab : GlmVocab) : List (List UInt8 × Option Nat) :=
  [(bytes "<｜begin▁of▁sentence｜>", vocab.bosId), (bytes "<｜end▁of▁sentence｜>", vocab.eosId),
    (bytes "[gMASK]", vocab.bosId), (bytes "<sop>", vocabLookupOptional vocab "<sop>"),
    (bytes "<|system|>", vocabLookupOptional vocab "<|system|>"),
    (bytes "<｜User｜>", vocabLookupOptional vocab "<|user|>"),
    (bytes "<｜Assistant｜>", vocabLookupOptional vocab "<|assistant|>"),
    (bytes "<|user|>", vocabLookupOptional vocab "<|user|>"),
    (bytes "<|assistant|>", vocabLookupOptional vocab "<|assistant|>"),
    (bytes "<|observation|>", vocabLookupOptional vocab "<|observation|>"),
    (bytes "<think>", vocabLookupOptional vocab "<think>"), (bytes "</think>", vocabLookupOptional vocab "</think>"),
    (bytes "<tool_call>", vocabLookupOptional vocab "<tool_call>"),
    (bytes "</tool_call>", vocabLookupOptional vocab "</tool_call>"),
    (bytes "<tool_response>", vocabLookupOptional vocab "<tool_response>"),
    (bytes "</tool_response>", vocabLookupOptional vocab "</tool_response>"),
    (bytes "<arg_key>", vocabLookupOptional vocab "<arg_key>"),
    (bytes "</arg_key>", vocabLookupOptional vocab "</arg_key>"),
    (bytes "<arg_value>", vocabLookupOptional vocab "<arg_value>"),
    (bytes "</arg_value>", vocabLookupOptional vocab "</arg_value>"), (bytes "｜DSML｜", none)]

/-- `special_token_at`: the token, and the length of its text. -/
def specialTokenAt (vocab : GlmVocab) (p : List UInt8) : Option (Nat × Nat) :=
  (specials vocab).findSome? fun e =>
    e.2.bind fun token => if e.1.isPrefixOf p then some (token, e.1.length) else none

/-- The loop of `tokenize_rendered_chat_vocab`, with the text since the last control token. -/
def renderedLoop (vocab : GlmVocab) : Nat → List UInt8 → List UInt8 → List Nat
  | 0, span, _ => ds4TokenizeText vocab.toVocab span
  | _, span, [] => ds4TokenizeText vocab.toVocab span
  | fuel + 1, span, c :: p =>
    match specialTokenAt vocab (c :: p) with
    | some special =>
      ds4TokenizeText vocab.toVocab span ++ special.1 :: renderedLoop vocab fuel [] ((c :: p).drop special.2)
    | none => renderedLoop vocab fuel (span ++ [c]) p

/-- `tokenize_rendered_chat_vocab`. -/
def tokenizeRenderedChatVocab (vocab : GlmVocab) (text : List UInt8) : List Nat :=
  renderedLoop vocab (cString text).length [] (cString text)

/-- The loop of `bpe_tokenize_wrapped_payload_text`, with the text since the last closing word. -/
def wrappedLoop (vocab : Vocab) (close : List UInt8) : List UInt8 → List UInt8 → List Nat
  | span, [] => ds4TokenizeText vocab span
  | span, c :: p =>
    if close.isPrefixOf (c :: p) then
      ds4TokenizeText vocab span ++ ds4TokenizeText vocab (bytes "&lt;") ++ wrappedLoop vocab close [] p
    else wrappedLoop vocab close (span ++ [c]) p

/-- `bpe_tokenize_wrapped_payload_text`. -/
def bpeTokenizeWrappedPayloadText (vocab : Vocab) (content close : List UInt8) : List Nat :=
  wrappedLoop vocab close [] (cString content)

/-- `bpe_tokenize_tool_response_text`. -/
def bpeTokenizeToolResponseText (vocab : Vocab) (content : List UInt8) : List Nat :=
  bpeTokenizeWrappedPayloadText vocab content (bytes "</tool_response>")

/-- A token that is pushed without a look at its id. -/
def pushId (id : Option Nat) : Int := id.elim (-1) Int.ofNat

/-- `ds4_chat_append_message`: the tokens that a message adds. -/
def ds4ChatAppendMessage (vocab : GlmVocab) (role : String) (content : List UInt8) : List Int :=
  if role = "system" ∨ role = "developer" then
    (vocabLookupOptional vocab "<|system|>").toList.map Int.ofNat
      ++ (tokenizeRenderedChatVocab vocab content).map Int.ofNat
  else if role = "assistant" then
    pushId (vocabLookupOptional vocab "<|assistant|>") ::
      (if (bytes "<think>").isPrefixOf content ∨ (bytes "</think>").isPrefixOf content then []
        else [pushId (vocabLookupOptional vocab "<think>"), pushId (vocabLookupOptional vocab "</think>")])
      ++ (tokenizeRenderedChatVocab vocab content).map Int.ofNat
  else if role = "tool" ∨ role = "function" then
    (vocabLookupOptional vocab "<|observation|>").toList.map Int.ofNat
      ++ (tokenizeRenderedChatVocab vocab (bytes "<tool_response>")).map Int.ofNat
      ++ (bpeTokenizeToolResponseText vocab.toVocab content).map Int.ofNat
      ++ (tokenizeRenderedChatVocab vocab (bytes "</tool_response>")).map Int.ofNat
  else
    pushId (vocabLookupOptional vocab "<|user|>") :: (ds4TokenizeText vocab.toVocab content).map Int.ofNat

/-! ## Payloads -/

section Payloads

variable {vocab : Vocab} {close span p w : List UInt8} {token : Nat}

theorem cString_eq_self (h : 0 ∉ p) : cString p = p := by
  unfold cString
  apply List.takeWhile_eq_self_iff.mpr
  intro c hc
  have hne : c ≠ 0 := by
    rintro rfl
    exact h hc
  simpa using hne

theorem zero_notMem_cString (text : List UInt8) : 0 ∉ cString text := by
  intro h
  have hne := List.mem_takeWhile_imp h
  simp at hne

/-- The text of a payload, with its closing words protected. -/
theorem wrappedLoop_text (hv : vocab.Complete) (hspan : 0 ∉ span) (hp : 0 ∉ p) :
    (wrappedLoop vocab close span p).flatMap (ds4TokenText vocab) = span ++ escapeWord close (bytes "&lt;") p := by
  induction p generalizing span with
  | nil =>
    rw [wrappedLoop, ds4TokenizeText_text hv span, cString_eq_self hspan]
    exact (List.append_nil _).symm
  | cons c p ih =>
    have hrest : 0 ∉ p := fun h => hp (List.mem_cons_of_mem _ h)
    rw [wrappedLoop, escapeWord]
    split
    case isTrue =>
      have hentity : cString (bytes "&lt;") = bytes "&lt;" := cString_eq_self (by decide)
      rw [List.flatMap_append, List.flatMap_append, ds4TokenizeText_text hv span, ds4TokenizeText_text hv, hentity,
        cString_eq_self hspan, ih List.not_mem_nil hrest, List.nil_append, List.append_assoc]
    case isFalse =>
      have hmore : 0 ∉ span ++ [c] := by
        intro h
        rcases List.mem_append.mp h with h | h
        · exact hspan h
        · rw [List.mem_singleton.mp h] at hp
          exact hp List.mem_cons_self
      rw [ih hmore hrest, List.append_assoc]
      rfl

/-- The token of `w` is neither a byte nor a merge: it is only ever put in by name. -/
def Vocab.Control (vocab : Vocab) (w : List UInt8) : Prop := ¬ vocab.Made w

theorem tokenizeText_made (hv : vocab.Complete) {text : List UInt8} (h : token ∈ ds4TokenizeText vocab text) :
    ∃ s, vocab.Made s ∧ vocab.token[token]? = some s := by
  obtain ⟨piece, -, htoken⟩ := List.mem_flatMap.mp h
  exact bpeEmitPiece_made hv htoken

theorem tokenizeText_plain (hv : vocab.Complete) (hw : vocab.Control w) {text : List UInt8}
    (h : token ∈ ds4TokenizeText vocab text) : vocab.token[token]? ≠ some w := by
  obtain ⟨s, hmade, hget⟩ := tokenizeText_made hv h
  intro hcontrol
  rw [hget] at hcontrol
  exact hw (Option.some.inj hcontrol ▸ hmade)

theorem wrappedLoop_plain (hv : vocab.Complete) (hw : vocab.Control w) (h : token ∈ wrappedLoop vocab close span p) :
    vocab.token[token]? ≠ some w := by
  induction p generalizing span with
  | nil => exact tokenizeText_plain hv hw h
  | cons c p ih =>
    rw [wrappedLoop] at h
    split at h
    case isTrue =>
      rcases List.mem_append.mp h with h | h
      · rcases List.mem_append.mp h with h | h
        · exact tokenizeText_plain hv hw h
        · exact tokenizeText_plain hv hw h
      · exact ih h
    case isFalse => exact ih h

end Payloads

/-! ## The words of the wrapper -/

section Words

variable {vocab : GlmVocab} {word span p : List UInt8} {fuel : Nat}

/-- The bytes that a text of `specials` starts with. -/
def Opens (c : UInt8) : Prop := c = 0x3c ∨ c = 0x5b ∨ c = 0xef

instance : DecidablePred Opens := fun c => inferInstanceAs (Decidable (c = 0x3c ∨ c = 0x5b ∨ c = 0xef))

theorem specials_open (vocab : GlmVocab) : ∀ e ∈ specials vocab, ∃ c w, e.1 = c :: w ∧ Opens c := by
  have hwords : (specials vocab).map Prod.fst = (specials ⟨⟨[], []⟩, none, none⟩).map Prod.fst := rfl
  have hall : ∀ w ∈ (specials ⟨⟨[], []⟩, none, none⟩).map Prod.fst, w ≠ [] ∧ Opens (w.headD 0) := by decide
  intro e he
  have hfirst := hall e.1 (by rw [← hwords]; exact List.mem_map_of_mem he)
  cases hword : e.1 with
  | nil => exact absurd hword hfirst.1
  | cons c w =>
    rw [hword] at hfirst
    exact ⟨c, w, rfl, hfirst.2⟩

theorem specialTokenAt_none {c : UInt8} (hc : ¬ Opens c) : specialTokenAt vocab (c :: p) = none := by
  refine List.findSome?_eq_none_iff.mpr fun e he => ?_
  obtain ⟨d, w, hword, hopens⟩ := specials_open vocab e he
  have hne : ¬ d = c := fun heq => hc (heq ▸ hopens)
  simp [hword, List.isPrefixOf, hne]

/-- A text without those bytes names no control token. -/
theorem renderedLoop_plain (hp : ∀ c ∈ p, ¬ Opens c) (hfuel : p.length ≤ fuel) :
    renderedLoop vocab fuel span p = ds4TokenizeText vocab.toVocab (span ++ p) := by
  induction p generalizing fuel span with
  | nil =>
    rw [List.append_nil]
    cases fuel <;> rfl
  | cons c p ih =>
    obtain ⟨hc, hrest⟩ := List.forall_mem_cons.mp hp
    cases fuel with
    | zero => exact absurd hfuel (by simp)
    | succ fuel =>
      rw [renderedLoop, specialTokenAt_none hc]
      simp only
      rw [ih hrest (Nat.le_of_succ_le_succ hfuel), List.append_assoc]
      rfl

/-- A word of `specials` that no other of them starts is looked up as it stands. -/
theorem specialTokenAt_word {id : Option Nat}
    (hnamed : (specials vocab).filter (fun e => e.1.isPrefixOf word) = [(word, id)]) :
    specialTokenAt vocab word = id.map fun token => (token, word.length) := by
  have hfilter : ∀ entries : List (List UInt8 × Option Nat),
      (entries.findSome? fun e =>
        e.2.bind fun token => if e.1.isPrefixOf word then some (token, e.1.length) else none) =
      (entries.filter fun e => e.1.isPrefixOf word).findSome? fun e => e.2.map fun token => (token, e.1.length) := by
    intro entries
    induction entries with
    | nil => rfl
    | cons e entries ih =>
      by_cases hprefix : e.1.isPrefixOf word
      · rw [List.filter_cons, if_pos hprefix, List.findSome?_cons, List.findSome?_cons, ih]
        simp only [if_pos hprefix]
        cases e.2 <;> rfl
      · rw [List.filter_cons, if_neg hprefix, List.findSome?_cons, ih]
        simp only [if_neg hprefix]
        cases e.2 <;> rfl
  unfold specialTokenAt
  rw [hfilter, hnamed]
  cases id <;> rfl

/-- The text of the tokens of such a word is the word: it is the one token of that name, or the word as plain text. -/
theorem rendered_word (hv : vocab.Complete) {rest : List UInt8}
    (hnamed : (specials vocab).filter (fun e => e.1.isPrefixOf (0x3c :: rest)) =
      [(0x3c :: rest, tableGet (0x3c :: rest) vocab.token 0)])
    (hrest : ∀ c ∈ rest, ¬ Opens c) (hzero : 0 ∉ rest) (hencode : byteEncode (0x3c :: rest) = 0x3c :: rest) :
    (tokenizeRenderedChatVocab vocab (0x3c :: rest)).flatMap (ds4TokenText vocab.toVocab) = 0x3c :: rest := by
  have hstring : cString (0x3c :: rest) = 0x3c :: rest := by
    apply cString_eq_self
    intro hmem
    rcases List.mem_cons.mp hmem with hmem | hmem
    · cases hmem
    · exact hzero hmem
  rw [tokenizeRenderedChatVocab, hstring, List.length_cons, renderedLoop, specialTokenAt_word hnamed]
  cases hid : tableGet (0x3c :: rest) vocab.token 0 with
  | none =>
    simp only [Option.map_none]
    rw [renderedLoop_plain hrest (Nat.le_refl _), List.nil_append, List.singleton_append,
      ds4TokenizeText_text hv, hstring]
  | some token =>
    have hget := (tableGet_eq_some hid).2
    rw [Nat.sub_zero, ← hencode] at hget
    have htext := ds4TokenText_encoded hget
    simp only [Option.map_some]
    rw [List.length_cons, List.drop_succ_cons, List.drop_length,
      renderedLoop_plain (fun _ h => absurd h List.not_mem_nil) (Nat.zero_le _)]
    have hnothing : ds4TokenizeText vocab.toVocab [] = [] := rfl
    rw [List.append_nil, hnothing, List.nil_append, List.flatMap_singleton, htext]

theorem rendered_opening (hv : vocab.Complete) :
    (tokenizeRenderedChatVocab vocab (bytes "<tool_response>")).flatMap (ds4TokenText vocab.toVocab) =
      bytes "<tool_response>" := by
  rw [show bytes "<tool_response>" = 0x3c :: bytes "tool_response>" from by decide]
  exact rendered_word hv (by rfl) (by decide +kernel) (by decide +kernel) (by decide +kernel)

theorem rendered_closing (hv : vocab.Complete) :
    (tokenizeRenderedChatVocab vocab (bytes "</tool_response>")).flatMap (ds4TokenText vocab.toVocab) =
      bytes "</tool_response>" := by
  rw [show bytes "</tool_response>" = 0x3c :: bytes "/tool_response>" from by decide]
  exact rendered_word hv (by rfl) (by decide +kernel) (by decide +kernel) (by decide +kernel)

end Words

/-- What a user or a tool says in a chat adds no control token. The message of a user is the user token and tokens of
the text as it is. The message of a tool is the observation token, the opening word, the text with its closing words
protected, and the closing word: in what is said and closed, with whatever behind it, the first closing word is the
one of the wrapper. -/
theorem payload_contained (vocab : GlmVocab) (hv : vocab.Complete) (content : List UInt8) :
    (∃ said : List Nat,
      ds4ChatAppendMessage vocab "user" content =
        pushId (vocabLookupOptional vocab "<|user|>") :: said.map Int.ofNat ∧
      said.flatMap (ds4TokenText vocab.toVocab) = cString content ∧
      ∀ token ∈ said, ∀ w, vocab.Control w → vocab.token[token]? ≠ some w) ∧
    ∃ opening said closing : List Nat,
      ds4ChatAppendMessage vocab "tool" content =
        ((vocabLookupOptional vocab "<|observation|>").toList ++ opening ++ said ++ closing).map Int.ofNat ∧
      opening = tokenizeRenderedChatVocab vocab (bytes "<tool_response>") ∧
      opening.flatMap (ds4TokenText vocab.toVocab) = bytes "<tool_response>" ∧
      closing = tokenizeRenderedChatVocab vocab (bytes "</tool_response>") ∧
      closing.flatMap (ds4TokenText vocab.toVocab) = bytes "</tool_response>" ∧
      said.flatMap (ds4TokenText vocab.toVocab) =
        escapeWord (bytes "</tool_response>") (bytes "&lt;") (cString content) ∧
      (∀ back, First (Occurs (bytes "</tool_response>")
          ((said ++ closing).flatMap (ds4TokenText vocab.toVocab) ++ back))
        (some (said.flatMap (ds4TokenText vocab.toVocab)).length)) ∧
      ∀ token ∈ said, ∀ w, vocab.Control w → vocab.token[token]? ≠ some w := by
  constructor
  · refine ⟨ds4TokenizeText vocab.toVocab content, rfl, ds4TokenizeText_text hv content, fun token h w hw => ?_⟩
    exact tokenizeText_plain hv hw h
  · have htext : (bpeTokenizeToolResponseText vocab.toVocab content).flatMap (ds4TokenText vocab.toVocab)
        = escapeWord (bytes "</tool_response>") (bytes "&lt;") (cString content) :=
      wrappedLoop_text hv List.not_mem_nil (zero_notMem_cString content)
    refine ⟨_, bpeTokenizeToolResponseText vocab.toVocab content, _, ?_, rfl, rendered_opening hv, rfl,
      rendered_closing hv, htext, fun back => ?_, fun token h w hw => ?_⟩
    · simp only [List.map_append]
      rfl
    · rw [List.flatMap_append, rendered_closing hv, htext, List.append_assoc]
      exact first_escapeWord (protects_entity rfl (by decide)) (by decide) _ _
    · exact wrappedLoop_plain hv hw h

/-- The bytes, and the control tokens of the two messages, which no merge makes. -/
def bareVocab : GlmVocab where
  token := [bytes "<|user|>", bytes "<|observation|>", bytes "</tool_response>"] ++
    (List.range 256).map fun b => byteSymbol (UInt8.ofNat b)
  merges := []
  bosId := none
  eosId := none

theorem bareVocab_complete : bareVocab.Complete where
  bytes b := List.mem_append_right _ (List.mem_map.mpr
    ⟨b.toNat, List.mem_range.mpr b.toNat_lt, by rw [UInt8.ofNat_toNat]⟩)
  merged _ _ h := absurd h List.not_mem_nil

/-- A user who writes the name of the user token, and a tool that writes the closing word: the message of the one has
a single user token, and the other one's text is closed where the wrapper closes it. -/
theorem payload_contained_sample :
    (∃ said : List Nat, ds4ChatAppendMessage bareVocab "user" (bytes "<|user|>") =
        pushId (vocabLookupOptional bareVocab "<|user|>") :: said.map Int.ofNat ∧ 0 ∉ said) ∧
    ∃ said closing : List Nat,
      said.flatMap (ds4TokenText bareVocab.toVocab) = bytes "a&lt;/tool_response>" ∧
      closing.flatMap (ds4TokenText bareVocab.toVocab) = bytes "</tool_response>" ∧
      First (Occurs (bytes "</tool_response>") ((said ++ closing).flatMap (ds4TokenText bareVocab.toVocab)))
        (some 20) := by
  constructor
  · obtain ⟨⟨said, hmessage, -, hplain⟩, -⟩ := payload_contained bareVocab bareVocab_complete (bytes "<|user|>")
    refine ⟨said, hmessage, fun hzero => ?_⟩
    apply hplain 0 hzero (bytes "<|user|>") _ rfl
    -- a byte is a character of at most two bytes
    rintro (⟨b, hb⟩ | ⟨a, b, hmerge, -⟩)
    · have hsymbol := byteSymbol_symbol b
      rw [← hb] at hsymbol
      cases hsymbol
    · exact absurd hmerge List.not_mem_nil
  · obtain ⟨-, opening, said, closing, -, -, -, -, hclosing, hsaid, hfirst, -⟩ :=
      payload_contained bareVocab bareVocab_complete (bytes "a</tool_response>")
    have hescaped : escapeWord (bytes "</tool_response>") (bytes "&lt;") (cString (bytes "a</tool_response>")) =
        bytes "a&lt;/tool_response>" := by decide
    rw [hescaped] at hsaid
    have hwhole := hfirst []
    rw [List.append_nil, hsaid] at hwhole
    exact ⟨said, closing, hsaid, hclosing, hwhole⟩

end Spark.Tokenizer
