import Spark.Server.JsonObject
import Spark.Server.ToolRender

/-!
# JSON values in a DSML parameter

A closing tag in a string of a JSON value is written with `\u003c`, which no reader of JSON tells from the
letter.

* **`read_appendDsmlJsonLiteral`** — the value reads the same.
-/

namespace Spark.Server

open Json Spark.Search

variable {limit : Nat} {state state' next : State} {xs : List UInt8} {j : Value}

/-- The spelling of `<` in a JSON string. -/
def spelledLess : List UInt8 := bytes "\\u003c"

theorem protects_spelled {word : List UInt8} (hhead : word.head? = some 0x3c) (honce : 0x3c ∉ word.tail) :
    Protects 0x3c 0x5c word spelledLess :=
  ⟨hhead, honce, rfl, by decide, by decide⟩

/-! ## Both spellings mean the letter -/

theorem decode_less (more : List UInt8) : Json.decode (0x3c :: more) = (Json.decode more).map (0x3c :: ·) := by
  rw [decode_cons, if_neg (by decide), if_neg (by decide)]

theorem decode_spelledLess (more : List UInt8) :
    Json.decode (spelledLess ++ more) = (Json.decode more).map (0x3c :: ·) := by
  have hescape : escape (bytes "u003c" ++ more) = some ([0x3c], more) := rfl
  show Json.decode (0x5c :: (bytes "u003c" ++ more)) = _
  rw [decode_cons, if_pos rfl, hescape]
  rfl

theorem apart_spelledLess (more : List UInt8) : Apart (spelledLess ++ more) := by
  refine ⟨fun b hb => ?_, fun unit h => ?_⟩
  · cases hb
    decide
  · have hunit : unicodeEscape (spelledLess ++ more) = some (0x3c, more) := rfl
    rw [hunit] at h
    cases h
    exact fun hlow => absurd hlow.1 (show ¬ 0xdc00 ≤ 0x3c by decide)

/-- Two texts that decode to the same, whatever follows. -/
structure SameText (raw raw' : List UInt8) (escaped : Bool) : Prop where
  scans : scan false raw = some escaped
  scans' : scan false raw' = some escaped
  same : ∀ more, Json.decode (raw ++ more) = Json.decode (raw' ++ more)

theorem sameText_nil : SameText [] [] false := ⟨rfl, rfl, fun _ => rfl⟩

theorem SameText.snoc {raw raw' : List UInt8} {escaped final : Bool} (h : SameText raw raw' escaped)
    {b : UInt8} (hb : scan escaped [b] = some final) : SameText (raw ++ [b]) (raw' ++ [b]) final := by
  refine ⟨?_, ?_, fun more => ?_⟩
  · rw [scan_append, h.scans]
    exact hb
  · rw [scan_append, h.scans']
    exact hb
  · rw [List.append_assoc, List.append_assoc]
    exact h.same _

theorem SameText.spelled {raw raw' : List UInt8} (h : SameText raw raw' false) :
    SameText (raw ++ [0x3c]) (raw' ++ spelledLess) false := by
  refine ⟨?_, ?_, fun more => ?_⟩
  · rw [scan_append, h.scans]
    rfl
  · rw [scan_append, h.scans']
    rfl
  · have hless : Apart ([0x3c] ++ more) := apart_cons rfl (by decide) (by decide) more
    have hfirst : Json.decode (raw ++ [0x3c] ++ more) = Json.decode (raw' ++ ([0x3c] ++ more)) := by
      rw [List.append_assoc]
      exact h.same _
    rw [hfirst, List.append_assoc, decode_append hless h.scans', decode_append (apart_spelledLess more) h.scans',
      decode_spelledLess]
    exact congrArg _ (funext fun s => congrArg _ (decode_less more))

/-! ## The reader -/

/-- The second state has read the same text in the other spelling. -/
inductive Alike : State → State → Prop where
  | same {s : State} (h : s.mode.quoted.1 = false) : Alike s s
  | string {raw raw' escaped stack} (h : SameText raw raw' escaped) :
      Alike ⟨.string raw escaped, stack⟩ ⟨.string raw' escaped, stack⟩
  | keyString {raw raw' escaped stack} (h : SameText raw raw' escaped) :
      Alike ⟨.keyString raw escaped, stack⟩ ⟨.keyString raw' escaped, stack⟩

/-- A string or a key begins empty. -/
theorem alike_self (hquoted : state.mode.quoted.1 = false) {b : UInt8} (h : Json.feed limit state b = some next) :
    Alike next next := by
  have hstart : ∀ {stack : List Frame}, startValue limit stack 0x22 = some next → Alike next next := by
    intro stack h
    cases h
    exact .string sameText_nil
  have hkey : ∀ {stack : List Frame}, startKey stack 0x22 = some next → Alike next next := by
    intro stack h
    cases h
    exact .keyString sameText_nil
  have hafter : ∀ {v : Value} {stack : List Frame}, ¬ afterValue v stack 0x22 = some next := by
    intro v stack h
    rcases stack with _ | ⟨_ | _, _⟩ <;> cases h
  have hmode := quoted_feed h
  rw [hquoted] at hmode
  by_cases hb : b = 0x22
  · subst hb
    obtain ⟨mode, stack⟩ := state
    cases mode with
    | value => exact hstart h
    | valueOrClose => exact hstart h
    | key => exact hkey h
    | keyOrClose => exact hkey h
    | colon => cases h
    | string raw escaped => cases hquoted
    | keyString raw escaped => cases hquoted
    | word w =>
      obtain ⟨v, -, h⟩ := Option.bind_eq_some_iff.mp h
      exact absurd h hafter
    | after v => exact absurd h hafter
  · refine .same ?_
    rw [hmode]
    simp [hb]

theorem Alike.feed (h : Alike state state') {b : UInt8} (hfeed : Json.feed limit state b = some next) :
    ∃ next', Json.feed limit state' b = some next' ∧ Alike next next' := by
  cases h with
  | same hquoted => exact ⟨next, hfeed, alike_self hquoted hfeed⟩
  | @string raw raw' escaped stack h =>
    cases escaped with
    | true =>
      cases hfeed
      exact ⟨_, rfl, .string (h.snoc rfl)⟩
    | false =>
      simp only [Json.feed, Bool.false_eq_true, if_false] at hfeed ⊢
      by_cases hb : b = 0x22
      · rw [if_pos hb] at hfeed ⊢
        obtain ⟨s, hs, rfl⟩ := Option.map_eq_some_iff.mp hfeed
        have hsame := h.same []
        rw [List.append_nil, List.append_nil, hs] at hsame
        exact ⟨_, by rw [← hsame]; rfl, .same rfl⟩
      · rw [if_neg hb] at hfeed ⊢
        cases hfeed
        exact ⟨_, rfl, .string (h.snoc (by simp [scan, hb]))⟩
  | @keyString raw raw' escaped stack h =>
    cases escaped with
    | true =>
      cases hfeed
      exact ⟨_, rfl, .keyString (h.snoc rfl)⟩
    | false =>
      simp only [Json.feed, Bool.false_eq_true, if_false] at hfeed ⊢
      by_cases hb : b = 0x22
      · rw [if_pos hb] at hfeed ⊢
        have hsame := h.same []
        rw [List.append_nil, List.append_nil] at hsame
        refine ⟨next, ?_, .same (by rw [quoted_closeKey hfeed])⟩
        unfold closeKey at hfeed ⊢
        rw [← hsame]
        exact hfeed
      · rw [if_neg hb] at hfeed ⊢
        cases hfeed
        exact ⟨_, rfl, .keyString (h.snoc (by simp [scan, hb]))⟩

theorem Alike.finish (h : Alike state state') (hfinish : finish state = some j) : Json.finish state' = some j := by
  cases h with
  | same => exact hfinish
  | string => cases hfinish
  | keyString => cases hfinish

/-- A backslash that is not escaped itself ends a text that is open behind it. -/
theorem scan_open {raw : List UInt8} (h : scan false raw = some true) :
    ∃ front, raw = front ++ [0x5c] ∧ scan false front = some false := by
  rcases List.eq_nil_or_concat raw with rfl | ⟨front, b, rfl⟩
  · cases h
  rw [List.concat_eq_append, scan_append] at h
  obtain ⟨escaped, hfront, hlast⟩ := Option.bind_eq_some_iff.mp h
  cases escaped with
  | true => cases hlast
  | false =>
    rw [scan] at hlast
    split at hlast
    · cases hlast
    · have hb := of_decide_eq_true (Option.some.inj hlast)
      exact ⟨front, by rw [hb, List.concat_eq_append], hfront⟩

/-- No text goes on behind a backslash with `<`. -/
theorem decode_open {raw : List UInt8} (h : scan false raw = some true) (more : List UInt8) :
    Json.decode (raw ++ [0x3c] ++ more) = none := by
  obtain ⟨front, rfl, hfront⟩ := scan_open h
  have hescape : escape (0x3c :: more) = none := rfl
  have hback : Json.decode (0x5c :: 0x3c :: more) = none := by
    rw [decode_cons, if_pos rfl, hescape]
  have hapart : Apart (0x5c :: 0x3c :: more) := by
    refine ⟨fun b hb => ?_, fun unit h => ?_⟩
    · cases hb
      decide
    · cases h
  have hsplit : front ++ [0x5c] ++ [0x3c] ++ more = front ++ 0x5c :: 0x3c :: more := by simp
  rw [hsplit, decode_append hapart hfront, hback]
  cases Json.decode front <;> rfl

/-- A key that is read to its end decodes. -/
theorem keyString_decodes {front : List UInt8} {escaped : Bool} {stack : List Frame}
    (h : Yields limit ⟨.keyString front escaped, stack⟩ xs j) : ∃ more s, Json.decode (front ++ more) = some s := by
  induction xs generalizing front escaped with
  | nil => cases h
  | cons b xs ih =>
    obtain ⟨next, hnext, h⟩ := yields_cons.mp h
    have hlater : ∀ {escaped}, Yields limit ⟨.keyString (front ++ [b]) escaped, stack⟩ xs j →
        ∃ more s, Json.decode (front ++ more) = some s := by
      intro escaped h
      obtain ⟨more, s, hdecode⟩ := ih h
      exact ⟨b :: more, s, by rw [List.append_cons]; exact hdecode⟩
    cases escaped with
    | true =>
      cases hnext
      exact hlater h
    | false =>
      simp only [Json.feed, Bool.false_eq_true, if_false] at hnext
      split at hnext
      · unfold closeKey at hnext
        split at hnext
        · obtain ⟨s, hs, -⟩ := Option.map_eq_some_iff.mp hnext
          exact ⟨[], s, by rw [List.append_nil]; exact hs⟩
        · cases hnext
      · cases hnext
        exact hlater h

theorem yields_spelled_string {raw : List UInt8} {stack : List Frame}
    (h : Yields limit ⟨.string (raw ++ spelledLess) false, stack⟩ xs j) :
    Yields limit ⟨.string raw false, stack⟩ (spelledLess ++ xs) j := by
  have hrun := @run_string_scan limit stack raw spelledLess false false rfl
  rw [Yields, run_append, hrun]
  exact h

theorem yields_spelled_key {raw : List UInt8} {stack : List Frame}
    (h : Yields limit ⟨.keyString (raw ++ spelledLess) false, stack⟩ xs j) :
    Yields limit ⟨.keyString raw false, stack⟩ (spelledLess ++ xs) j := by
  have hrun := @run_keyString_scan limit stack raw spelledLess false false rfl
  rw [Yields, run_append, hrun]
  exact h

/-- A word that opens with `<` stands in strings only, and there both spellings do. -/
theorem yields_escapeWord {word : List UInt8} (hword : Protects 0x3c 0x5c word spelledLess)
    (halike : Alike state state') (h : Yields limit state xs j) :
    Yields limit state' (escapeWord word spelledLess xs) j := by
  induction xs generalizing state state' with
  | nil =>
    rw [Yields, run_nil, Option.bind_some] at h
    exact halike.finish h
  | cons c xs ih =>
    obtain ⟨next, hnext, hyields⟩ := yields_cons.mp h
    rw [escapeWord]
    split
    case isTrue hat =>
      obtain ⟨rest, hrest⟩ := List.isPrefixOf_iff_prefix.mp hat
      rw [hword.word_eq, List.cons_append, List.cons.injEq] at hrest
      obtain ⟨rfl, -⟩ := hrest
      cases halike with
      | same hquoted =>
        rw [feed_eq_none hquoted rfl rfl rfl] at hnext
        cases hnext
      | @string raw raw' escaped stack hsame =>
        cases escaped with
        | true =>
          cases hnext
          obtain ⟨more, s, t, -, -, hdecode, -⟩ := string_spec hyields
          rw [decode_open hsame.scans] at hdecode
          cases hdecode
        | false =>
          cases hnext
          exact yields_spelled_string (ih (.string hsame.spelled) hyields)
      | @keyString raw raw' escaped stack hsame =>
        cases escaped with
        | true =>
          cases hnext
          obtain ⟨more, s, hdecode⟩ := keyString_decodes hyields
          rw [decode_open hsame.scans] at hdecode
          cases hdecode
        | false =>
          cases hnext
          exact yields_spelled_key (ih (.keyString hsame.spelled) hyields)
    case isFalse =>
      obtain ⟨next', hnext', halike'⟩ := halike.feed hnext
      exact yields_cons.mpr ⟨next', hnext', ih halike' hyields⟩

/-- The value reads the same. -/
theorem read_appendDsmlJsonLiteral (h : read limit xs = some j) :
    read limit (appendDsmlJsonLiteral xs) = some j :=
  yields_escapeWord (protects_spelled rfl (by decide)) (.same rfl) h

end Spark.Server
