import Spark.Lib.JsonNesting
import Spark.Server.JsonScalars

/-!
# Skipping and minifying JSON

`json_skip_value` goes down into a value where the JSON reader keeps a stack; wherever the reader finds
a value, the server skips it.

* **`jsonSkipValue_of_read`** — a JSON value is skipped up to the white space behind it.
* **`read_jsonMinifyRawValue`** — minifying a value does not change it.
-/

namespace Spark.Server

open Json

/-! ## Skipping a value -/

/-- What is left to read makes `value` of the whole text. -/
def Yields (limit : Nat) (state : State) (text : List UInt8) (value : Value) : Prop :=
  (run limit state text).bind finish = some value

variable {limit : Nat} {state : State} {stack : List Frame} {xs rest : List UInt8} {v j : Value}

theorem isspace_of_isWs {b : UInt8} (h : isWs b = true) : isspace b = true := by
  simp only [isWs, Bool.or_eq_true, decide_eq_true_eq] at h
  rcases h with ((h | h) | h) | h <;> subst h <;> rfl

theorem isspace_apart {b : UInt8} (h : isspace b = true) : isWordByte b = false ∧ isPunct b = false := by
  simp only [isspace, Bool.or_eq_true, Bool.and_eq_true, decide_eq_true_eq] at h
  rcases h with rfl | ⟨-, h⟩
  · decide
  · have hall : ∀ n < 14, isWordByte (UInt8.ofNat n) = false ∧ isPunct (UInt8.ofNat n) = false := by decide
    simpa using hall b.toNat (Nat.lt_succ_of_le h)

theorem isWs_of_not_isspace {b : UInt8} (h : isspace b = false) : isWs b = false := by
  by_contra hws
  rw [isspace_of_isWs (by simpa using hws)] at h
  cases h

theorem yields_cons {b : UInt8} :
    Yields limit state (b :: xs) j ↔ ∃ next, Json.feed limit state b = some next ∧ Yields limit next xs j := by
  simp only [Yields, run_cons, Option.bind_eq_some_iff]
  constructor
  · rintro ⟨final, ⟨next, hnext, hrun⟩, hfinal⟩
    exact ⟨next, hnext, final, hrun, hfinal⟩
  · rintro ⟨next, hnext, final, hrun, hfinal⟩
    exact ⟨final, ⟨next, hnext, hrun⟩, hfinal⟩

/-- White space where it may stand is skipped; what follows it is read in the same state. -/
theorem jsonWs_spec (hstay : ∀ b, isWs b = true → Json.feed limit state b = some state)
    (hquoted : state.mode.quoted.1 = false) (hfinish : finish state = none)
    (h : Yields limit state xs j) (rest : List UInt8) :
    ∃ c xs', jsonWs (xs ++ rest) = c :: (xs' ++ rest) ∧ c :: xs' <:+ xs ∧ isWs c = false ∧
      Yields limit state (c :: xs') j := by
  induction xs with
  | nil =>
    rw [Yields, run_nil, Option.bind_some, hfinish] at h
    cases h
  | cons b xs ih =>
    by_cases hb : isspace b = true
    · obtain ⟨next, hnext, h'⟩ := yields_cons.mp h
      have hws : isWs b = true := by
        by_contra hws
        rw [feed_eq_none hquoted (by simpa using hws) (isspace_apart hb).1 (isspace_apart hb).2] at hnext
        cases hnext
      rw [hstay b hws] at hnext
      cases hnext
      obtain ⟨c, xs', hskip, hsuffix, hc, hyields⟩ := ih h'
      refine ⟨c, xs', ?_, hsuffix.trans (List.suffix_cons b xs), hc, hyields⟩
      rw [← hskip]
      exact List.dropWhile_cons_of_pos hb
    · exact ⟨b, xs, List.dropWhile_cons_of_neg hb, List.suffix_rfl,
        isWs_of_not_isspace (by simpa using hb), h⟩

/-- What is skipped is white space. -/
theorem isspace_of_jsonWs {ws back : List UInt8} (h : jsonWs (ws ++ back) = back) :
    ∀ b ∈ ws, isspace b = true := by
  have hsplit := @List.takeWhile_append_dropWhile _ isspace (ws ++ back)
  rw [show (ws ++ back).dropWhile isspace = back from h, List.append_cancel_right_eq] at hsplit
  rw [← hsplit]
  exact fun b hb => List.all_eq_true.mp List.all_takeWhile b hb

/-- The bytes of a string up to its closing quote, in a state that collects them and closes with the string. -/
theorem quoted_spec (state : List UInt8 → Bool → Json.State) (close : List UInt8 → Json.State)
    (hopen : ∀ raw escaped, Json.finish (state raw escaped) = none)
    (hfeed : ∀ raw escaped b, Json.feed limit (state raw escaped) b =
      if escaped then some (state (raw ++ [b]) false)
      else if b = 0x22 then (Json.decode raw).map close
      else some (state (raw ++ [b]) (b = 0x5c)))
    {front : List UInt8} {escaped : Bool} (h : Yields limit (state front escaped) xs j) :
    ∃ raw s t, xs = raw ++ 0x22 :: t ∧ scan escaped raw = some false ∧ Json.decode (front ++ raw) = some s ∧
      Yields limit (close s) t j := by
  induction xs generalizing front escaped with
  | nil => exact absurd ((hopen front escaped).symm.trans h) (Option.some_ne_none j).symm
  | cons b xs ih =>
    obtain ⟨next, hnext, h⟩ := yields_cons.mp h
    rw [hfeed] at hnext
    cases escaped with
    | true =>
      cases hnext
      obtain ⟨raw, s, t, rfl, hscan, hdecode, hyields⟩ := ih h
      exact ⟨b :: raw, s, t, rfl, hscan, by simpa using hdecode, hyields⟩
    | false =>
      by_cases hb : b = 0x22
      · subst hb
        obtain ⟨s, hs, rfl⟩ := Option.map_eq_some_iff.mp hnext
        exact ⟨[], s, xs, rfl, rfl, by simpa using hs, h⟩
      · simp only [hb, if_false, Bool.false_eq_true] at hnext
        cases hnext
        obtain ⟨raw, s, t, rfl, hscan, hdecode, hyields⟩ := ih h
        exact ⟨b :: raw, s, t, rfl, by simpa [scan, hb] using hscan, by simpa using hdecode, hyields⟩

/-- A string in the text, up to its closing quote. -/
theorem string_spec {front : List UInt8} {escaped : Bool}
    (h : Yields limit ⟨.string front escaped, stack⟩ xs j) :
    ∃ raw s t, xs = raw ++ 0x22 :: t ∧ scan escaped raw = some false ∧ Json.decode (front ++ raw) = some s ∧
      Yields limit ⟨.after (.string s), stack⟩ t j :=
  quoted_spec (fun raw escaped => ⟨.string raw escaped, stack⟩) (fun s => ⟨.after (.string s), stack⟩)
    (fun _ _ => rfl) (fun _ _ _ => rfl) h

/-- A key in the text, up to its closing quote. -/
theorem keyString_spec {front old : List UInt8} {escaped : Bool} {members : List (List UInt8 × Value)}
    (h : Yields limit ⟨.keyString front escaped, .object members old :: stack⟩ xs j) :
    ∃ raw s t, xs = raw ++ 0x22 :: t ∧ scan escaped raw = some false ∧ Json.decode (front ++ raw) = some s ∧
      Yields limit ⟨.colon, .object members s :: stack⟩ t j :=
  quoted_spec (fun raw escaped => ⟨.keyString raw escaped, .object members old :: stack⟩)
    (fun s => ⟨.colon, .object members s :: stack⟩) (fun _ _ => rfl) (fun _ _ _ => rfl) h

/-- A word in the text, up to the byte that ends it. -/
theorem word_spec {front : List UInt8} (h : Yields limit ⟨.word front, stack⟩ xs j) :
    ∃ w t v, front ++ xs = w ++ t ∧ t <:+ xs ∧ wordValue w = some v ∧ Stops t ∧
      Yields limit ⟨.after v, stack⟩ t j := by
  induction xs generalizing front with
  | nil =>
    cases stack with
    | nil => exact ⟨front, [], j, rfl, List.suffix_rfl, h, by simp [Stops], rfl⟩
    | cons frame stack => cases h
  | cons b xs ih =>
    obtain ⟨next, hnext, hyields⟩ := yields_cons.mp h
    by_cases hb : isWordByte b = true
    · simp only [Json.feed, hb, if_true] at hnext
      cases hnext
      obtain ⟨w, t, v, hw, hsuffix, hrest⟩ := ih hyields
      exact ⟨w, t, v, by rw [← hw, List.append_cons], hsuffix.trans (List.suffix_cons b xs), hrest⟩
    · simp only [Json.feed, hb, if_false, Bool.false_eq_true] at hnext
      obtain ⟨v, hv, hafter⟩ := Option.bind_eq_some_iff.mp hnext
      exact ⟨front, b :: xs, v, rfl, List.suffix_rfl, hv, by simpa [Stops] using hb,
        yields_cons.mpr ⟨next, hafter, hyields⟩⟩

theorem Yields.stops_after (h : Yields limit ⟨.after v, stack⟩ xs j) : Stops xs := by
  cases xs with
  | nil => simp [Stops]
  | cons b xs =>
    obtain ⟨next, hnext, -⟩ := yields_cons.mp h
    intro c hc
    cases hc
    by_contra hb
    simp only [Json.feed, afterValue] at hnext
    split at hnext
    · next hws => exact hb (isWordByte_of_isWs hws)
    split at hnext
    · cases hnext
    all_goals
      split at hnext
      · next hpunct => exact hb (by rw [hpunct]; rfl)
      split at hnext
      · next hpunct => exact hb (by rw [hpunct]; rfl)
      · cases hnext
theorem jsonLit_of_head {b x : UInt8} {p lit : List UInt8} (h : b ≠ x) :
    jsonLit (b :: p) (x :: lit) = none := by
  have hne : (x == b) = false := beq_eq_false_iff_ne.mpr h.symm
  refine if_neg ?_
  show ¬ ((x == b) && _) = true
  rw [hne, Bool.false_and]
  exact Bool.false_ne_true

/-- A value without brackets is skipped whole. -/
theorem jsonSkipScalar_of_wordValue {w t : List UInt8} (ht : Stops t) (h : wordValue w = some v) :
    jsonSkipScalar (w ++ t) = some t := by
  unfold wordValue at h
  split at h
  · next hw => subst hw; rfl
  split at h
  · next hw => subst hw; rfl
  split at h
  · next hw => subst hw; rfl
  split at h
  · next hnumber =>
    have hstrtod := strtod_of_isNumber ht hnumber
    cases w with
    | nil => cases hnumber
    | cons b w =>
      have hhead : b ≠ 0x74 ∧ b ≠ 0x66 ∧ b ≠ 0x6e := by
        refine ⟨?_, ?_, ?_⟩
        all_goals
          rintro rfl
          cases hnumber
      rw [jsonSkipScalar, show bytes "true" = 0x74 :: bytes "rue" from rfl,
        show bytes "false" = 0x66 :: bytes "alse" from rfl, show bytes "null" = 0x6e :: bytes "ull" from rfl,
        List.cons_append, jsonLit_of_head hhead.1, jsonLit_of_head hhead.2.1, jsonLit_of_head hhead.2.2]
      exact hstrtod
  · cases h

/-- A value that is skipped up to `t`, where the reader has it; `kind` says more of it. -/
def Skips (skip : List UInt8 → Option (List UInt8)) (limit : Nat) (stack : List Frame)
    (xs rest : List UInt8) (j : Value) (kind : List UInt8 → Value → Prop) : Prop :=
  ∃ t v, skip (xs ++ rest) = some (t ++ rest) ∧ (t <:+ xs ∧ t.length < xs.length) ∧ kind t v ∧
    Yields limit ⟨.after v, stack⟩ t j

/-- Either that, or nothing is skipped. -/
def SkipsUnless (P : Prop) (skip : List UInt8 → Option (List UInt8)) (limit : Nat) (stack : List Frame)
    (xs rest : List UInt8) (j : Value) (kind : List UInt8 → Value → Prop) : Prop :=
  skip (xs ++ rest) = none ∧ P ∨ Skips skip limit stack xs rest j kind

/-- An array that begins with some elements, with more of a kind behind them. -/
def ArrayOf (Q : Value → Prop) (elements : List Value) (_ : List UInt8) (v : Value) : Prop :=
  ∃ later, v = .array (elements ++ later) ∧ ∀ e ∈ later, Q e

/-- An object that begins with some members, with more of a kind behind them. -/
def ObjectOf (Q : Value → Prop) (members : List (List UInt8 × Value)) (_ : List UInt8) (v : Value) : Prop :=
  ∃ later, v = .object (members ++ later) ∧ ∀ m ∈ later, Q m.2

/-- A string only where there is a quoted text for it, up to `t`. -/
def AsWritten (xs t : List UInt8) (v : Value) : Prop :=
  ∀ s, v = .string s → ∃ ws raw, xs = ws ++ 0x22 :: (raw ++ 0x22 :: t) ∧ (∀ b ∈ ws, isspace b = true) ∧
    scan false raw = some false ∧ Json.decode raw = some s

variable {P : Prop} {Q : Value → Prop} {skip : List UInt8 → Option (List UInt8)}
  {kind : List UInt8 → List UInt8 → Value → Prop}

theorem jsonSkipArrayLoop_spec {fuel : Nat} {elements : List Value}
    (hskip : ∀ xs elements, Yields limit ⟨.value, .array elements :: stack⟩ xs j →
      SkipsUnless P skip limit (.array elements :: stack) xs rest j (kind xs))
    (hkind : ∀ xs t v, kind xs t v → Q v)
    (hfuel : xs.length ≤ fuel) (h : Yields limit ⟨.value, .array elements :: stack⟩ xs j) :
    SkipsUnless P (jsonSkipArrayLoop skip fuel) limit stack xs rest j (ArrayOf Q elements) := by
  induction fuel generalizing xs elements with
  | zero =>
    rcases hskip xs elements h with ⟨-, hP⟩ | ⟨t, v, -, ht, -⟩
    · exact .inl ⟨rfl, hP⟩
    · have hlt := ht.2
      omega
  | succ fuel ih =>
    rcases hskip xs elements h with ⟨hnone, hP⟩ | ⟨t, v, hvalue, ht, hof, hyields⟩
    · exact .inl ⟨by simp only [jsonSkipArrayLoop, hnone], hP⟩
    obtain ⟨c, t', hws, hsuffix, hc, hyields⟩ :=
      jsonWs_spec (fun b hb => by rw [Json.feed, afterValue_ws hb]) rfl rfl hyields rest
    obtain ⟨next, hnext, hyields⟩ := yields_cons.mp hyields
    have hlength := hsuffix.length_le
    have hlt := ht.2
    have hbehind : t' <:+ xs := ((List.suffix_cons c t').trans hsuffix).trans ht.1
    rw [List.length_cons] at hlength
    simp only [Json.feed, afterValue, hc, Bool.false_eq_true, if_false] at hnext
    unfold SkipsUnless Skips
    simp only [jsonSkipArrayLoop, hvalue, hws]
    split at hnext
    · next hcomma =>
      cases hnext
      rcases ih (by omega) hyields with ⟨hnone, hP⟩ | ⟨t'', v', hloop, ht'', ⟨later, hlater, hQ⟩, hfinal⟩
      · exact .inl ⟨by simpa [hcomma] using hnone, hP⟩
      refine .inr ⟨t'', v', by simpa [hcomma] using hloop, ⟨ht''.1.trans hbehind, by omega⟩,
        ⟨v :: later, ?_, List.forall_mem_cons.mpr ⟨hkind _ _ _ hof, hQ⟩⟩, hfinal⟩
      rw [hlater, List.append_assoc]
      rfl
    split at hnext
    · next hclose =>
      cases hnext
      exact .inr ⟨t', _, by simp [hclose], ⟨hbehind, by omega⟩, ⟨[v], rfl, by simpa using hkind _ _ _ hof⟩, hyields⟩
    · cases hnext

theorem jsonSkipArray_spec
    (hskip : ∀ xs elements, Yields limit ⟨.value, .array elements :: stack⟩ xs j →
      SkipsUnless P skip limit (.array elements :: stack) xs rest j (kind xs))
    (hkind : ∀ xs t v, kind xs t v → Q v)
    (h : Yields limit ⟨.valueOrClose, .array [] :: stack⟩ xs j) :
    SkipsUnless P (jsonSkipArray skip) limit stack xs rest j (ArrayOf Q []) := by
  obtain ⟨c, t, hws, hsuffix, hc, hyields⟩ :=
    jsonWs_spec (fun b hb => by simp [Json.feed, hb]) rfl rfl h rest
  have hlength := hsuffix.length_le
  rw [List.length_cons] at hlength
  unfold SkipsUnless Skips
  simp only [jsonSkipArray, hws]
  by_cases hclose : c = 0x5d
  · obtain ⟨next, hnext, hyields⟩ := yields_cons.mp hyields
    simp only [Json.feed, hclose, Bool.false_eq_true, if_false, if_true, isWs_bracket] at hnext
    cases hnext
    exact .inr ⟨t, _, by simp [hclose], ⟨(List.suffix_cons c t).trans hsuffix, by omega⟩, ⟨[], rfl, by simp⟩,
      hyields⟩
  · -- The first element stands where the closing bracket might have.
    have hvalue : Yields limit ⟨.value, .array [] :: stack⟩ (c :: t) j := by
      obtain ⟨next, hnext, hyields⟩ := yields_cons.mp hyields
      refine yields_cons.mpr ⟨next, ?_, hyields⟩
      simpa [Json.feed, hc, hclose] using hnext
    rw [if_neg hclose]
    rcases @jsonSkipArrayLoop_spec _ _ (c :: t) rest j P Q skip kind ((t ++ rest).length + 1) [] hskip hkind
      (by simp) hvalue with hnone | ⟨t', v, hloop, ht', hof, hfinal⟩
    · exact .inl hnone
    · have hlt := ht'.2
      rw [List.length_cons] at hlt
      exact .inr ⟨t', v, hloop, ⟨ht'.1.trans hsuffix, by omega⟩, hof, hfinal⟩

theorem jsonSkipObjectLoop_spec {fuel : Nat} {members : List (List UInt8 × Value)} {old : List UInt8}
    (hskip : ∀ xs members key, Yields limit ⟨.value, .object members key :: stack⟩ xs j →
      SkipsUnless P skip limit (.object members key :: stack) xs rest j (kind xs))
    (hkind : ∀ xs t v, kind xs t v → Q v)
    (hfuel : xs.length ≤ fuel) (h : Yields limit ⟨.key, .object members old :: stack⟩ xs j) :
    SkipsUnless P (jsonSkipObjectLoop skip fuel) limit stack xs rest j (ObjectOf Q members) := by
  induction fuel generalizing xs members old with
  | zero =>
    cases xs with
    | nil => cases h
    | cons b xs => simp at hfuel
  | succ fuel ih =>
    obtain ⟨c, xs', hws, hsuffix, hc, hyields⟩ :=
      jsonWs_spec (fun b hb => by simp [Json.feed, hb]) rfl rfl h rest
    have hlength := hsuffix.length_le
    obtain ⟨next, hnext, hyields⟩ := yields_cons.mp hyields
    simp only [Json.feed, hc, startKey, Bool.false_eq_true, if_false] at hnext
    split at hnext
    case isFalse => cases hnext
    case isTrue hquote =>
      cases hnext
      subst hquote
      obtain ⟨raw, key, t, rfl, hscan, hdecode, hyields⟩ := keyString_spec hyields
      have hkey : jsonString (xs ++ rest) = some (cString key, t ++ rest) :=
        jsonString_of_jsonWs (by simpa using hws) hscan hdecode
      obtain ⟨colon, t₁, hws₁, hsuffix₁, hcolon, hyields⟩ :=
        jsonWs_spec (fun b hb => by simp [Json.feed, hb]) rfl rfl hyields rest
      obtain ⟨next, hnext, hyields⟩ := yields_cons.mp hyields
      simp only [Json.feed, hcolon, Bool.false_eq_true, if_false] at hnext
      split at hnext
      case isFalse => cases hnext
      case isTrue hcolon' =>
        cases hnext
        rcases hskip t₁ _ _ hyields with ⟨hnone, hP⟩ | ⟨t₂, v, hvalue, ht₂, hof, hyields⟩
        · left
          refine ⟨?_, hP⟩
          simp only [jsonSkipObjectLoop, hkey, hws₁, hcolon', ne_eq, not_true_eq_false, if_false, hnone]
        obtain ⟨c₃, t₃, hws₃, hsuffix₃, hc₃, hyields⟩ :=
          jsonWs_spec (fun b hb => by rw [Json.feed, afterValue_ws hb]) rfl rfl hyields rest
        obtain ⟨next, hnext, hyields⟩ := yields_cons.mp hyields
        have hlength₁ := hsuffix₁.length_le
        have hlength₃ := hsuffix₃.length_le
        have hlt := ht₂.2
        have hbehind : t₃ <:+ xs :=
          ((((((List.suffix_cons c₃ t₃).trans hsuffix₃).trans ht₂.1).trans
            (List.suffix_cons colon t₁)).trans hsuffix₁).trans
              ((List.suffix_cons 0x22 t).trans ((List.suffix_append raw _).trans
                (List.suffix_cons 0x22 _)))).trans hsuffix
        simp only [List.length_cons, List.length_append] at hlength hlength₁ hlength₃
        simp only [Json.feed, afterValue, hc₃, Bool.false_eq_true, if_false] at hnext
        unfold SkipsUnless Skips
        simp only [jsonSkipObjectLoop, hkey, hws₁, hcolon', ne_eq, not_true_eq_false, if_false, hvalue,
          hws₃]
        split at hnext
        · next hcomma =>
          cases hnext
          rcases ih (by omega) hyields with ⟨hnone, hP⟩ | ⟨t₄, v', hloop, ht₄, ⟨later, hlater, hQ⟩, hfinal⟩
          · exact .inl ⟨by simpa [hcomma] using hnone, hP⟩
          refine .inr ⟨t₄, v', by simpa [hcomma] using hloop, ⟨ht₄.1.trans hbehind, by omega⟩,
            ⟨(key, v) :: later, ?_, List.forall_mem_cons.mpr ⟨hkind _ _ _ hof, hQ⟩⟩, hfinal⟩
          rw [hlater, List.append_assoc]
          rfl
        split at hnext
        · next hclose =>
          cases hnext
          exact .inr ⟨t₃, _, by simp [hclose], ⟨hbehind, by omega⟩, ⟨[(key, v)], rfl, by simpa using hkind _ _ _ hof⟩,
            hyields⟩
        · cases hnext

theorem jsonSkipObject_spec
    (hskip : ∀ xs members key, Yields limit ⟨.value, .object members key :: stack⟩ xs j →
      SkipsUnless P skip limit (.object members key :: stack) xs rest j (kind xs))
    (hkind : ∀ xs t v, kind xs t v → Q v)
    (h : Yields limit ⟨.keyOrClose, .object [] [] :: stack⟩ xs j) :
    SkipsUnless P (jsonSkipObject skip) limit stack xs rest j (ObjectOf Q []) := by
  obtain ⟨c, t, hws, hsuffix, hc, hyields⟩ :=
    jsonWs_spec (fun b hb => by simp [Json.feed, hb]) rfl rfl h rest
  have hlength := hsuffix.length_le
  rw [List.length_cons] at hlength
  unfold SkipsUnless Skips
  simp only [jsonSkipObject, hws]
  by_cases hclose : c = 0x7d
  · obtain ⟨next, hnext, hyields⟩ := yields_cons.mp hyields
    simp only [Json.feed, hclose, Bool.false_eq_true, if_false, if_true, isWs_brace] at hnext
    cases hnext
    exact .inr ⟨t, _, by simp [hclose], ⟨(List.suffix_cons c t).trans hsuffix, by omega⟩, ⟨[], rfl, by simp⟩,
      hyields⟩
  · -- The first key stands where the closing brace might have.
    have hkey : Yields limit ⟨.key, .object [] [] :: stack⟩ (c :: t) j := by
      obtain ⟨next, hnext, hyields⟩ := yields_cons.mp hyields
      refine yields_cons.mpr ⟨next, ?_, hyields⟩
      simpa [Json.feed, hc, hclose] using hnext
    rw [if_neg hclose]
    rcases @jsonSkipObjectLoop_spec _ _ (c :: t) rest j P Q skip kind ((t ++ rest).length + 1) [] [] hskip hkind
      (by simp) hkey with hnone | ⟨t', v, hloop, ht', hof, hfinal⟩
    · exact .inl hnone
    · have hlt := ht'.2
      rw [List.length_cons] at hlt
      exact .inr ⟨t', v, hloop, ⟨ht'.1.trans hsuffix, by omega⟩, hof, hfinal⟩

theorem Stops.append {t : List UInt8} (h : Stops t) (hrest : Stops rest) : Stops (t ++ rest) := by
  cases t with
  | nil => exact hrest
  | cons b t => exact h

theorem wordValue_ne_string {w s : List UInt8} : wordValue w ≠ some (.string s) := by
  unfold wordValue
  split_ifs <;> simp

/-- Where the reader has a value, `json_skip_value_depth` ends with it, or it runs out of levels; a value that
it ends with is within them. -/
theorem jsonSkipValueDepth_or {levels bound : Nat} (hbound : stack.length + levels = bound)
    (hdeep : bound < limit → P) (hrest : Stops rest) (h : Yields limit ⟨.value, stack⟩ xs j) :
    SkipsUnless P (jsonSkipValueDepth levels) limit stack xs rest j
      fun t v => AsWritten xs t v ∧ v.Within levels := by
  induction levels using Nat.strongRecOn generalizing stack xs with
  | ind levels ih =>
    obtain ⟨c, t, hws, hsuffix, hc, hyields⟩ :=
      jsonWs_spec (fun b hb => by simp [Json.feed, hb]) rfl rfl h rest
    obtain ⟨next, hnext, hyields⟩ := yields_cons.mp hyields
    have hlength := hsuffix.length_le
    have hbehind : t <:+ xs := (List.suffix_cons c t).trans hsuffix
    simp only [Json.feed, hc, startValue, Bool.false_eq_true, if_false] at hnext
    unfold SkipsUnless Skips
    unfold jsonSkipValueDepth
    simp only [hws]
    split at hnext
    · next hquote =>
      cases hnext
      subst hquote
      obtain ⟨raw, s, t', rfl, hscan, hdecode, hyields⟩ := string_spec hyields
      have hstring : jsonString (0x22 :: (raw ++ 0x22 :: (t' ++ rest))) = some (cString s, t' ++ rest) :=
        jsonString_of_jsonWs (by simp [jsonWs, isspace]) hscan hdecode
      have hbehind : t' <:+ xs := ((List.suffix_cons 0x22 t').trans ((List.suffix_append raw _).trans
        (List.suffix_cons 0x22 _))).trans hsuffix
      simp only [List.length_cons, List.length_append] at hlength
      refine .inr ⟨t', _, by simp [hstring], ⟨hbehind, by omega⟩, ⟨?_, .string⟩, hyields⟩
      rintro _ ⟨⟩
      obtain ⟨ws, rfl⟩ := hsuffix
      rw [List.append_assoc] at hws
      exact ⟨ws, raw, rfl, isspace_of_jsonWs (by simpa using hws), hscan, hdecode⟩
    split at hnext
    · next hbracket =>
      split at hnext
      case isFalse => cases hnext
      case isTrue hlt =>
        cases hnext
        cases levels with
        | zero => exact .inl ⟨by simp [hbracket], hdeep (by omega)⟩
        | succ l =>
          have hinside := @jsonSkipArray_spec limit stack t rest j P (Value.Within l) (jsonSkipValueDepth l) _
            (fun xs elements hxs => ih l (Nat.lt_succ_self l) (by simp; omega) hxs) (fun _ _ _ h => h.2) hyields
          rcases hinside with ⟨hnone, hP⟩ | ⟨t', v, hskip, ht', ⟨later, rfl, hlater⟩, hyields⟩
          · exact .inl ⟨by simpa [hbracket] using hnone, hP⟩
          rw [List.length_cons] at hlength
          have hlt := ht'.2
          refine .inr ⟨t', _, by simpa [hbracket] using hskip, ⟨ht'.1.trans hbehind, by omega⟩, ⟨?_, .array hlater⟩,
            hyields⟩
          intro s hs
          cases hs
    split at hnext
    · next hbrace =>
      split at hnext
      case isFalse => cases hnext
      case isTrue hlt =>
        cases hnext
        cases levels with
        | zero => exact .inl ⟨by simp [hbrace], hdeep (by omega)⟩
        | succ l =>
          have hinside := @jsonSkipObject_spec limit stack t rest j P (Value.Within l) (jsonSkipValueDepth l) _
            (fun xs members key hxs => ih l (Nat.lt_succ_self l) (by simp; omega) hxs) (fun _ _ _ h => h.2) hyields
          rcases hinside with ⟨hnone, hP⟩ | ⟨t', v, hskip, ht', ⟨later, rfl, hlater⟩, hyields⟩
          · exact .inl ⟨by simpa [hbrace] using hnone, hP⟩
          rw [List.length_cons] at hlength
          have hlt := ht'.2
          refine .inr ⟨t', _, by simpa [hbrace] using hskip, ⟨ht'.1.trans hbehind, by omega⟩, ⟨?_, .object hlater⟩,
            hyields⟩
          intro s hs
          cases hs
    split at hnext
    · next hquote hbracket hbrace hword =>
      cases hnext
      obtain ⟨w, t', v, hw, hsuffix', hvalue, hstops, hyields⟩ := word_spec hyields
      rw [List.singleton_append] at hw
      have hscalar := jsonSkipScalar_of_wordValue (hstops.append hrest) hvalue
      have hlength' := hsuffix'.length_le
      rw [← List.append_assoc, ← hw] at hscalar
      rw [List.length_cons] at hlength
      refine .inr ⟨t', v, by simpa [hquote, hbracket, hbrace] using hscalar, ⟨hsuffix'.trans hbehind, by omega⟩,
        ⟨?_, wordValue_within hvalue⟩, hyields⟩
      rintro s rfl
      exact absurd hvalue wordValue_ne_string
    · cases hnext

/-- With as many levels as the reader has, it ends with the value. -/
theorem jsonSkipValueDepth_spec {levels : Nat} (hlimit : stack.length + levels = limit)
    (hrest : Stops rest) (h : Yields limit ⟨.value, stack⟩ xs j) :
    Skips (jsonSkipValueDepth levels) limit stack xs rest j (AsWritten xs) := by
  rcases @jsonSkipValueDepth_or limit stack xs rest j False levels limit hlimit (Nat.lt_irrefl _) hrest h with
    ⟨-, ⟨⟩⟩ | ⟨t, v, hskip, ht, hof, hyields⟩
  exact ⟨t, v, hskip, ht, hof.1, hyields⟩

/-! ## Behind a value -/

/-- Behind a whole value only white space is left. -/
theorem Yields.after (h : Yields limit ⟨.after v, []⟩ xs j) : j = v ∧ ∀ b ∈ xs, isWs b = true := by
  induction xs with
  | nil => exact ⟨by cases h; rfl, by simp⟩
  | cons b xs ih =>
    obtain ⟨next, hnext, hyields⟩ := yields_cons.mp h
    simp only [Json.feed, afterValue] at hnext
    split at hnext
    · next hws =>
      cases hnext
      obtain ⟨hj, hall⟩ := ih hyields
      exact ⟨hj, by simpa [hws] using hall⟩
    · cases hnext

/-- The members behind a member's value are those of the object. -/
theorem Yields.members {members : List (List UInt8 × Value)} {key : List UInt8}
    (hlimit : 0 < limit) (h : Yields limit ⟨.after v, [.object members key]⟩ xs j) :
    ∃ later, j = .object (members ++ (key, v) :: later) := by
  have hskip : ∀ xs' members' key', Yields limit ⟨.value, [.object members' key']⟩ xs' j →
      SkipsUnless False (jsonSkipValueDepth (limit - 1)) limit [.object members' key'] xs' [] j (AsWritten xs') := by
    intro xs' members' key' hxs
    exact .inr (jsonSkipValueDepth_spec (by simp; omega) (by simp [Stops]) hxs)
  obtain ⟨c, t, -, -, hc, hyields⟩ := jsonWs_spec (fun b hb => by rw [Json.feed, afterValue_ws hb]) rfl rfl h []
  obtain ⟨next, hnext, hyields⟩ := yields_cons.mp hyields
  simp only [Json.feed, afterValue, hc, Bool.false_eq_true, if_false] at hnext
  split at hnext
  case isTrue =>
    cases hnext
    rcases @jsonSkipObjectLoop_spec _ _ _ _ _ _ (fun _ => True) _ _ _ _ _ hskip (fun _ _ _ _ => trivial)
      (Nat.le_refl _) hyields with ⟨-, ⟨⟩⟩ | ⟨_, _, -, -, ⟨later, rfl, -⟩, hfinal⟩
    exact ⟨later, by rw [hfinal.after.1, List.append_assoc]; rfl⟩
  split at hnext
  case isTrue =>
    cases hnext
    exact ⟨[], hyields.after.1⟩
  case isFalse => cases hnext

/-- A JSON value is skipped up to the white space behind it, if it is skipped at all, and then the server has
levels enough for it. -/
theorem jsonSkipValue_of_some (hrest : Stops rest) (h : read limit xs = some j) {r : List UInt8}
    (hskip : jsonSkipValue (xs ++ rest) = some r) :
    ∃ t, r = t ++ rest ∧ (t <:+ xs ∧ t.length < xs.length) ∧ (∀ b ∈ t, isWs b = true) ∧
      j.Within jsonMaxNesting := by
  rcases @jsonSkipValueDepth_or limit [] xs rest j True jsonMaxNesting _ (Nat.zero_add _) (fun _ => trivial) hrest h
    with ⟨hnone, -⟩ | ⟨t, v, hskip', ht, ⟨-, hwithin⟩, hyields⟩
  · rw [jsonSkipValue, hnone] at hskip
    cases hskip
  · obtain ⟨rfl, hws⟩ := hyields.after
    exact ⟨t, (Option.some.inj (hskip'.symm.trans hskip)).symm, ht, hws, hwithin⟩

/-- With few enough brackets, it is. -/
theorem jsonSkipValue_of_read (hrest : Stops rest) (h : read jsonMaxNesting xs = some j) :
    ∃ t, jsonSkipValue (xs ++ rest) = some (t ++ rest) ∧ (t <:+ xs ∧ t.length < xs.length) ∧
      ∀ b ∈ t, isWs b = true := by
  obtain ⟨t, v, hskip, ht, -, hyields⟩ :=
    @jsonSkipValueDepth_spec jsonMaxNesting [] xs rest j jsonMaxNesting (Nat.zero_add _) hrest h
  exact ⟨t, hskip, ht, hyields.after.2⟩

/-- A value that is read with the server's levels is within them. -/
theorem within_of_read (h : read jsonMaxNesting xs = some j) : j.Within jsonMaxNesting := by
  have hnil : Stops [] := by simp [Stops]
  obtain ⟨t, hskip, -⟩ := jsonSkipValue_of_read hnil h
  obtain ⟨-, -, -, -, hwithin⟩ := jsonSkipValue_of_some hnil h hskip
  exact hwithin

/-! ## Minifying a value -/

theorem Holds.not_quoted (h : Holds state v stack) : state.mode.quoted.1 = false := by
  rcases h with h | ⟨w, h, -⟩ <;> subst h <;> rfl

/-- White space at the end says nothing. -/
theorem finish_of_ws (hws : ∀ b ∈ xs, isWs b = true) (h : Yields limit state xs j) :
    finish state = some j := by
  induction xs generalizing state with
  | nil => exact h
  | cons b xs ih =>
    obtain ⟨next, hnext, hyields⟩ := yields_cons.mp h
    have hb := hws b List.mem_cons_self
    have hholds := finish_eq_some.mp (ih (fun b hb => hws b (List.mem_cons_of_mem _ hb)) hyields)
    have hquoted : state.mode.quoted.1 = false := by
      by_contra hinside
      have hquoted := quoted_feed hnext
      have hne : b ≠ 0x22 := by
        rintro rfl
        cases hb
      rw [if_pos (by simpa using hinside)] at hquoted
      have hnot := Holds.not_quoted hholds
      rw [hquoted] at hnot
      split at hnot
      · cases hnot
      · simp [hne] at hnot
    rcases feed_ws hquoted hb hnext with rfl | ⟨v, stack, rfl, hstate⟩
    · exact finish_eq_some.mpr hholds
    · rcases hholds with h | ⟨w, h, -⟩ <;> cases h
      exact finish_eq_some.mpr hstate

theorem read_of_append_ws {t : List UInt8} (hws : ∀ b ∈ t, isWs b = true)
    (h : read limit (xs ++ t) = some j) : read limit xs = some j := by
  rw [Json.read, run_append, Option.bind_assoc] at h
  obtain ⟨state, hrun, hyields⟩ := Option.bind_eq_some_iff.mp h
  rw [Json.read, hrun]
  exact finish_of_ws hws hyields

/-- White space at the front says nothing. -/
theorem read_jsonWs (h : read limit xs = some j) (rest : List UInt8) :
    ∃ c xs', jsonWs (xs ++ rest) = c :: (xs' ++ rest) ∧ isWs c = false ∧
      read limit (c :: xs') = some j := by
  obtain ⟨c, xs', hskip, -, hc, hyields⟩ :=
    @jsonWs_spec limit ⟨.value, []⟩ xs j (fun b hb => by simp [Json.feed, hb]) rfl rfl h rest
  exact ⟨c, xs', hskip, hc, hyields⟩

/-- The value as it is written, from its first byte to its last, where the server has levels enough for it. -/
theorem jsonRawValue_or (hrest : Stops rest) (h : Json.read limit xs = some j) :
    jsonRawValue (xs ++ rest) = none ∧ ¬ j.Within jsonMaxNesting ∨
      ∃ raw t, jsonRawValue (xs ++ rest) = some (raw, t ++ rest) ∧ (∀ b ∈ t, isWs b = true) ∧
        Json.read limit raw = some j ∧ j.Within jsonMaxNesting := by
  obtain ⟨c, xs', hstart, -, hread⟩ := read_jsonWs h rest
  simp only [jsonRawValue, hstart]
  cases hskip : jsonSkipValue (c :: (xs' ++ rest)) with
  | none =>
    refine .inl ⟨rfl, fun hwithin => ?_⟩
    obtain ⟨t, hsome, -⟩ := jsonSkipValue_of_read hrest (read_of_within hread hwithin)
    rw [List.cons_append, hskip] at hsome
    cases hsome
  | some r =>
    obtain ⟨t, rfl, ⟨⟨raw, hraw⟩, -⟩, hws, hwithin⟩ := jsonSkipValue_of_some hrest hread hskip
    refine .inr ⟨raw, t, ?_, hws, read_of_append_ws hws (by rw [hraw]; exact hread), hwithin⟩
    simp only [Option.map_some, Option.some.injEq, Prod.mk.injEq, and_true]
    rw [← List.cons_append, ← hraw, List.append_assoc]
    simp

/-- Minifying a value does not change it. -/
theorem read_jsonMinifyRawValue (h : Json.read limit xs = some j) :
    Json.read limit (jsonMinifyRawValue xs) = some j := by
  obtain ⟨c, xs', hstart, -, hread⟩ := read_jsonWs h []
  rw [List.append_nil, List.append_nil] at hstart
  rw [jsonMinifyRawValue]
  simp only [hstart]
  cases hskip : jsonSkipValue (c :: xs') with
  | none => exact h
  | some r =>
    rw [← List.append_nil (c :: xs')] at hskip
    obtain ⟨t, rfl, ⟨⟨raw, hraw⟩, -⟩, hws, -⟩ := jsonSkipValue_of_some (by simp [Stops]) hread hskip
    dsimp only
    rw [List.append_nil, ← hraw, List.length_append, Nat.add_sub_cancel, List.take_left]
    refine read_strip (fun b => isspace_of_isWs) (fun b => isspace_apart) (read_of_append_ws hws ?_)
    rwa [hraw]

end Spark.Server
