import Spark.Lib.Json

/-!
# Strings of a JSON text

What stands between the quotes of a string is decoded piece by piece, and no escape reaches beyond the place
where a new piece begins.

* **`decode_append`** — the parts of a string decode to the parts of what it means.
* **`special_decode`** — a string takes a backslash for every backslash and every quote in it.
-/

namespace Spark.Json

/-! ## Escapes -/

/-- What no escape in front of it goes on with. -/
structure Apart (tail : List UInt8) : Prop where
  head : ∀ b ∈ tail.head?, hexDigit b = none ∧ b ≠ 0x75
  low : ∀ unit, unicodeEscape tail = some unit → ¬ (0xdc00 ≤ unit.1 ∧ unit.1 ≤ 0xdfff)

variable {xs ys tail decoded : List UInt8} {unit : Nat}

theorem apart_cons {b : UInt8} (hhex : hexDigit b = none) (hunicode : b ≠ 0x75) (hescape : b ≠ 0x5c)
    (rest : List UInt8) : Apart (b :: rest) := by
  refine ⟨fun c hc => ?_, fun unit h => ?_⟩
  · cases hc
    exact ⟨hhex, hunicode⟩
  · cases rest with
    | nil => cases h
    | cons c rest =>
      rw [unicodeEscape, if_neg fun hbc => hescape hbc.1] at h
      cases h

theorem hexDigit_ne {b : UInt8} (h : (hexDigit b).isSome) : b ≠ 0x22 ∧ b ≠ 0x5c := by
  constructor
  all_goals
    intro hb
    subst hb
    cases h

theorem hex4_eq_some (h : hex4 xs = some (unit, ys)) :
    ∃ a b c d, xs = a :: b :: c :: d :: ys ∧ (hexDigit a).isSome ∧ (hexDigit b).isSome ∧
      (hexDigit c).isSome ∧ (hexDigit d).isSome := by
  match xs, h with
  | a :: b :: c :: d :: rest, h =>
    simp only [hex4, Option.bind_eq_bind, Option.bind_eq_some_iff, Option.some.injEq, Prod.mk.injEq] at h
    obtain ⟨_, ha, _, hb, _, hc, _, hd, -, rfl⟩ := h
    exact ⟨a, b, c, d, rfl, by simp [ha], by simp [hb], by simp [hc], by simp [hd]⟩

theorem scan_hex4 (h : hex4 xs = some (unit, ys)) : scan false xs = scan false ys := by
  obtain ⟨a, b, c, d, rfl, ha, hb, hc, hd⟩ := hex4_eq_some h
  simp [scan, hexDigit_ne ha, hexDigit_ne hb, hexDigit_ne hc, hexDigit_ne hd]

theorem hex4_append (htail : ∀ b ∈ tail.head?, hexDigit b = none) (xs : List UInt8) :
    hex4 (xs ++ tail) = (hex4 xs).map fun unit => (unit.1, unit.2 ++ tail) := by
  cases tail with
  | nil => cases h : hex4 xs <;> simp [h]
  | cons b t =>
    have hb := htail b rfl
    match xs with
    | [] => rcases t with _ | ⟨_, _ | ⟨_, _ | ⟨_, _⟩⟩⟩ <;> simp [hex4, hb]
    | [a] => rcases t with _ | ⟨_, _ | ⟨_, _⟩⟩ <;> simp [hex4, hb]
    | [a, b] => rcases t with _ | ⟨_, _⟩ <;> simp [hex4, hb]
    | [a, b, c] => simp [hex4, hb]
    | a :: b :: c :: d :: rest =>
      simp only [hex4, List.cons_append, Option.bind_eq_bind]
      cases hexDigit a <;> cases hexDigit b <;> cases hexDigit c <;> cases hexDigit d <;> rfl

theorem unicodeEscape_append (htail : Apart tail) (hne : xs ≠ []) :
    unicodeEscape (xs ++ tail) = (unicodeEscape xs).map fun unit => (unit.1, unit.2 ++ tail) := by
  match xs, hne with
  | [a], _ =>
    cases tail with
    | nil => rfl
    | cons b t =>
      show unicodeEscape (a :: b :: t) = none
      rw [unicodeEscape, if_neg fun hab => (htail.head b rfl).2 hab.2]
  | a :: b :: rest, _ =>
    simp only [List.cons_append, unicodeEscape]
    split
    · exact hex4_append (fun b hb => (htail.head b hb).1) rest
    · rfl

theorem scan_unicodeEscape (h : unicodeEscape xs = some (unit, ys)) : scan false xs = scan false ys := by
  match xs, h with
  | a :: b :: rest, h =>
    simp only [unicodeEscape] at h
    split at h
    · next hab =>
      obtain ⟨rfl, rfl⟩ := hab
      show scan false rest = scan false ys
      exact scan_hex4 h
    · cases h

theorem length_unicodeEscape (h : unicodeEscape xs = some (unit, ys)) : ys.length ≤ xs.length := by
  match xs, h with
  | a :: b :: rest, h =>
    simp only [unicodeEscape] at h
    split at h
    · obtain ⟨_, _, _, _, rfl, -⟩ := hex4_eq_some h
      simp
      omega
    · cases h

theorem surrogate_append (htail : Apart tail) (unit : Nat) (xs : List UInt8) :
    surrogate unit (xs ++ tail) = ((surrogate unit xs).1, (surrogate unit xs).2 ++ tail) := by
  unfold surrogate
  by_cases hhigh : 0xd800 ≤ unit ∧ unit ≤ 0xdbff
  · simp only [if_pos hhigh]
    by_cases hne : xs = []
    · -- the escape is over, and what follows is no second half of it
      subst hne
      rw [List.nil_append]
      cases hlow : unicodeEscape tail with
      | none => rfl
      | some low =>
        simp only [if_neg (htail.low low hlow)]
        rfl
    · rw [unicodeEscape_append htail hne]
      cases unicodeEscape xs with
      | none => rfl
      | some low =>
        by_cases hrange : 0xdc00 ≤ low.1 ∧ low.1 ≤ 0xdfff
        · simp only [Option.map_some, if_pos hrange]
        · simp only [Option.map_some, if_neg hrange]
  · simp only [if_neg hhigh]

/-- A surrogate escape ends outside of an escape. -/
theorem surrogate_spec (unit : Nat) (xs : List UInt8) :
    scan false (surrogate unit xs).2 = scan false xs ∧ (surrogate unit xs).2.length ≤ xs.length := by
  unfold surrogate
  by_cases hhigh : 0xd800 ≤ unit ∧ unit ≤ 0xdbff
  · simp only [if_pos hhigh]
    cases hlow : unicodeEscape xs with
    | none => exact ⟨rfl, Nat.le_refl _⟩
    | some low =>
      by_cases hrange : 0xdc00 ≤ low.1 ∧ low.1 ≤ 0xdfff
      · simp only [if_pos hrange]
        exact ⟨(scan_unicodeEscape hlow).symm, length_unicodeEscape hlow⟩
      · simp only [if_neg hrange]
        exact ⟨trivial, Nat.le_refl _⟩
  · simp only [if_neg hhigh]
    exact ⟨trivial, Nat.le_refl _⟩

theorem escape_append (htail : Apart tail) (hne : xs ≠ []) :
    escape (xs ++ tail) = (escape xs).map fun out => (out.1, out.2 ++ tail) := by
  obtain ⟨c, rest, rfl⟩ := List.exists_cons_of_ne_nil hne
  simp only [List.cons_append, escape]
  split
  · rfl
  split
  · rfl
  split
  · rfl
  split
  · rfl
  split
  · rfl
  split
  · rfl
  split
  · rw [hex4_append (fun b hb => (htail.head b hb).1)]
    cases hex4 rest with
    | none => rfl
    | some unit => exact congrArg some (surrogate_append htail unit.1 unit.2)
  · rfl

theorem escape_spec (h : escape xs = some (decoded, ys)) : scan true xs = scan false ys ∧ ys.length < xs.length := by
  cases xs with
  | nil => cases h
  | cons c rest =>
    simp only [escape, scan, List.length_cons] at h ⊢
    by_cases hunicode : c = 0x75
    · subst hunicode
      have hnot : ¬ ((0x75 : UInt8) = 0x22 ∨ (0x75 : UInt8) = 0x5c ∨ (0x75 : UInt8) = 0x2f) := by decide
      have hne : ¬ (0x75 : UInt8) = 0x62 ∧ ¬ (0x75 : UInt8) = 0x66 ∧ ¬ (0x75 : UInt8) = 0x6e ∧
          ¬ (0x75 : UInt8) = 0x72 ∧ ¬ (0x75 : UInt8) = 0x74 := by decide
      simp only [if_neg hnot, if_neg hne.1, if_neg hne.2.1, if_neg hne.2.2.1, if_neg hne.2.2.2.1,
        if_neg hne.2.2.2.2, if_true, Option.map_eq_some_iff] at h ⊢
      obtain ⟨unit, hunit, h⟩ := h
      obtain ⟨hscan, hlength⟩ := surrogate_spec unit.1 unit.2
      rw [h] at hscan hlength
      obtain ⟨_, _, _, _, rfl, -⟩ := hex4_eq_some hunit
      refine ⟨(scan_hex4 hunit).trans hscan.symm, ?_⟩
      simp at hlength ⊢
      omega
    · simp only [hunicode, if_false] at h
      split_ifs at h <;> cases h <;> simp

/-! ## Decoding -/

/-- More turns than bytes make no difference. -/
theorem decodeFuel_eq {fuel : Nat} (h : xs.length ≤ fuel) : decodeFuel fuel xs = decode xs := by
  suffices hall : ∀ (n : Nat) (xs : List UInt8) (fuel fuel' : Nat), xs.length = n → n ≤ fuel → n ≤ fuel' →
      decodeFuel fuel xs = decodeFuel fuel' xs from hall _ _ _ _ rfl h (Nat.le_refl _)
  intro n
  induction n using Nat.strongRecOn with
  | ind n ih =>
    intro xs fuel fuel' hn hfuel hfuel'
    cases xs with
    | nil => cases fuel <;> cases fuel' <;> rfl
    | cons c rest =>
      rw [List.length_cons] at hn
      obtain ⟨fuel, rfl⟩ : ∃ k, fuel = k + 1 := ⟨fuel - 1, by omega⟩
      obtain ⟨fuel', rfl⟩ : ∃ k, fuel' = k + 1 := ⟨fuel' - 1, by omega⟩
      rw [decodeFuel, decodeFuel]
      split
      · cases hescape : escape rest with
        | none => rfl
        | some out =>
          have hlength := (escape_spec hescape).2
          simp only
          rw [ih _ (by omega) _ fuel fuel' rfl (by omega) (by omega)]
      · rw [ih rest.length (by omega) rest fuel fuel' rfl (by omega) (by omega)]

theorem decode_nil : decode [] = some [] := rfl

theorem decode_cons (c : UInt8) (rest : List UInt8) : decode (c :: rest) =
    if c = 0x5c then
      match escape rest with
      | none => none
      | some (decoded, rest) => (decode rest).map (decoded ++ ·)
    else if c < 0x20 then none
    else (decode rest).map (c :: ·) := by
  rw [decode, List.length_cons, decodeFuel]
  cases hescape : escape rest with
  | none => rfl
  | some out =>
    have hlength := (escape_spec hescape).2
    simp only
    rw [decodeFuel_eq (Nat.le_of_lt hlength)]
    rfl

/-- The parts of a string decode to the parts of what it means. -/
theorem decode_append (htail : Apart tail) (hscan : scan false xs = some false) :
    decode (xs ++ tail) = (decode xs).bind fun s => (decode tail).map (s ++ ·) := by
  induction hlength : xs.length using Nat.strongRecOn generalizing xs with
  | ind n ih =>
    cases xs with
    | nil => simp [decode_nil]
    | cons c rest =>
      rw [List.length_cons] at hlength
      rw [List.cons_append, decode_cons, decode_cons]
      rw [scan] at hscan
      split at hscan
      · cases hscan
      by_cases hc : c = 0x5c
      · simp only [hc, if_true, decide_true] at hscan ⊢
        cases rest with
        | nil => cases hscan
        | cons d rest =>
          rw [escape_append htail (List.cons_ne_nil _ _)]
          cases hescape : escape (d :: rest) with
          | none => rfl
          | some out =>
            obtain ⟨hsame, hshort⟩ := escape_spec hescape
            simp only [Option.map_some]
            rw [ih _ (by omega) (hsame.symm.trans hscan) rfl]
            cases decode out.2 with
            | none => rfl
            | some s =>
              cases decode tail with
              | none => rfl
              | some s' => simp
      · simp only [hc, if_false, decide_false] at hscan ⊢
        split
        · rfl
        · rw [ih rest.length (by omega) hscan rfl]
          cases decode rest with
          | none => rfl
          | some s =>
            cases decode tail with
            | none => rfl
            | some s' => rfl

/-! ## Backslashes and quotes -/

theorem unicodeEscape_suffix (h : unicodeEscape xs = some (unit, ys)) : ys <:+ xs := by
  match xs, h with
  | a :: b :: rest, h =>
    simp only [unicodeEscape] at h
    split at h
    · obtain ⟨c, d, e, f, rfl, -⟩ := hex4_eq_some h
      exact ⟨[a, b, c, d, e, f], rfl⟩
    · cases h

theorem surrogate_suffix (unit : Nat) (xs : List UInt8) : (surrogate unit xs).2 <:+ xs := by
  unfold surrogate
  split
  case isFalse => exact List.suffix_rfl
  case isTrue =>
    cases hlow : unicodeEscape xs with
    | none => exact List.suffix_rfl
    | some low =>
      simp only
      split
      · exact unicodeEscape_suffix hlow
      · exact List.suffix_rfl

theorem escape_suffix (h : escape xs = some (decoded, ys)) : ys <:+ xs := by
  cases xs with
  | nil => cases h
  | cons c rest =>
    simp only [escape] at h
    have hrest : rest <:+ c :: rest := List.suffix_cons c rest
    split_ifs at h
    any_goals
      cases h
      exact hrest
    obtain ⟨unit, hunit, h⟩ := Option.map_eq_some_iff.mp h
    have hsuffix := surrogate_suffix unit.1 unit.2
    rw [h] at hsuffix
    obtain ⟨a, b, c', d, rfl, -⟩ := hex4_eq_some hunit
    exact (hsuffix.trans ⟨[a, b, c', d], rfl⟩).trans hrest

/-- How many bytes a JSON string can only hold behind a backslash. -/
def special (xs : List UInt8) : Nat := xs.count 0x5c + xs.count 0x22

theorem special_append (xs ys : List UInt8) : special (xs ++ ys) = special xs + special ys := by
  simp only [special, List.count_append]
  omega

theorem special_singleton (b : UInt8) : special [b] ≤ 1 := by
  simp only [special, List.count_singleton]
  split
  case isTrue hb =>
    rw [beq_iff_eq] at hb
    subst hb
    decide
  case isFalse =>
    split <;> omega

theorem special_of_high (h : ∀ b ∈ xs, 0x80 ≤ b) : special xs = 0 := by
  have hnot (c : UInt8) (hc : c < 0x80) : xs.count c = 0 :=
    List.count_eq_zero.mpr fun hmem => absurd (h c hmem) (UInt8.not_le.mpr hc)
  rw [special, hnot _ (by decide), hnot _ (by decide)]

theorem ofNat_high {n : Nat} (h : n.testBit 7 = true) : 0x80 ≤ UInt8.ofNat n := by
  rw [UInt8.le_iff_toNat_le]
  have hbit : (UInt8.ofNat n).toNat.testBit 7 = true := by
    rw [UInt8.toNat_ofNat', Nat.testBit_mod_two_pow, h]
    rfl
  exact Nat.ge_two_pow_of_testBit hbit

theorem special_encodeScalar (cp : Nat) : special (encodeScalar cp) ≤ 1 := by
  unfold encodeScalar
  simp only
  generalize (if cp > 0x10ffff ∨ (0xd800 ≤ cp ∧ cp ≤ 0xdfff) then 0xfffd else cp) = cp
  split
  · exact special_singleton _
  -- every byte of a longer form has its highest bit
  have hbyte (k n : Nat) (hk : k.testBit 7 = true) : 0x80 ≤ UInt8.ofNat (k ||| n) :=
    ofNat_high (by rw [Nat.testBit_or, hk, Bool.true_or])
  split
  · rw [special_of_high (by simpa only [List.forall_mem_cons] using ⟨hbyte 0xc0 _ rfl, hbyte 0x80 _ rfl, by simp⟩)]
    exact Nat.zero_le 1
  split
  · rw [special_of_high (by simpa only [List.forall_mem_cons] using ⟨hbyte 0xe0 _ rfl, hbyte 0x80 _ rfl, hbyte 0x80 _ rfl, by simp⟩)]
    exact Nat.zero_le 1
  · rw [special_of_high (by simpa only [List.forall_mem_cons] using
      ⟨hbyte 0xf0 _ rfl, hbyte 0x80 _ rfl, hbyte 0x80 _ rfl, hbyte 0x80 _ rfl, by simp⟩)]
    exact Nat.zero_le 1

theorem special_surrogate (unit : Nat) (xs : List UInt8) : special (surrogate unit xs).1 ≤ 1 := by
  unfold surrogate
  by_cases hhigh : 0xd800 ≤ unit ∧ unit ≤ 0xdbff
  · simp only [if_pos hhigh]
    cases unicodeEscape xs with
    | none => exact special_encodeScalar 0xfffd
    | some low =>
      by_cases hrange : 0xdc00 ≤ low.1 ∧ low.1 ≤ 0xdfff
      · simp only [if_pos hrange]
        exact special_encodeScalar _
      · simp only [if_neg hrange]
        exact special_encodeScalar 0xfffd
  · simp only [if_neg hhigh]
    exact special_encodeScalar _

theorem special_escape (h : escape xs = some (decoded, ys)) : special decoded ≤ 1 := by
  cases xs with
  | nil => cases h
  | cons c rest =>
    simp only [escape] at h
    split_ifs at h
    any_goals
      cases h
      exact special_singleton _
    obtain ⟨unit, -, h⟩ := Option.map_eq_some_iff.mp h
    have hone := special_surrogate unit.1 unit.2
    rwa [h] at hone

/-- A string takes a backslash for every backslash and every quote in it. -/
theorem special_decode {s : List UInt8} (hscan : scan false xs = some false) (h : decode xs = some s) :
    special s ≤ xs.count 0x5c := by
  induction hlength : xs.length using Nat.strongRecOn generalizing xs s with
  | ind n ih =>
    cases xs with
    | nil =>
      cases h
      exact Nat.le_refl _
    | cons c rest =>
      rw [List.length_cons] at hlength
      rw [decode_cons] at h
      rw [scan] at hscan
      split at hscan
      · cases hscan
      case isFalse hquote =>
      by_cases hc : c = 0x5c
      · subst hc
        simp only [if_true, decide_true] at hscan h
        cases hescape : escape rest with
        | none =>
          rw [hescape] at h
          cases h
        | some out =>
          obtain ⟨decoded, ys⟩ := out
          rw [hescape] at h
          obtain ⟨s', hs', rfl⟩ := Option.map_eq_some_iff.mp h
          obtain ⟨hsame, hshort⟩ := escape_spec hescape
          have hlater := ih _ (by omega) (hsame.symm.trans hscan) hs' rfl
          have hone := special_escape hescape
          have hcount := ((escape_suffix hescape).sublist.count_le (0x5c : UInt8))
          rw [special_append, List.count_cons_self]
          omega
      · simp only [hc, if_false, decide_false] at hscan h
        split at h
        · cases h
        · obtain ⟨s', hs', rfl⟩ := Option.map_eq_some_iff.mp h
          have hlater := ih rest.length (by omega) hscan hs' rfl
          have hzero : special [c] = 0 := by
            simp [special, hc, hquote]
          rw [List.count_cons_of_ne hc, ← List.singleton_append, special_append, hzero]
          omega

end Spark.Json
