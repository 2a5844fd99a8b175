import Spark.Server.JsonText
import Spark.Lib.JsonStrings

/-!
# Strings and numbers of the server's JSON

* **`jsonString_of_quotes`**, **`quotes_jsonEscape`** — strings are read and written as JSON strings.
* **`strtod_of_isNumber`** — a number of JSON is converted to its end.
-/

namespace Spark.Server

open Json

/-! ## Strings -/

theorem jsonStringLoop_of_decodeFuel {n fuel : Nat} {raw s : List UInt8} (t : List UInt8)
    (hdecode : decodeFuel n raw = some s) (hscan : scan false raw = some false)
    (hfuel : raw.length < fuel) : jsonStringLoop fuel (raw ++ 0x22 :: t) = some (s, t) := by
  induction n generalizing fuel raw s with
  | zero =>
    cases raw with
    | nil =>
      cases hdecode
      obtain ⟨fuel, rfl⟩ : ∃ k, fuel = k + 1 := ⟨fuel - 1, by simp at hfuel; omega⟩
      rfl
    | cons c raw => cases hdecode
  | succ n ih =>
    obtain ⟨fuel, rfl⟩ : ∃ k, fuel = k + 1 := ⟨fuel - 1, by omega⟩
    cases raw with
    | nil =>
      cases hdecode
      rfl
    | cons c raw =>
      rw [List.length_cons] at hfuel
      simp only [decodeFuel] at hdecode
      have hquote : ¬ c = 0x22 := by
        intro hc
        simp [scan, hc] at hscan
      simp only [scan, hquote, if_false] at hscan
      simp only [List.cons_append, jsonStringLoop, hquote, if_false]
      by_cases hc : c = 0x5c
      · subst hc
        simp only [if_true, ne_eq, not_true_eq_false, if_false, decide_true] at hdecode hscan ⊢
        cases hescape : escape raw with
        | none =>
          rw [hescape] at hdecode
          cases hdecode
        | some out =>
          obtain ⟨decoded, ys⟩ := out
          rw [hescape] at hdecode
          obtain ⟨s', hs', rfl⟩ := Option.map_eq_some_iff.mp hdecode
          obtain ⟨hscan', hlength⟩ := escape_spec hescape
          have hne : raw ≠ [] := by
            rintro rfl
            cases hescape
          rw [escape_append (apart_cons rfl (by decide) (by decide) t) hne, hescape, Option.map_some]
          have hloop := @ih fuel ys s' hs' (hscan'.symm.trans hscan) (by omega)
          simp only [hloop, Option.map_some]
      · simp only [hc, if_false, ne_eq, not_false_eq_true, if_true, decide_false] at hdecode hscan ⊢
        split at hdecode
        · cases hdecode
        obtain ⟨s', hs', rfl⟩ := Option.map_eq_some_iff.mp hdecode
        have hloop := @ih fuel raw s' hs' hscan (by omega)
        simp only [hloop, Option.map_some]

theorem jsonString_of_jsonWs {p raw s t : List UInt8} (hws : jsonWs p = 0x22 :: (raw ++ 0x22 :: t))
    (hscan : scan false raw = some false) (hdecode : Json.decode raw = some s) :
    jsonString p = some (cString s, t) := by
  have hloop := @jsonStringLoop_of_decodeFuel _ ((raw ++ 0x22 :: t).length + 1) _ _ t hdecode hscan
    (by simp only [List.length_append, List.length_cons]; omega)
  simp only [jsonString, hws, if_true, hloop, Option.map_some]

/-- `json_string` reads a quoted text. -/
theorem jsonString_of_quotes {text s : List UInt8} (h : Quotes text s) (t : List UInt8) :
    jsonString (text ++ t) = some (cString s, t) := by
  obtain ⟨raw, rfl, hscan, hdecode⟩ := h
  exact jsonString_of_jsonWs (by simp [jsonWs, isspace]) hscan hdecode

/-- The two hex digits of a control byte. -/
theorem hexDigit_control {c : UInt8} (h : c < 0x20) :
    hexDigit (0x30 + c / 16) = some (c.toNat / 16) ∧
      hexDigit (if c % 16 < 10 then 0x30 + c % 16 else 0x61 + (c % 16 - 10)) = some (c.toNat % 16) := by
  have hall : ∀ n < 32, hexDigit (0x30 + UInt8.ofNat n / 16) = some (n / 16) ∧
      hexDigit (if UInt8.ofNat n % 16 < 10 then 0x30 + UInt8.ofNat n % 16
        else 0x61 + (UInt8.ofNat n % 16 - 10)) = some (n % 16) := by decide
  simpa using hall c.toNat h

theorem encodeScalar_control {c : UInt8} (h : c < 0x20) : encodeScalar c.toNat = [c] := by
  have hlt : c.toNat < 32 := h
  have hscalar : ¬ (c.toNat > 0x10ffff ∨ (0xd800 ≤ c.toNat ∧ c.toNat ≤ 0xdfff)) := by omega
  simp only [encodeScalar, if_neg hscalar, if_pos (show c.toNat ≤ 0x7f by omega), UInt8.ofNat_toNat]

/-- The escaped form of one byte decodes to it. -/
theorem decodeFuel_escapeByte (fuel : Nat) (c : UInt8) (rest : List UInt8) :
    decodeFuel (fuel + 1) (escapeByte c ++ rest) = (decodeFuel fuel rest).map (c :: ·) := by
  unfold escapeByte
  split
  · next hc => rcases hc with rfl | rfl <;> rfl
  split
  · next hc => subst hc; rfl
  split
  · next hc => subst hc; rfl
  split
  · next hc => subst hc; rfl
  split
  · next hc =>
    have hlt : c.toNat < 32 := hc
    have hhex : hex4 (0x30 :: 0x30 :: (0x30 + c / 16) ::
        (if c % 16 < 10 then 0x30 + c % 16 else 0x61 + (c % 16 - 10)) :: rest) = some (c.toNat, rest) := by
      simp only [hex4, (hexDigit_control hc).1, (hexDigit_control hc).2, Option.bind_eq_bind, Option.bind_some,
        show hexDigit 0x30 = some 0 from rfl]
      congr 2
      omega
    have hunit : surrogate c.toNat rest = ([c], rest) := by
      simp only [surrogate, if_neg (show ¬ (0xd800 ≤ c.toNat ∧ c.toNat ≤ 0xdbff) by omega),
        encodeScalar_control hc]
    have hescape : escape (0x75 :: 0x30 :: 0x30 :: (0x30 + c / 16) ::
        (if c % 16 < 10 then 0x30 + c % 16 else 0x61 + (c % 16 - 10)) :: rest) = some ([c], rest) := by
      show (hex4 _).map (fun unit => surrogate unit.1 unit.2) = _
      rw [hhex, Option.map_some, hunit]
    show decodeFuel (fuel + 1) (0x5c :: 0x75 :: 0x30 :: 0x30 :: (0x30 + c / 16) ::
        (if c % 16 < 10 then 0x30 + c % 16 else 0x61 + (c % 16 - 10)) :: rest) = _
    rw [decodeFuel, if_pos rfl, hescape]
    rfl
  · next hquote _ _ _ hc =>
    simp only [not_or] at hquote
    simp [decodeFuel, hquote.2, hc]

theorem scan_plain {b : UInt8} {rest : List UInt8} (hquote : b ≠ 0x22) (hescape : b ≠ 0x5c) :
    scan false (b :: rest) = scan false rest := by
  simp [scan, hquote, hescape]

/-- The escaped form of one byte holds no quote that would close a string. -/
theorem scan_escapeByte (c : UInt8) : scan false (escapeByte c) = some false := by
  unfold escapeByte
  split
  · next hc => rcases hc with rfl | rfl <;> rfl
  split
  · rfl
  split
  · rfl
  split
  · rfl
  split
  · next hc =>
    show scan false [0x30, 0x30, 0x30 + c / 16,
      if c % 16 < 10 then 0x30 + c % 16 else 0x61 + (c % 16 - 10)] = _
    have hhigh := hexDigit_ne (Option.isSome_of_eq_some (hexDigit_control hc).1)
    have hlow := hexDigit_ne (Option.isSome_of_eq_some (hexDigit_control hc).2)
    rw [scan_plain (by decide) (by decide), scan_plain (by decide) (by decide),
      scan_plain hhigh.1 hhigh.2, scan_plain hlow.1 hlow.2, scan]
  · next hquote _ _ _ hc =>
    simp only [not_or] at hquote
    simp [scan, hquote.1, hquote.2]

theorem scan_jsonEscapeFragment (s : List UInt8) : scan false (jsonEscapeFragment s) = some false := by
  induction s with
  | nil => rfl
  | cons c s ih =>
    show scan false (escapeByte c ++ jsonEscapeFragment s) = _
    rw [scan_append, scan_escapeByte]
    exact ih

theorem length_escapeByte (c : UInt8) : 0 < (escapeByte c).length := by
  unfold escapeByte
  split_ifs <;> exact Nat.succ_pos _

theorem decodeFuel_jsonEscapeFragment {fuel : Nat} {s : List UInt8}
    (h : (jsonEscapeFragment s).length ≤ fuel) : decodeFuel fuel (jsonEscapeFragment s) = some s := by
  induction s generalizing fuel with
  | nil => cases fuel <;> rfl
  | cons c s ih =>
    have hfragment : jsonEscapeFragment (c :: s) = escapeByte c ++ jsonEscapeFragment s := rfl
    have hlength := length_escapeByte c
    rw [hfragment, List.length_append] at h
    obtain ⟨fuel, rfl⟩ : ∃ k, fuel = k + 1 := ⟨fuel - 1, by omega⟩
    rw [hfragment, decodeFuel_escapeByte, ih (by omega)]
    rfl

/-- `json_escape` writes a string. -/
theorem quotes_jsonEscape (s : List UInt8) : Quotes (jsonEscape s) s :=
  ⟨jsonEscapeFragment s, rfl, scan_jsonEscapeFragment s, decodeFuel_jsonEscapeFragment (Nat.le_refl _)⟩

/-! ## Numbers -/

/-- What may follow a word. -/
def Stops (t : List UInt8) : Prop := ∀ b ∈ t.head?, isWordByte b = false

/-- What folds to a letter is a letter. -/
theorem isWordByte_of_toLower {b letter : UInt8} (h : toLower b = letter)
    (hletter : 0x61 ≤ letter ∧ letter ≤ 0x7a) : isWordByte b = true := by
  unfold toLower at h
  split at h
  · next hb =>
    simp only [Bool.and_eq_true, decide_eq_true_eq] at hb
    simp [isWordByte, hb.1, hb.2]
  · subst h
    simp [isWordByte, hletter.1, hletter.2]

theorem Stops.not_digit {b : UInt8} {t : List UInt8} (h : Stops (b :: t)) : isDigit b = false := by
  have hb := h b rfl
  simp only [isWordByte, Bool.or_eq_false_iff] at hb
  exact hb.1.1.1.1.1

theorem dropWhile_stops {t : List UInt8} (h : Stops t) (p : List UInt8) :
    (p ++ t).dropWhile isDigit = p.dropWhile isDigit ++ t := by
  induction p with
  | nil =>
    cases t with
    | nil => rfl
    | cons b t => exact List.dropWhile_cons_of_neg (by simp [h.not_digit])
  | cons b p ih =>
    rw [List.cons_append, List.dropWhile_cons, List.dropWhile_cons]
    split
    · exact ih
    · rfl

theorem digits1_eq_some {p rest : List UInt8} (h : digits1 p = some rest) :
    p.takeWhile isDigit ≠ [] ∧ rest = p.dropWhile isDigit := by
  cases p with
  | nil => cases h
  | cons b p =>
    simp only [digits1] at h
    split at h
    · next hb =>
      cases h
      simp [hb]
    · cases h

theorem takeWhile_append_ne_nil {p : List UInt8} (h : p.takeWhile isDigit ≠ []) (t : List UInt8) :
    (p ++ t).takeWhile isDigit ≠ [] := by
  cases p with
  | nil => exact absurd rfl h
  | cons b p =>
    rw [List.takeWhile_cons] at h
    split at h
    · next hb => simp [hb]
    · exact absurd rfl h

/-- An exponent is passed over whole. -/
theorem exponent_of_expPart {p t : List UInt8} (ht : Stops t) (h : expPart p = some []) :
    exponent 0x65 (p ++ t) = t := by
  cases p with
  | nil =>
    cases t with
    | nil => rfl
    | cons b t =>
      have hb : toLower b ≠ 0x65 := by
        intro hb
        have hword := isWordByte_of_toLower hb (by decide)
        rw [ht b rfl] at hword
        cases hword
      simp [exponent, hb]
  | cons c rest =>
    simp only [expPart] at h
    split at h
    · next hc =>
      have hmark : toLower c = 0x65 := by rcases hc with rfl | rfl <;> rfl
      have hdigits {digits : List UInt8} (h : digits1 digits = some []) :
          (digits ++ t).takeWhile isDigit ≠ [] ∧ (digits ++ t).dropWhile isDigit = t := by
        obtain ⟨hne, hrest⟩ := digits1_eq_some h
        exact ⟨takeWhile_append_ne_nil hne t, by rw [dropWhile_stops ht, ← hrest, List.nil_append]⟩
      cases rest with
      | nil => cases h
      | cons sign digits =>
        simp only at h
        simp only [List.cons_append, exponent, hmark, if_true]
        split at h
        · next hsign =>
          simp only [hsign, if_true, if_neg (hdigits h).1]
          exact (hdigits h).2
        · next hsign =>
          simp only [hsign, if_false]
          rw [← List.cons_append, if_neg (hdigits h).1]
          exact (hdigits h).2
    · cases h

/-- The digits before the point, and what follows them, which is no digit. -/
theorem intPart_spec {p r1 r2 : List UInt8} (hint : intPart p = some r1) (hfrac : fracPart r1 = some r2)
    (hexp : expPart r2 = some []) : p.takeWhile isDigit ≠ [] ∧ r1 = p.dropWhile isDigit := by
  cases p with
  | nil => cases hint
  | cons b p =>
    simp only [intPart] at hint
    split at hint
    · next hb =>
      subst hb
      cases hint
      have hdigit : r1.dropWhile isDigit = r1 := by
        cases r1 with
        | nil => rfl
        | cons c r1 =>
          -- A digit behind a zero is neither a point nor the mark of an exponent.
          refine List.dropWhile_cons_of_neg fun hc => ?_
          have hne (x : UInt8) (hx : isDigit x = false) : c ≠ x := by
            rintro rfl
            rw [hx] at hc
            cases hc
          rw [fracPart, if_neg (hne 0x2e rfl)] at hfrac
          cases hfrac
          simp [expPart, hne 0x65 rfl, hne 0x45 rfl] at hexp
      rw [List.takeWhile_cons_of_pos rfl, List.dropWhile_cons_of_pos rfl, hdigit]
      exact ⟨List.cons_ne_nil _ _, rfl⟩
    · exact digits1_eq_some hint

/-- Where an unsigned number ends. -/
theorem mantissa_of_number {p r1 r2 t : List UInt8} (ht : Stops t) (hint : intPart p = some r1)
    (hfrac : fracPart r1 = some r2) (hexp : expPart r2 = some []) :
    (mantissa isDigit (p ++ t)).map (exponent 0x65) = some t := by
  obtain ⟨hwhole, hr1⟩ := intPart_spec hint hfrac hexp
  have hrest : (p ++ t).dropWhile isDigit = r1 ++ t := by rw [dropWhile_stops ht, hr1]
  have hsome (hr : r2 = r1) (hpoint : ∀ c ∈ (r1 ++ t).head?, c ≠ 0x2e) :
      mantissa isDigit (p ++ t) = some (r1 ++ t) := by
    simp only [mantissa, hrest, takeWhile_append_ne_nil hwhole t, ne_eq, not_false_eq_true, if_true, true_or,
      and_true]
    cases hrt : r1 ++ t with
    | nil => rfl
    | cons c frac => exact if_neg (hpoint c (by rw [hrt]; rfl))
  cases r1 with
  | nil =>
    cases hfrac
    rw [hsome rfl, Option.map_some, exponent_of_expPart ht hexp]
    intro c hc hpoint
    have hword := ht c hc
    rw [hpoint] at hword
    cases hword
  | cons c frac =>
    rw [fracPart] at hfrac
    split at hfrac
    · next hc =>
      obtain ⟨-, hr2⟩ := digits1_eq_some hfrac
      have hmantissa : mantissa isDigit (p ++ t) = some (r2 ++ t) := by
        simp only [mantissa, hrest, takeWhile_append_ne_nil hwhole t, List.cons_append, hc, ne_eq,
          not_false_eq_true, true_or, and_self, if_true, dropWhile_stops ht, hr2]
      rw [hmantissa, Option.map_some, exponent_of_expPart ht hexp]
    · next hc =>
      cases hfrac
      rw [hsome rfl, Option.map_some, exponent_of_expPart ht hexp]
      intro b hb
      cases hb
      exact hc

theorem toLower_digit {b : UInt8} (h : isDigit b = true) : toLower b = b := by
  unfold toLower
  simp only [isDigit, Bool.and_eq_true, decide_eq_true_eq] at h
  split
  · grind
  · rfl

theorem foldedLit_digit {d x : UInt8} {p lit : List UInt8} (hd : isDigit d = true)
    (hx : isDigit x = false) : foldedLit (d :: p) (x :: lit) = false := by
  have hne : (x == d) = false := by
    rw [beq_eq_false_iff_ne]
    rintro rfl
    rw [hx] at hd
    cases hd
  show ((x == toLower d) && _) = false
  rw [toLower_digit hd, hne, Bool.false_and]

/-- No hexadecimal number begins where a decimal one does. -/
theorem head_behind_zero {p r2 t : List UInt8} (ht : Stops t) (hfrac : fracPart p = some r2)
    (hexp : expPart r2 = some []) : ∀ c ∈ (p ++ t).head?, toLower c ≠ 0x78 := by
  cases p with
  | nil =>
    intro c hc hx
    have hword := isWordByte_of_toLower hx (by decide)
    rw [ht c hc] at hword
    cases hword
  | cons b p =>
    intro c hc hx
    cases hc
    rw [fracPart] at hfrac
    split at hfrac
    · next hb =>
      subst hb
      cases hx
    · cases hfrac
      simp only [expPart] at hexp
      split at hexp
      · next hb => rcases hb with rfl | rfl <;> cases hx
      · cases hexp

theorem strtodMagnitude_of_number {p r1 r2 t : List UInt8} (ht : Stops t) (hint : intPart p = some r1)
    (hfrac : fracPart r1 = some r2) (hexp : expPart r2 = some []) :
    strtodMagnitude (p ++ t) = some t := by
  obtain ⟨hwhole, hr1⟩ := intPart_spec hint hfrac hexp
  have hnumber := mantissa_of_number ht hint hfrac hexp
  cases p with
  | nil => cases hint
  | cons d p =>
    have hd : isDigit d = true := by
      by_contra hd
      exact hwhole (List.takeWhile_cons_of_neg hd)
    -- The number begins with a digit, so none of the words of `strtod` stands there.
    have hword (x : UInt8) (lit : List UInt8) (hx : isDigit x = false) :
        foldedLit (d :: p ++ t) (x :: lit) = false := foldedLit_digit hd hx
    have hhex : foldedLit (d :: p ++ t) (bytes "0x") = false := by
      show ((0x30 == toLower d) && [0x78].isPrefixOf ((p ++ t).map toLower)) = false
      by_cases hzero : d = 0x30
      · subst hzero
        cases hint
        have hnext := head_behind_zero ht hfrac hexp
        cases hrt : r1 ++ t with
        | nil => rfl
        | cons c rest =>
          have hc : (0x78 == toLower c) = false :=
            beq_eq_false_iff_ne.mpr (hnext c (by rw [hrt]; rfl)).symm
          show (_ && ((0x78 == toLower c) && _)) = false
          rw [hc, Bool.false_and, Bool.and_false]
      · rw [toLower_digit hd, beq_eq_false_iff_ne.mpr (Ne.symm hzero), Bool.false_and]
    unfold strtodMagnitude
    rw [show bytes "infinity" = 0x69 :: bytes "nfinity" from rfl, hword _ _ rfl,
      show bytes "inf" = 0x69 :: bytes "nf" from rfl, hword _ _ rfl,
      show bytes "nan" = 0x6e :: bytes "an" from rfl, hword _ _ rfl, hhex]
    exact hnumber

/-- `strtod` ends where the number does. -/
theorem strtod_of_isNumber {w t : List UInt8} (ht : Stops t) (h : isNumber w = true) :
    strtod (w ++ t) = some t := by
  simp only [isNumber, decide_eq_true_eq, Option.bind_eq_some_iff] at h
  obtain ⟨r2, ⟨r1, hint, hfrac⟩, hexp⟩ := h
  have hmagnitude := strtodMagnitude_of_number ht hint hfrac hexp
  cases w with
  | nil => cases hint
  | cons c w =>
    by_cases hc : c = 0x2d
    · subst hc
      exact hmagnitude
    · have hunsign : unsign (c :: w) = c :: w := if_neg hc
      rw [hunsign] at hint hmagnitude
      obtain ⟨hwhole, -⟩ := intPart_spec hint hfrac hexp
      have hdigit : isDigit c = true := by
        by_contra hd
        exact hwhole (List.takeWhile_cons_of_neg hd)
      simp only [isDigit, Bool.and_eq_true, decide_eq_true_eq] at hdigit
      have hspace : isspace c = false := by
        simp only [isspace]
        grind
      have hsign : ¬ (c = 0x2b ∨ c = 0x2d) := by
        rintro (rfl | rfl)
        · simp at hdigit
        · exact hc rfl
      rw [strtod, List.cons_append, List.dropWhile_cons_of_neg (by simp [hspace])]
      simp only [if_neg hsign]
      exact hmagnitude

end Spark.Server
