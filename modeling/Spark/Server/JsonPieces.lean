import Mathlib.Data.List.TakeWhile
import Spark.Server.JsonScalars

/-!
# Pieces of JSON before another text

Where `json_string` and `strtod` stop depends on what they have read, and little on what follows it.

* **`jsonStringLoop_spec`** — a string that is read is read again before any other text.
* **`strtod_spec`**, **`jsonSkipScalar_spec`** — so is a number or a word, before what closes a value.
-/

namespace Spark.Server

open Json

/-- What follows a value where no white space is left. -/
def Closed (t : List UInt8) : Prop := ∀ b ∈ t.head?, b = 0x2c ∨ b = 0x5d ∨ b = 0x7d

theorem closed_nil : Closed [] := by simp [Closed]

/-- Neither white space nor a quote. -/
def Solid (n : List UInt8) : Prop := ∀ b ∈ n, isspace b = false ∧ b ≠ 0x22

instance (n : List UInt8) : Decidable (Solid n) := List.decidableBAll (fun b => isspace b = false ∧ b ≠ 0x22) n

theorem Solid.append {n m : List UInt8} (hn : Solid n) (hm : Solid m) : Solid (n ++ m) :=
  List.forall_mem_append.mpr ⟨hn, hm⟩

/-! ## Strings -/

/-- A string that is read is read again before any other text. -/
theorem jsonStringLoop_spec {fuel : Nat} {p s t : List UInt8} (h : jsonStringLoop fuel p = some (s, t)) :
    ∃ raw, p = raw ++ 0x22 :: t ∧ scan false raw = some false ∧
      ∀ t' fuel', raw.length < fuel' → jsonStringLoop fuel' (raw ++ 0x22 :: t') = some (s, t') := by
  induction fuel generalizing p s with
  | zero => cases h
  | succ fuel ih =>
    cases p with
    | nil => cases h
    | cons c p =>
      simp only [jsonStringLoop] at h
      split at h
      · next hc =>
        cases h
        subst hc
        refine ⟨[], rfl, rfl, fun t' fuel' hfuel => ?_⟩
        obtain ⟨fuel', rfl⟩ : ∃ k, fuel' = k + 1 := ⟨fuel' - 1, by simp at hfuel; omega⟩
        rfl
      next hquote =>
      split at h
      · next hescape =>
        obtain ⟨⟨s', t''⟩, hloop, heq⟩ := Option.map_eq_some_iff.mp h
        cases heq
        obtain ⟨raw, rfl, hscan, hagain⟩ := ih hloop
        refine ⟨c :: raw, rfl, by rw [scan_plain hquote hescape, hscan], fun t' fuel' hfuel => ?_⟩
        obtain ⟨fuel', rfl⟩ : ∃ k, fuel' = k + 1 := ⟨fuel' - 1, by simp at hfuel; omega⟩
        simp only [List.cons_append, jsonStringLoop, if_neg hquote, if_pos hescape,
          hagain t' fuel' (by simpa using hfuel), Option.map_some]
      · next hescape =>
        obtain rfl : c = 0x5c := not_not.mp hescape
        cases hout : escape p with
        | none =>
          rw [hout] at h
          cases h
        | some out =>
          obtain ⟨decoded, ys⟩ := out
          rw [hout] at h
          obtain ⟨⟨s', t''⟩, hloop, heq⟩ := Option.map_eq_some_iff.mp h
          cases heq
          obtain ⟨raw, rfl, hscan, hagain⟩ := ih hloop
          obtain ⟨e, rfl⟩ := escape_suffix hout
          have hne : e ++ raw ≠ [] := by
            intro hnil
            have hlength := (escape_spec hout).2
            simp [List.append_eq_nil_iff.mp hnil] at hlength
          -- the escape ends before the quote, so it is the same before any other text
          have hsplit (t' : List UInt8) := escape_append (apart_cons (b := 0x22) rfl (by decide) (by decide) t') hne
          have hinner : escape (e ++ raw) = some (decoded, raw) := by
            rw [← List.append_assoc, hsplit] at hout
            obtain ⟨out, hinner, heq⟩ := Option.map_eq_some_iff.mp hout
            obtain ⟨hdecoded, hrest⟩ := Prod.mk.inj heq
            rw [hinner, ← hdecoded, ← List.append_cancel_right hrest]
          refine ⟨0x5c :: (e ++ raw), by simp, ?_, fun t' fuel' hfuel => ?_⟩
          · show scan true (e ++ raw) = some false
            rw [(escape_spec hinner).1, hscan]
          · obtain ⟨fuel', rfl⟩ : ∃ k, fuel' = k + 1 := ⟨fuel' - 1, by simp at hfuel; omega⟩
            have hlater := hagain t' fuel' (by simp at hfuel; omega)
            simp only [List.cons_append, jsonStringLoop, if_neg hquote, hsplit, hinner, Option.map_some, hlater,
              ne_eq, not_true_eq_false, if_false]

/-! ## Numbers -/

/-- Digits that are read are read again before what begins with no digit. -/
theorem span_again (digit : UInt8 → Bool) {n u : List UInt8} (hn : ∀ b ∈ n, digit b = true)
    (hu : ∀ b ∈ u.head?, digit b = false) : (n ++ u).takeWhile digit = n ∧ (n ++ u).dropWhile digit = u := by
  rw [List.takeWhile_append_of_pos hn, List.dropWhile_append_of_pos hn]
  cases u with
  | nil => simp
  | cons b u => simp [hu b rfl]

theorem head_dropWhile {digit : UInt8 → Bool} {p : List UInt8} :
    ∀ b ∈ (p.dropWhile digit).head?, digit b = false := by
  intro b hb
  have hnot := List.head?_dropWhile_not digit p
  rw [Option.mem_def.mp hb] at hnot
  simpa using hnot

theorem mem_takeWhile {digit : UInt8 → Bool} {p : List UInt8} : ∀ b ∈ p.takeWhile digit, digit b = true :=
  fun _ hb => List.mem_takeWhile_imp hb

/-- What `mantissa` takes for a digit. -/
structure Digits (digit : UInt8 → Bool) : Prop where
  plain : ∀ b, digit b = true → isspace b = false ∧ b ≠ 0x22
  closed : ∀ b, b = 0x2c ∨ b = 0x5d ∨ b = 0x7d → digit b = false
  point : digit 0x2e = false

theorem digits_isDigit : Digits isDigit where
  plain := by
    intro b hb
    simp only [isDigit, Bool.and_eq_true, decide_eq_true_eq] at hb
    simp only [isspace]
    grind
  closed := by rintro b (rfl | rfl | rfl) <;> rfl
  point := rfl

theorem digits_hexDigit : Digits fun b => (hexDigit b).isSome where
  plain := by
    intro b hb
    refine ⟨?_, (hexDigit_ne hb).1⟩
    simp only [hexDigit] at hb
    simp only [isspace]
    grind
  closed := by rintro b (rfl | rfl | rfl) <;> rfl
  point := rfl

theorem mantissa_spec {digit : UInt8 → Bool} (hdigit : Digits digit) {p r : List UInt8}
    (h : mantissa digit p = some r) :
    ∃ n, p = n ++ r ∧ n ≠ [] ∧ Solid n ∧
      ∀ u, (∀ b ∈ u.head?, b ∈ r.head? ∨ b = 0x2c ∨ b = 0x5d ∨ b = 0x7d) → mantissa digit (n ++ u) = some u := by
  have hfront : p = p.takeWhile digit ++ p.dropWhile digit := List.takeWhile_append_dropWhile.symm
  have hplain : Solid (p.takeWhile digit) := fun b hb => hdigit.plain b (mem_takeWhile b hb)
  -- digits alone end where there is neither a digit nor a point
  have hwhole {u : List UInt8} (hne : p.takeWhile digit ≠ []) (hstop : ∀ b ∈ u.head?, digit b = false ∧ b ≠ 0x2e) :
      mantissa digit (p.takeWhile digit ++ u) = some u := by
    obtain ⟨htake, hdrop⟩ := span_again digit (u := u) (mem_takeWhile (p := p)) fun b hb => (hstop b hb).1
    simp only [mantissa, htake, hdrop]
    cases u with
    | nil => simp [hne]
    | cons c frac => simp [hne, (hstop c rfl).2]
  simp only [mantissa] at h
  split at h
  · next hrest =>
    split at h
    · next hne =>
      cases h
      rw [hrest] at hfront
      refine ⟨p.takeWhile digit, hfront, hne, hplain, fun u hu => hwhole hne fun b hb => ?_⟩
      rcases hu b hb with hr | hb
      · cases hr
      · exact ⟨hdigit.closed b hb, by rintro rfl; simp at hb⟩
    · cases h
  · next c frac hrest =>
    rw [hrest] at hfront
    split at h
    · next hpoint =>
      obtain ⟨rfl, hsome⟩ := hpoint
      cases h
      refine ⟨p.takeWhile digit ++ 0x2e :: frac.takeWhile digit, ?_, by simp, ?_, fun u hu => ?_⟩
      · rw [List.append_assoc, List.cons_append, List.takeWhile_append_dropWhile]
        exact hfront
      · refine hplain.append (List.forall_mem_cons.mpr ⟨by decide, fun b hb => ?_⟩)
        exact hdigit.plain b (mem_takeWhile b hb)
      · have hstop : ∀ b ∈ u.head?, digit b = false := fun b hb => (hu b hb).elim (head_dropWhile b) (hdigit.closed b)
        obtain ⟨htake, hdrop⟩ := span_again digit (u := 0x2e :: (frac.takeWhile digit ++ u)) (mem_takeWhile (p := p))
          (by simp [hdigit.point])
        obtain ⟨htake', hdrop'⟩ := span_again digit (mem_takeWhile (p := frac)) hstop
        rw [List.append_assoc, List.cons_append]
        simp only [mantissa, htake, hdrop, htake', hdrop', true_and, if_pos hsome]
    · next hpoint =>
      split at h
      · next hne =>
        cases h
        refine ⟨p.takeWhile digit, hfront.trans (by rw [hrest]), hne, hplain, fun u hu => hwhole hne fun b hb => ?_⟩
        rcases hu b hb with hr | hb
        · rw [hrest] at hr
          cases hr
          have hhead : ∀ b ∈ (p.dropWhile digit).head?, digit b = false := head_dropWhile
          rw [hrest] at hhead
          exact ⟨hhead c rfl, fun hc => hpoint ⟨hc, .inl hne⟩⟩
        · exact ⟨hdigit.closed b hb, by rintro rfl; simp at hb⟩
      · cases h

/-- A piece that is read is read again before what closes a value. -/
def Again (read : List UInt8 → Option (List UInt8)) (p r : List UInt8) : Prop :=
  ∃ n, p = n ++ r ∧ Solid n ∧ ∀ t, Closed t → read (n ++ t) = some t

/-- Nothing is read of a text that does not begin with the right byte. -/
theorem again_nothing {read : List UInt8 → List UInt8} (p : List UInt8) (h : ∀ t, Closed t → read t = t) :
    Again (fun p => some (read p)) p p :=
  ⟨[], rfl, by simp [Solid], fun t ht => congrArg some (h t ht)⟩

theorem exponent_closed {mark : UInt8} (hmark : mark = 0x65 ∨ mark = 0x70) {t : List UInt8} (ht : Closed t) :
    exponent mark t = t := by
  cases t with
  | nil => rfl
  | cons b t =>
    have hne : toLower b ≠ mark := by
      rcases hmark with rfl | rfl <;> rcases ht b rfl with rfl | rfl | rfl <;> decide
    simp only [exponent, if_neg hne]

theorem solid_singleton {b : UInt8} (h : isspace b = false ∧ b ≠ 0x22) : Solid [b] := List.forall_mem_singleton.mpr h

theorem solid_of_toLower {b mark : UInt8} (hmark : mark = 0x65 ∨ mark = 0x70) (h : toLower b = mark) :
    isspace b = false ∧ b ≠ 0x22 := by
  have hword := isWordByte_of_toLower h (by rcases hmark with rfl | rfl <;> decide)
  simp only [isWordByte, Bool.or_eq_true, Bool.and_eq_true, decide_eq_true_eq, isDigit] at hword
  simp only [isspace]
  grind

theorem exponent_spec {mark : UInt8} (hmark : mark = 0x65 ∨ mark = 0x70) (p : List UInt8) :
    Again (fun p => some (exponent mark p)) p (exponent mark p) := by
  have hclosed {t : List UInt8} := exponent_closed hmark (t := t)
  -- an exponent that counts: the mark, perhaps a sign, and digits
  have hread {c : UInt8} (hc : toLower c = mark) {digits : List UInt8} (hne : digits.takeWhile isDigit ≠ [])
      (sign : List UInt8) (hsign : Solid sign)
      (hskip : ∀ t, exponent mark (c :: (sign ++ (digits.takeWhile isDigit ++ t))) =
        if (digits.takeWhile isDigit ++ t).takeWhile isDigit = [] then c :: (sign ++ (digits.takeWhile isDigit ++ t))
        else (digits.takeWhile isDigit ++ t).dropWhile isDigit) :
      Again (fun p => some (exponent mark p)) (c :: (sign ++ digits)) (digits.dropWhile isDigit) := by
    refine ⟨c :: (sign ++ digits.takeWhile isDigit), by simp, ?_, fun t ht => congrArg some ?_⟩
    · refine (solid_singleton (solid_of_toLower hmark hc)).append (hsign.append fun b hb => ?_)
      exact digits_isDigit.plain b (mem_takeWhile b hb)
    · obtain ⟨htake, hdrop⟩ := span_again isDigit (mem_takeWhile (p := digits)) fun b hb =>
        digits_isDigit.closed b (ht b hb)
      rw [List.cons_append, List.append_assoc, hskip, htake, hdrop, if_neg hne]
  cases p with
  | nil => exact again_nothing [] fun t ht => hclosed ht
  | cons c rest =>
    by_cases hc : toLower c = mark
    · cases rest with
      | nil =>
        rw [show exponent mark [c] = [c] by simp [exponent, hc]]
        exact again_nothing _ fun t ht => hclosed ht
      | cons sign more =>
        by_cases hsign : sign = 0x2b ∨ sign = 0x2d
        · by_cases hne : more.takeWhile isDigit = []
          · rw [show exponent mark (c :: sign :: more) = c :: sign :: more by simp [exponent, hc, hsign, hne]]
            exact again_nothing _ fun t ht => hclosed ht
          · rw [show exponent mark (c :: sign :: more) = more.dropWhile isDigit by simp [exponent, hc, hsign, hne]]
            have hplain : Solid [sign] := solid_singleton (by rcases hsign with rfl | rfl <;> decide)
            refine hread hc hne [sign] hplain fun t => ?_
            simp only [List.singleton_append, exponent, if_pos hc, if_pos hsign]
        · by_cases hne : (sign :: more).takeWhile isDigit = []
          · rw [show exponent mark (c :: sign :: more) = c :: sign :: more by simp [exponent, hc, hsign, hne]]
            exact again_nothing _ fun t ht => hclosed ht
          · have hrest : exponent mark (c :: sign :: more) = (sign :: more).dropWhile isDigit := by
              simp only [exponent, if_pos hc, if_neg hsign, if_neg hne]
            rw [hrest]
            refine hread hc hne [] (by simp [Solid]) fun t => ?_
            rw [List.takeWhile_cons] at hne ⊢
            split at hne
            · next hdigit =>
              simp only [if_pos hdigit, List.nil_append, List.cons_append, exponent, if_pos hc, if_neg hsign]
            · exact absurd rfl hne
    · rw [show exponent mark (c :: rest) = c :: rest by simp [exponent, hc]]
      exact again_nothing _ fun t ht => hclosed ht

theorem nanTail_closed {t : List UInt8} (ht : Closed t) : nanTail t = t := by
  cases t with
  | nil => rfl
  | cons b t =>
    have hne : b ≠ 0x28 := by rcases ht b rfl with rfl | rfl | rfl <;> decide
    simp only [nanTail, if_neg hne]

/-- A byte of `nan(chars)`. -/
theorem solid_nanChar {b : UInt8} (h : (isDigit b || isAlpha b || b = 0x5f) = true) :
    isspace b = false ∧ b ≠ 0x22 := by
  simp only [Bool.or_eq_true, Bool.and_eq_true, decide_eq_true_eq, isDigit, isAlpha] at h
  simp only [isspace]
  grind

theorem nanTail_spec (p : List UInt8) : Again (fun p => some (nanTail p)) p (nanTail p) := by
  cases p with
  | nil => exact again_nothing [] fun t ht => nanTail_closed ht
  | cons c rest =>
    by_cases hc : c = 0x28
    · subst hc
      let char : UInt8 → Bool := fun b => isDigit b || isAlpha b || b = 0x5f
      have hfront : rest = rest.takeWhile char ++ rest.dropWhile char := List.takeWhile_append_dropWhile.symm
      have hnone (h : rest.dropWhile char = []) : nanTail (0x28 :: rest) = 0x28 :: rest := by
        unfold nanTail
        dsimp only
        rw [if_pos rfl]
        split
        · rfl
        · next hdrop => cases h.symm.trans hdrop
      have hsome {rest later : List UInt8} {close : UInt8} (h : rest.dropWhile char = close :: later) :
          nanTail (0x28 :: rest) = if close = 0x29 then later else 0x28 :: rest := by
        unfold nanTail
        dsimp only
        rw [if_pos rfl]
        split
        · next hdrop => cases h.symm.trans hdrop
        · next hdrop =>
          obtain ⟨rfl, rfl⟩ := List.cons.inj (h.symm.trans hdrop)
          rfl
      cases hdrop : rest.dropWhile char with
      | nil =>
        rw [hnone hdrop]
        exact again_nothing _ fun t ht => nanTail_closed ht
      | cons close later =>
        by_cases hclose : close = 0x29
        · subst hclose
          rw [hsome hdrop, if_pos rfl]
          rw [hdrop] at hfront
          refine ⟨0x28 :: (rest.takeWhile char ++ [0x29]), ?_, ?_, fun t _ => congrArg some ?_⟩
          · rw [List.cons_append, List.append_assoc]
            exact congrArg (0x28 :: ·) hfront
          · refine (solid_singleton (by decide)).append (Solid.append (fun b hb => ?_) (solid_singleton (by decide)))
            have hchar : char b = true := mem_takeWhile b hb
            exact solid_nanChar hchar
          · obtain ⟨-, hagain⟩ := span_again char (u := 0x29 :: t) (mem_takeWhile (p := rest))
              (by simp [char]; decide)
            rw [List.cons_append, List.append_assoc, List.singleton_append, hsome hagain, if_pos rfl]
        · rw [hsome hdrop, if_neg hclose]
          exact again_nothing _ fun t ht => nanTail_closed ht
    · rw [show nanTail (c :: rest) = c :: rest by simp [nanTail, hc]]
      exact again_nothing _ fun t ht => nanTail_closed ht

/-- `Again`, of a piece with something in it. -/
def Takes (read : List UInt8 → Option (List UInt8)) (p r : List UInt8) : Prop :=
  ∃ n, n ≠ [] ∧ p = n ++ r ∧ Solid n ∧ ∀ t, Closed t → read (n ++ t) = some t

theorem number_spec {digit : UInt8 → Bool} (hdigit : Digits digit) {mark : UInt8} (hmark : mark = 0x65 ∨ mark = 0x70)
    {p r : List UInt8} (h : (mantissa digit p).map (exponent mark) = some r) :
    Takes (fun p => (mantissa digit p).map (exponent mark)) p r := by
  obtain ⟨rest, hmantissa, rfl⟩ := Option.map_eq_some_iff.mp h
  obtain ⟨n, rfl, hne, hplain, hfront⟩ := mantissa_spec hdigit hmantissa
  obtain ⟨m, hrest, hplain', hback⟩ := exponent_spec hmark rest
  refine ⟨n ++ m, by simp [hne], by rw [List.append_assoc, ← hrest], hplain.append hplain', fun t ht => ?_⟩
  -- what follows the digits begins with what it began with, or closes the value
  have hnext : ∀ b ∈ (m ++ t).head?, b ∈ rest.head? ∨ b = 0x2c ∨ b = 0x5d ∨ b = 0x7d := by
    intro b hb
    cases m with
    | nil => exact .inr (ht b hb)
    | cons c m =>
      rw [hrest]
      exact .inl hb
  show (mantissa digit (n ++ m ++ t)).map (exponent mark) = some t
  rw [List.append_assoc, hfront _ hnext, Option.map_some]
  exact hback t ht

/-- A word that does not stand there stands there no more before what closes a value. -/
theorem isPrefixOf_again {n t t' lit : List UInt8} (h : lit.isPrefixOf (n ++ t) = false)
    (ht : ∀ b ∈ t'.head?, b ∉ lit) : lit.isPrefixOf (n ++ t') = false := by
  induction lit generalizing n with
  | nil => cases h
  | cons x lit ih =>
    cases n with
    | nil =>
      cases t' with
      | nil => rfl
      | cons b t' =>
        have hne : (x == b) = false := beq_eq_false_iff_ne.mpr fun hx => ht b rfl (hx ▸ List.mem_cons_self)
        rw [List.nil_append, List.isPrefixOf_cons_cons, hne, Bool.false_and]
    | cons c n =>
      rw [List.cons_append, List.isPrefixOf_cons_cons] at h ⊢
      rcases Bool.and_eq_false_iff.mp h with hx | hlater
      · rw [hx, Bool.false_and]
      · rw [ih hlater fun b hb hmem => ht b hb (List.mem_cons_of_mem x hmem), Bool.and_false]

theorem foldedLit_again {n t t' lit : List UInt8} (h : foldedLit (n ++ t) lit = false) (ht : Closed t')
    (hlit : ∀ b, b = 0x2c ∨ b = 0x5d ∨ b = 0x7d → b ∉ lit) : foldedLit (n ++ t') lit = false := by
  unfold foldedLit at h ⊢
  rw [List.map_append] at h ⊢
  refine isPrefixOf_again h fun b hb => ?_
  rw [List.head?_map] at hb
  obtain ⟨c, hc, rfl⟩ := Option.map_eq_some_iff.mp hb
  rcases ht c hc with rfl | rfl | rfl
  · exact hlit 0x2c (by simp)
  · exact hlit 0x5d (by simp)
  · exact hlit 0x7d (by simp)

theorem jsonLit_again {n t t' lit : List UInt8} (h : jsonLit (n ++ t) lit = none) (ht : Closed t')
    (hlit : ∀ b, b = 0x2c ∨ b = 0x5d ∨ b = 0x7d → b ∉ lit) : jsonLit (n ++ t') lit = none := by
  unfold jsonLit at h ⊢
  split at h
  · cases h
  · next hnot =>
    have hagain := isPrefixOf_again (Bool.eq_false_iff.mpr hnot) fun b hb => hlit b (ht b hb)
    exact if_neg (Bool.eq_false_iff.mp hagain)

theorem solid_of_solid_toLower {b : UInt8} (h : isspace (toLower b) = false ∧ toLower b ≠ 0x22) :
    isspace b = false ∧ b ≠ 0x22 := by
  unfold toLower at h
  split at h
  · next hb =>
    simp only [Bool.and_eq_true, decide_eq_true_eq] at hb
    simp only [isspace]
    grind
  · exact h

/-- A word in either case, and what follows it. -/
theorem foldedLit_eq_true {p lit : List UInt8} (h : foldedLit p lit = true) (hlit : Solid lit) :
    ∃ n, p = n ++ p.drop lit.length ∧ n.map toLower = lit ∧ Solid n := by
  obtain ⟨t, ht⟩ := List.isPrefixOf_iff_prefix.mp h
  have htake : (p.take lit.length).map toLower = lit := by
    rw [List.map_take, ← ht, List.take_left]
  refine ⟨p.take lit.length, (List.take_append_drop _ _).symm, htake, fun b hb => solid_of_solid_toLower (hlit _ ?_)⟩
  rw [← htake]
  exact List.mem_map_of_mem hb

theorem foldedLit_append {n lit : List UInt8} (h : n.map toLower = lit) (t : List UInt8) :
    foldedLit (n ++ t) lit = true := by
  unfold foldedLit
  rw [List.map_append, h]
  exact List.isPrefixOf_iff_prefix.mpr (List.prefix_append _ _)

theorem eq_zero_of_toLower {b : UInt8} (h : toLower b = 0x30) : b = 0x30 := by
  unfold toLower at h
  split at h
  · next hb =>
    simp only [Bool.and_eq_true, decide_eq_true_eq] at hb
    grind
  · exact h

/-- A word in front of a piece. -/
theorem Again.behind {read read' : List UInt8 → Option (List UInt8)} {m p r : List UInt8} (h : Again read p r)
    (hne : m ≠ []) (hplain : Solid m) (hread : ∀ x, read' (m ++ x) = read x) : Takes read' (m ++ p) r := by
  obtain ⟨n, rfl, hplain', hagain⟩ := h
  refine ⟨m ++ n, by simp [hne], (List.append_assoc _ _ _).symm, hplain.append hplain', fun t ht => ?_⟩
  rw [List.append_assoc, hread]
  exact hagain t ht

theorem strtodMagnitude_spec {p r : List UInt8} (h : strtodMagnitude p = some r) : Takes strtodMagnitude p r := by
  have hclosers (lit : List UInt8) (h : 0x2c ∉ lit ∧ 0x5d ∉ lit ∧ 0x7d ∉ lit) :
      ∀ b, b = 0x2c ∨ b = 0x5d ∨ b = 0x7d → b ∉ lit := by
    rintro b (rfl | rfl | rfl)
    · exact h.1
    · exact h.2.1
    · exact h.2.2
  have hinfinity := hclosers (bytes "infinity") (by decide)
  have hinf := hclosers (bytes "inf") (by decide)
  have hnan := hclosers (bytes "nan") (by decide)
  have hhex := hclosers (bytes "0x") (by decide)
  have hnil {n lit : List UInt8} (h : n.map toLower = lit) (hlit : lit ≠ []) : n ≠ [] := by
    rintro rfl
    exact hlit h.symm
  -- a word that stands in front keeps the others away
  have hother {n word : List UInt8} (hn : n.map toLower = word) (x lit : List UInt8)
      (hlit : lit.isPrefixOf (word ++ x.map toLower) = false) : foldedLit (n ++ x) lit = false := by
    rw [foldedLit, List.map_append, hn, hlit]
  unfold strtodMagnitude at h
  split at h
  · next hword =>
    obtain ⟨n, hp, hn, hplain⟩ := foldedLit_eq_true hword (by decide +kernel)
    cases h
    refine ⟨n, hnil hn (by decide), hp, hplain, fun t _ => ?_⟩
    have hlength : n.length = 8 := by rw [← List.length_map toLower, hn]; rfl
    rw [strtodMagnitude, if_pos (foldedLit_append hn t), ← hlength, List.drop_left]
  next notInfinity =>
  split at h
  · next hword =>
    obtain ⟨n, hp, hn, hplain⟩ := foldedLit_eq_true hword (by decide +kernel)
    cases h
    refine ⟨n, hnil hn (by decide), hp, hplain, fun t ht => ?_⟩
    have hlength : n.length = 3 := by rw [← List.length_map toLower, hn]; rfl
    rw [hp] at notInfinity
    have hnot := foldedLit_again (Bool.eq_false_iff.mpr notInfinity) ht hinfinity
    rw [strtodMagnitude, if_neg (Bool.eq_false_iff.mp hnot), if_pos (foldedLit_append hn t), ← hlength,
      List.drop_left]
  next notInf =>
  split at h
  · next hword =>
    obtain ⟨n, hp, hn, hplain⟩ := foldedLit_eq_true hword (by decide +kernel)
    cases h
    have hlength : n.length = 3 := by rw [← List.length_map toLower, hn]; rfl
    have htakes : Takes strtodMagnitude (n ++ p.drop 3) _ :=
      (nanTail_spec (p.drop 3)).behind (hnil hn (by decide)) hplain fun x => by
        rw [strtodMagnitude, hother hn x (bytes "infinity") rfl, hother hn x (bytes "inf") rfl, foldedLit_append hn x,
          ← hlength, List.drop_left]
        rfl
    change p = n ++ p.drop 3 at hp
    rwa [← hp] at htakes
  next notNan =>
  split at h
  · next hword =>
    obtain ⟨n, hp, hn, hplain⟩ := foldedLit_eq_true hword (by decide +kernel)
    have hlength : n.length = 2 := by rw [← List.length_map toLower, hn]; rfl
    have hread {x rest : List UInt8} (h : mantissa (fun b => (hexDigit b).isSome) x = some rest) :
        strtodMagnitude (n ++ x) = some (exponent 0x70 rest) := by
      rw [strtodMagnitude, hother hn x (bytes "infinity") rfl, hother hn x (bytes "inf") rfl,
        hother hn x (bytes "nan") rfl, foldedLit_append hn x, ← hlength, List.drop_left]
      simp only [h, Bool.false_eq_true, if_false, if_true]
    split at h
    · next rest hmantissa =>
      have hnumber : (mantissa (fun b => (hexDigit b).isSome) (p.drop 2)).map (exponent 0x70) = some r := by
        rw [hmantissa, Option.map_some]
        exact h
      obtain ⟨m, -, hrest, hplain', hagain⟩ := number_spec digits_hexDigit (.inr rfl) hnumber
      refine ⟨n ++ m, by simp [hnil hn (by decide)], ?_, hplain.append hplain', fun t ht => ?_⟩
      · rw [List.append_assoc, ← hrest]
        exact hp
      · obtain ⟨rest', hrest', hexp⟩ := Option.map_eq_some_iff.mp (hagain t ht)
        rw [List.append_assoc, hread hrest', hexp]
    · -- without a digit behind it only the zero is a number
      cases h
      obtain ⟨zero, x, rfl⟩ := List.length_eq_two.mp hlength
      obtain ⟨hzero, -⟩ := List.cons.inj hn
      have hmap : [zero].map toLower = [0x30] := congrArg (fun b => [b]) hzero
      refine ⟨[zero], by simp, ?_, fun b hb => hplain b (List.mem_append_left [x] hb), fun t ht => ?_⟩
      · rw [hp]
        rfl
      · obtain rfl := eq_zero_of_toLower hzero
        have hnothex : foldedLit ([0x30] ++ t) (bytes "0x") = false := by
          cases t with
          | nil => rfl
          | cons b t => rcases ht b rfl with rfl | rfl | rfl <;> rfl
        have hmantissa : mantissa isDigit ([0x30] ++ t) = some t := by
          cases t with
          | nil => rfl
          | cons b t => rcases ht b rfl with rfl | rfl | rfl <;> rfl
        rw [strtodMagnitude, hother hmap t (bytes "infinity") rfl, hother hmap t (bytes "inf") rfl,
          hother hmap t (bytes "nan") rfl, hnothex, hmantissa, Option.map_some, exponent_closed (.inl rfl) ht]
        rfl
  · next notHex =>
    obtain ⟨n, hne, hp, hplain, hagain⟩ := number_spec digits_isDigit (.inl rfl) h
    refine ⟨n, hne, hp, hplain, fun t ht => ?_⟩
    rw [hp] at notInfinity notInf notNan notHex
    rw [strtodMagnitude, foldedLit_again (Bool.eq_false_iff.mpr notInfinity) ht hinfinity,
      foldedLit_again (Bool.eq_false_iff.mpr notInf) ht hinf, foldedLit_again (Bool.eq_false_iff.mpr notNan) ht hnan,
      foldedLit_again (Bool.eq_false_iff.mpr notHex) ht hhex]
    exact hagain t ht

theorem jsonWs_of_head {p : List UInt8} (h : ∀ b ∈ p.head?, isspace b = false) : jsonWs p = p := by
  cases p with
  | nil => rfl
  | cons b p => exact List.dropWhile_cons_of_neg (by simp [h b rfl])

theorem strtod_spec {p r : List UInt8} (hws : jsonWs p = p) (h : strtod p = some r) : Takes strtod p r := by
  have hread {c : UInt8} {x : List UInt8} (hc : isspace c = false) :
      strtod (c :: x) = if c = 0x2b ∨ c = 0x2d then strtodMagnitude x else strtodMagnitude (c :: x) := by
    rw [strtod, List.dropWhile_cons_of_neg (by simp [hc])]
  cases p with
  | nil => cases h
  | cons c p =>
    have hc : isspace c = false := by
      have hnot : ∀ b ∈ (jsonWs (c :: p)).head?, isspace b = false := head_dropWhile
      exact hnot c (by rw [hws]; rfl)
    rw [hread hc] at h
    by_cases hsign : c = 0x2b ∨ c = 0x2d
    · rw [if_pos hsign] at h
      obtain ⟨n, -, rfl, hplain, hagain⟩ := strtodMagnitude_spec h
      have hagain : Again strtodMagnitude (n ++ r) r := ⟨n, rfl, hplain, hagain⟩
      refine hagain.behind (m := [c]) (by simp) (solid_singleton ⟨hc, ?_⟩) fun x => ?_
      · rcases hsign with rfl | rfl <;> decide
      · rw [List.singleton_append, hread hc, if_pos hsign]
    · rw [if_neg hsign] at h
      obtain ⟨n, hne, hp, hplain, hagain⟩ := strtodMagnitude_spec h
      refine ⟨n, hne, hp, hplain, fun t ht => ?_⟩
      obtain ⟨d, n, rfl⟩ := List.exists_cons_of_ne_nil hne
      obtain rfl : c = d := (List.cons.inj hp).1
      rw [List.cons_append, hread hc, if_neg hsign]
      exact hagain t ht

theorem jsonSkipScalar_spec {p r : List UInt8} (hws : jsonWs p = p) (h : jsonSkipScalar p = some r) :
    Takes jsonSkipScalar p r := by
  have hclosers {lit : List UInt8} (h : 0x2c ∉ lit ∧ 0x5d ∉ lit ∧ 0x7d ∉ lit) :
      ∀ b, b = 0x2c ∨ b = 0x5d ∨ b = 0x7d → b ∉ lit := by
    rintro b (rfl | rfl | rfl)
    · exact h.1
    · exact h.2.1
    · exact h.2.2
  have hlit {lit r : List UInt8} (h : jsonLit p lit = some r) : p = lit ++ r := by
    unfold jsonLit at h
    split at h
    · next hprefix =>
      cases h
      obtain ⟨t, rfl⟩ := List.isPrefixOf_iff_prefix.mp hprefix
      rw [List.drop_left]
    · cases h
  have hlit' (lit t : List UInt8) : jsonLit (lit ++ t) lit = some t := by
    rw [jsonLit, if_pos (List.isPrefixOf_iff_prefix.mpr (List.prefix_append _ _)), List.drop_left]
  cases htrue : jsonLit p (bytes "true") with
  | some r' =>
    obtain rfl : r' = r := by simpa [jsonSkipScalar, htrue] using h
    refine ⟨bytes "true", by decide, hlit htrue, by decide +kernel, fun t _ => ?_⟩
    rw [jsonSkipScalar, hlit']
    rfl
  | none =>
  cases hfalse : jsonLit p (bytes "false") with
  | some r' =>
    obtain rfl : r' = r := by simpa [jsonSkipScalar, htrue, hfalse] using h
    refine ⟨bytes "false", by decide, hlit hfalse, by decide +kernel, fun t _ => ?_⟩
    rw [jsonSkipScalar, hlit']
    rfl
  | none =>
  cases hnull : jsonLit p (bytes "null") with
  | some r' =>
    obtain rfl : r' = r := by simpa [jsonSkipScalar, htrue, hfalse, hnull] using h
    refine ⟨bytes "null", by decide, hlit hnull, by decide +kernel, fun t _ => ?_⟩
    rw [jsonSkipScalar, hlit']
    rfl
  | none =>
    have hnumber : strtod p = some r := by simpa [jsonSkipScalar, htrue, hfalse, hnull] using h
    obtain ⟨n, hne, rfl, hplain, hagain⟩ := strtod_spec hws hnumber
    refine ⟨n, hne, rfl, hplain, fun t ht => ?_⟩
    rw [jsonSkipScalar, jsonLit_again htrue ht (hclosers (by decide)), jsonLit_again hfalse ht (hclosers (by decide)),
      jsonLit_again hnull ht (hclosers (by decide))]
    exact hagain t ht

end Spark.Server
