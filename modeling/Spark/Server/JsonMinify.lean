import Spark.Server.JsonArgs
import Spark.Server.JsonPieces

/-!
# The minifier of the GLM server

`json_minify_raw_value` drops white space with a state machine of its own behind `json_skip_value`. What the skipping
accepts is followed piece by piece, with what is left of each piece.

* **`Compact`** — a text, what is left of it, and the strings of both.
* **`jsonSkipValueDepth_compacts`** — what is left of a value is read again, with the same strings.
* **`json_codec`** — strings come back, fragments go together, and minifying keeps a value and its strings.
-/

namespace Spark.Server

open Json

/-! ## What is left of a text -/

/-- The strings of a text with their quotes, as `json_string` reads them. -/
def jsonStringsLoop : Nat → List UInt8 → List (List UInt8)
  | 0, _ => []
  | _ + 1, [] => []
  | fuel + 1, c :: p =>
    if c = 0x22 then
      match jsonString (c :: p) with
      | none => []
      | some (_, rest) => (c :: p).take ((c :: p).length - rest.length) :: jsonStringsLoop fuel rest
    else jsonStringsLoop fuel p

def jsonStrings (p : List UInt8) : List (List UInt8) := jsonStringsLoop p.length p

/-- A text that is read as a string whatever follows it. -/
structure StringText (text : List UInt8) : Prop where
  quoted : ∃ raw, text = 0x22 :: raw ++ [0x22] ∧ scan false raw = some false
  again : ∃ s, ∀ t, jsonString (text ++ t) = some (s, t)

theorem jsonString_spec {p s r : List UInt8} (h : jsonString p = some (s, r)) :
    ∃ text, jsonWs p = text ++ r ∧ StringText text := by
  unfold jsonString at h
  split at h
  · cases h
  next c p' hws =>
  split at h
  · next hc =>
    subst hc
    obtain ⟨⟨s', r'⟩, hloop, heq⟩ := Option.map_eq_some_iff.mp h
    obtain ⟨-, rfl⟩ := Prod.mk.inj heq
    obtain ⟨raw, rfl, hscan, hagain⟩ := jsonStringLoop_spec hloop
    refine ⟨0x22 :: raw ++ [0x22], by simp [hws], ⟨raw, rfl, hscan⟩, ⟨cString s', fun t => ?_⟩⟩
    have hws' : jsonWs (0x22 :: raw ++ [0x22] ++ t) = 0x22 :: (raw ++ 0x22 :: t) := by simp [jsonWs, isspace]
    have hfuel : raw.length < (raw ++ 0x22 :: t).length + 1 := by
      rw [List.length_append]
      omega
    simp only [jsonString, hws', if_true, hagain t _ hfuel, Option.map_some]
  · cases h

theorem StringText.ne_nil {text : List UInt8} (h : StringText text) : text ≠ [] := by
  obtain ⟨raw, rfl, -⟩ := h.quoted
  simp

theorem jsonStringsLoop_eq {fuel : Nat} {p : List UInt8} (h : p.length ≤ fuel) :
    jsonStringsLoop fuel p = jsonStrings p := by
  suffices hall : ∀ (n : Nat) (p : List UInt8) (fuel fuel' : Nat), p.length = n → n ≤ fuel → n ≤ fuel' →
      jsonStringsLoop fuel p = jsonStringsLoop fuel' p from hall _ _ _ _ rfl h (Nat.le_refl _)
  intro n
  induction n using Nat.strongRecOn with
  | ind n ih =>
    intro p fuel fuel' hn hfuel hfuel'
    cases p with
    | nil => cases fuel <;> cases fuel' <;> rfl
    | cons c p =>
      rw [List.length_cons] at hn
      obtain ⟨fuel, rfl⟩ : ∃ k, fuel = k + 1 := ⟨fuel - 1, by omega⟩
      obtain ⟨fuel', rfl⟩ : ∃ k, fuel' = k + 1 := ⟨fuel' - 1, by omega⟩
      rw [jsonStringsLoop, jsonStringsLoop]
      split
      · cases hstring : jsonString (c :: p) with
        | none => rfl
        | some out =>
          obtain ⟨text, hws, htext⟩ := jsonString_spec (s := out.1) (r := out.2) hstring
          have hlength : (jsonWs (c :: p)).length ≤ (c :: p).length := (List.dropWhile_sublist _).length_le
          have hpos := List.length_pos_iff.mpr htext.ne_nil
          rw [hws, List.length_append, List.length_cons] at hlength
          simp only
          rw [ih out.2.length (by omega) out.2 fuel fuel' rfl (by omega) (by omega)]
      · exact ih p.length (by omega) p fuel fuel' rfl (by omega) (by omega)

theorem jsonStrings_plain {n : List UInt8} (h : ∀ b ∈ n, b ≠ 0x22) (t : List UInt8) :
    jsonStrings (n ++ t) = jsonStrings t := by
  induction n with
  | nil => rfl
  | cons b n ih =>
    obtain ⟨hb, hn⟩ := List.forall_mem_cons.mp h
    rw [List.cons_append, jsonStrings, List.length_cons, jsonStringsLoop, if_neg hb]
    exact ih hn

theorem jsonStrings_string {text : List UInt8} (h : StringText text) (t : List UInt8) :
    jsonStrings (text ++ t) = text :: jsonStrings t := by
  obtain ⟨s, hagain⟩ := h.again
  have hread := hagain t
  obtain ⟨raw, htext, -⟩ := h.quoted
  have hcons : text ++ t = 0x22 :: (raw ++ 0x22 :: t) := by simp [htext]
  have hlength : (raw ++ 0x22 :: t).length + 1 - t.length = text.length := by simp [htext]; omega
  rw [hcons] at hread
  rw [hcons, jsonStrings, List.length_cons, jsonStringsLoop, if_pos rfl, hread]
  simp only
  rw [List.length_cons, hlength, ← hcons, List.take_left, jsonStringsLoop_eq (by simp; omega)]

/-- A text, what is left of it without white space, and the strings of both. -/
structure Compact (v w : List UInt8) (strs : List (List UInt8)) : Prop where
  strip_append : ∀ t, strip isspace (false, false) (v ++ t) = w ++ strip isspace (false, false) t
  strings : ∀ t, jsonStrings (v ++ t) = strs ++ jsonStrings t
  kept : ∀ t, jsonStrings (w ++ t) = strs ++ jsonStrings t

theorem Compact.append {v w v' w' : List UInt8} {strs strs' : List (List UInt8)} (h : Compact v w strs)
    (h' : Compact v' w' strs') : Compact (v ++ v') (w ++ w') (strs ++ strs') where
  strip_append t := by simp only [List.append_assoc, h.strip_append, h'.strip_append]
  strings t := by simp only [List.append_assoc, h.strings, h'.strings]
  kept t := by simp only [List.append_assoc, h.kept, h'.kept]

theorem compact_blank {ws : List UInt8} (h : ∀ b ∈ ws, isspace b = true) : Compact ws [] [] where
  strip_append t := by
    induction ws with
    | nil => rfl
    | cons b ws ih =>
      obtain ⟨hb, hws⟩ := List.forall_mem_cons.mp h
      have hne : b ≠ 0x22 := by
        rintro rfl
        cases hb
      rw [List.cons_append, strip, if_neg hne, if_pos hb]
      exact ih hws
  strings := by
    refine jsonStrings_plain fun b hb hquote => ?_
    subst hquote
    cases h _ hb
  kept _ := rfl

theorem compact_solid {n : List UInt8} (h : Solid n) : Compact n n [] where
  strip_append t := by
    induction n with
    | nil => rfl
    | cons b n ih =>
      obtain ⟨⟨hspace, hne⟩, hn⟩ := List.forall_mem_cons.mp h
      rw [List.cons_append, strip, if_neg hne, if_neg (by simp [hspace]), ih hn]
      rfl
  strings := jsonStrings_plain fun b hb => (h b hb).2
  kept := jsonStrings_plain fun b hb => (h b hb).2

theorem compact_string {text : List UInt8} (h : StringText text) : Compact text text [text] where
  strip_append t := by
    obtain ⟨raw, rfl, hscan⟩ := h.quoted
    rw [List.append_assoc, List.cons_append, strip, if_pos rfl, List.singleton_append, strip_scan hscan]
    simp
  strings := jsonStrings_string h
  kept := jsonStrings_string h

/-- The white space in front of a text, and what follows it. -/
theorem compact_jsonWs {p x : List UInt8} (h : jsonWs p = x) : ∃ ws, p = ws ++ x ∧ Compact ws [] [] :=
  ⟨p.takeWhile isspace, by rw [← h, jsonWs, List.takeWhile_append_dropWhile],
    compact_blank fun _ hb => mem_takeWhile _ hb⟩

theorem Compact.eq_strip {v w : List UInt8} {strs : List (List UInt8)} (h : Compact v w strs) :
    w = strip isspace (false, false) v := by
  have hstrip := h.strip_append []
  rw [show strip isspace (false, false) [] = [] by rw [strip], List.append_nil, List.append_nil] at hstrip
  exact hstrip.symm

/-- A byte that is no white space stays in front. -/
theorem Compact.head {c : UInt8} {v w : List UInt8} {strs : List (List UInt8)} (h : Compact (c :: v) w strs)
    (hc : isspace c = false) : ∃ w', w = c :: w' := by
  have hfront := h.eq_strip
  rw [strip] at hfront
  split at hfront
  · exact ⟨_, hfront⟩
  · rw [if_neg (by simp [hc])] at hfront
    exact ⟨_, hfront⟩

theorem isspace_head {p x : List UInt8} {c : UInt8} (h : jsonWs p = c :: x) : isspace c = false := by
  have hnot : ∀ b ∈ (jsonWs p).head?, isspace b = false := head_dropWhile
  exact hnot c (by rw [h]; rfl)

/-! ## Values -/

/-- What is left of what is read is read again before what closes a value. -/
def Compacts (read : List UInt8 → Option (List UInt8)) (p r : List UInt8) : Prop :=
  ∃ v w strs, p = v ++ r ∧ Compact v w strs ∧ ∀ t, Closed t → read (w ++ t) = some t

/-- `Compacts`, for a loop: the text in front is not empty and its last byte closes the value. -/
def LoopCompacts (loop : Nat → List UInt8 → Option (List UInt8)) (p r : List UInt8) : Prop :=
  ∃ v w strs, p = v ++ r ∧ Compact v w strs ∧ w ≠ [] ∧ ∀ t fuel, w.length ≤ fuel → loop fuel (w ++ t) = some t

theorem Takes.compacts {read : List UInt8 → Option (List UInt8)} {p r : List UInt8} (h : Takes read p r) :
    Compacts read p r := by
  obtain ⟨n, -, hp, hplain, hagain⟩ := h
  exact ⟨n, n, [], hp, compact_solid hplain, hagain⟩

section Loops

variable {skip : List UInt8 → Option (List UInt8)} (hskip : ∀ {p r}, skip p = some r → Compacts skip p r)
include hskip

theorem jsonSkipArrayLoop_compacts {fuel : Nat} {p r : List UInt8} (h : jsonSkipArrayLoop skip fuel p = some r) :
    LoopCompacts (jsonSkipArrayLoop skip) p r := by
  induction fuel generalizing p with
  | zero => cases h
  | succ fuel ih =>
    rw [jsonSkipArrayLoop] at h
    split at h
    · cases h
    next p' hvalue =>
    split at h
    · cases h
    next c q hws =>
    obtain ⟨v, w, strs, rfl, hcompact, hagain⟩ := hskip hvalue
    obtain ⟨ws, rfl, hblank⟩ := compact_jsonWs hws
    have hspace := isspace_head hws
    split at h
    · next hc =>
      cases h
      subst hc
      have hclose := compact_solid (solid_singleton (b := 0x5d) (by decide))
      refine ⟨v ++ (ws ++ [0x5d]), w ++ ([] ++ [0x5d]), strs ++ ([] ++ []), by simp,
        hcompact.append (hblank.append hclose), by simp, fun t fuel' hfuel => ?_⟩
      obtain ⟨fuel', rfl⟩ : ∃ k, fuel' = k + 1 := ⟨fuel' - 1, by simp at hfuel; omega⟩
      have hread := hagain (0x5d :: t) (by simp [Closed])
      rw [List.nil_append, List.append_assoc, List.singleton_append, jsonSkipArrayLoop, hread]
      simp only [jsonWs_cons hspace, if_true]
    · next hopen =>
      split at h
      · next hc =>
        subst hc
        obtain ⟨v', w', strs', rfl, hcompact', hne, hagain'⟩ := ih h
        have hcomma := compact_solid (solid_singleton (b := 0x2c) (by decide))
        refine ⟨v ++ (ws ++ ([0x2c] ++ v')), w ++ ([] ++ ([0x2c] ++ w')), strs ++ ([] ++ ([] ++ strs')), by simp,
          hcompact.append (hblank.append (hcomma.append hcompact')), by simp, fun t fuel' hfuel => ?_⟩
        obtain ⟨fuel', rfl⟩ : ∃ k, fuel' = k + 1 := ⟨fuel' - 1, by simp at hfuel; omega⟩
        have hread := hagain (0x2c :: (w' ++ t)) (by simp [Closed])
        have hlater := hagain' t fuel' (by simp at hfuel; omega)
        rw [List.nil_append, List.append_assoc, List.append_assoc, List.singleton_append, jsonSkipArrayLoop, hread]
        simp only [jsonWs_cons hspace, if_neg hopen, if_true, hlater]
      · cases h

theorem jsonSkipObjectLoop_compacts {fuel : Nat} {p r : List UInt8} (h : jsonSkipObjectLoop skip fuel p = some r) :
    LoopCompacts (jsonSkipObjectLoop skip) p r := by
  induction fuel generalizing p with
  | zero => cases h
  | succ fuel ih =>
    rw [jsonSkipObjectLoop] at h
    split at h
    · cases h
    next key p₁ hkey =>
    split at h
    · cases h
    next colon p₂ hws₁ =>
    split at h
    · cases h
    next hcolon =>
    obtain rfl : colon = 0x3a := not_not.mp hcolon
    split at h
    · cases h
    next p₃ hvalue =>
    split at h
    · cases h
    next c q hws₃ =>
    obtain ⟨text, hws, htext⟩ := jsonString_spec hkey
    obtain ⟨ws, rfl, hblank⟩ := compact_jsonWs hws
    obtain ⟨ws₁, rfl, hblank₁⟩ := compact_jsonWs hws₁
    obtain ⟨v, w, strs, rfl, hcompact, hagain⟩ := hskip hvalue
    obtain ⟨ws₃, rfl, hblank₃⟩ := compact_jsonWs hws₃
    have hspace := isspace_head hws₃
    have hmember := hblank.append ((compact_string htext).append (hblank₁.append
      ((compact_solid (solid_singleton (b := 0x3a) (by decide))).append (hcompact.append hblank₃))))
    obtain ⟨s, hstring⟩ := htext.again
    -- what is left of the member is read again before the byte behind it
    have hstep (fuel : Nat) (x : List UInt8) (hc : c = 0x7d ∨ c = 0x2c) :
        jsonSkipObjectLoop skip (fuel + 1) (text ++ 0x3a :: (w ++ c :: x)) =
          if c = 0x7d then some x else if c = 0x2c then jsonSkipObjectLoop skip fuel x else none := by
      have hclosed : Closed (c :: x) := by
        intro b hb
        cases hb
        rcases hc with rfl | rfl <;> simp
      rw [jsonSkipObjectLoop, hstring]
      simp only [jsonWs_cons (show isspace 0x3a = false by decide), ne_eq, not_true_eq_false, if_false,
        hagain _ hclosed, jsonWs_cons hspace]
    split at h
    · next hc =>
      cases h
      subst hc
      have hclose := compact_solid (solid_singleton (b := 0x7d) (by decide))
      refine ⟨_, _, _, ?_, hmember.append hclose, by simp, fun t fuel' hfuel => ?_⟩
      · simp
      · obtain ⟨fuel', rfl⟩ : ∃ k, fuel' = k + 1 := ⟨fuel' - 1, by simp at hfuel; omega⟩
        have hread := hstep fuel' t (.inl rfl)
        simpa using hread
    · next hopen =>
      split at h
      · next hc =>
        subst hc
        obtain ⟨v', w', strs', rfl, hcompact', hne, hagain'⟩ := ih h
        have hcomma := compact_solid (solid_singleton (b := 0x2c) (by decide))
        refine ⟨_, _, _, ?_, hmember.append (hcomma.append hcompact'), by simp, fun t fuel' hfuel => ?_⟩
        · simp
        · obtain ⟨fuel', rfl⟩ : ∃ k, fuel' = k + 1 := ⟨fuel' - 1, by simp at hfuel; omega⟩
          have hread := hstep fuel' (w' ++ t) (.inr rfl)
          rw [if_neg hopen, if_pos rfl, hagain' t fuel' (by simp at hfuel; omega)] at hread
          simpa using hread
      · cases h

end Loops

/-- Brackets around the items of a loop. -/
theorem compacts_bracket {loop : Nat → List UInt8 → Option (List UInt8)} {close : UInt8}
    (hclose : isspace close = false ∧ close ≠ 0x22) {p r : List UInt8}
    (h : (match jsonWs p with
      | [] => none
      | c :: p => if c = close then some p else loop (p.length + 1) (c :: p)) = some r)
    (hloop : ∀ {fuel p}, loop fuel p = some r → LoopCompacts loop p r) :
    ∃ v w strs, p = v ++ r ∧ Compact v w strs ∧ ∀ t, (match jsonWs (w ++ t) with
      | [] => none
      | c :: p => if c = close then some p else loop (p.length + 1) (c :: p)) = some t := by
  split at h
  · cases h
  next c q hws =>
  obtain ⟨ws, rfl, hblank⟩ := compact_jsonWs hws
  have hspace := isspace_head hws
  split at h
  · next hc =>
    cases h
    subst hc
    refine ⟨ws ++ [c], [] ++ [c], [] ++ [], by simp, hblank.append (compact_solid (solid_singleton hclose)),
      fun t => ?_⟩
    rw [List.nil_append, List.singleton_append, jsonWs_cons hspace]
    exact if_pos rfl
  · next hc =>
    obtain ⟨v, w, strs, hv, hcompact, hne, hagain⟩ := hloop h
    refine ⟨ws ++ v, [] ++ w, [] ++ strs, by rw [List.append_assoc, ← hv], hblank.append hcompact, fun t => ?_⟩
    -- the byte in front is the one the loop began with
    have hfront : ∃ w', w = c :: w' := by
      cases v with
      | nil =>
        have hnil := hcompact.eq_strip
        rw [strip] at hnil
        exact absurd hnil hne
      | cons b v =>
        obtain rfl : c = b := (List.cons.inj hv).1
        exact hcompact.head hspace
    obtain ⟨w', rfl⟩ := hfront
    rw [List.nil_append, List.cons_append, jsonWs_cons hspace]
    simp only [if_neg hc]
    exact hagain t _ (by simp)

theorem jsonSkipValueDepth_cons {levels : Nat} {c : UInt8} (hc : isspace c = false) (p : List UInt8) :
    jsonSkipValueDepth levels (c :: p) =
      if c = 0x22 then (jsonString (c :: p)).map (·.2)
      else if c = 0x7b then
        match levels with
        | 0 => none
        | levels + 1 => jsonSkipObject (jsonSkipValueDepth levels) p
      else if c = 0x5b then
        match levels with
        | 0 => none
        | levels + 1 => jsonSkipArray (jsonSkipValueDepth levels) p
      else jsonSkipScalar (c :: p) := by
  have hws := jsonWs_cons hc p
  unfold jsonSkipValueDepth
  split
  · next h => cases hws.symm.trans h
  · next h =>
    obtain ⟨rfl, rfl⟩ := List.cons.inj (hws.symm.trans h)
    rfl

theorem jsonSkipValueDepth_jsonWs (levels : Nat) (p : List UInt8) :
    jsonSkipValueDepth levels (jsonWs p) = jsonSkipValueDepth levels p := by
  have hws : jsonWs (jsonWs p) = jsonWs p := jsonWs_of_head head_dropWhile
  unfold jsonSkipValueDepth
  rw [hws]

/-- A value behind a byte of its own: an array or an object. -/
theorem compacts_opened {levels : Nat} {opening : UInt8} (hopening : isspace opening = false ∧ opening ≠ 0x22)
    (read : List UInt8 → Option (List UInt8)) {p r : List UInt8}
    (hread : ∀ p, jsonSkipValueDepth levels (opening :: p) = read p)
    (h : ∃ v w strs, p = v ++ r ∧ Compact v w strs ∧ ∀ t, read (w ++ t) = some t) :
    Compacts (jsonSkipValueDepth levels) (opening :: p) r := by
  obtain ⟨v, w, strs, rfl, hcompact, hagain⟩ := h
  refine ⟨[opening] ++ v, [opening] ++ w, [] ++ strs, by simp,
    (compact_solid (solid_singleton hopening)).append hcompact, fun t _ => ?_⟩
  rw [List.append_assoc, List.singleton_append, hread]
  exact hagain t

/-- **A value is read again.** What is left of a value without white space is read to its end, before the end of the
text and before what closes it. -/
theorem jsonSkipValueDepth_compacts {levels : Nat} {p r : List UInt8} (h : jsonSkipValueDepth levels p = some r) :
    Compacts (jsonSkipValueDepth levels) p r := by
  induction levels using Nat.strongRecOn generalizing p r with
  | ind levels ih =>
    cases hws : jsonWs p with
    | nil =>
      unfold jsonSkipValueDepth at h
      rw [hws] at h
      cases h
    | cons c x =>
      obtain ⟨ws, rfl, hblank⟩ := compact_jsonWs hws
      have hspace := isspace_head hws
      suffices hvalue : Compacts (jsonSkipValueDepth levels) (c :: x) r by
        obtain ⟨v, w, strs, hv, hcompact, hagain⟩ := hvalue
        exact ⟨ws ++ v, [] ++ w, [] ++ strs, by rw [List.append_assoc, ← hv], hblank.append hcompact, hagain⟩
      rw [← jsonSkipValueDepth_jsonWs, hws, jsonSkipValueDepth_cons hspace] at h
      split at h
      · next hc =>
        subst hc
        obtain ⟨⟨s, r'⟩, hstring, rfl⟩ := Option.map_eq_some_iff.mp h
        obtain ⟨text, htext, hagain⟩ := jsonString_spec hstring
        rw [jsonWs_cons hspace] at htext
        refine ⟨text, text, [text], htext, compact_string hagain, fun t _ => ?_⟩
        obtain ⟨s, hread⟩ := hagain.again
        obtain ⟨raw, rfl, -⟩ := hagain.quoted
        have hread' := hread t
        rw [List.cons_append, List.cons_append] at hread' ⊢
        rw [jsonSkipValueDepth_cons hspace, if_pos rfl, hread']
        rfl
      next hquote =>
      split at h
      · next hc =>
        subst hc
        cases levels with
        | zero => cases h
        | succ l =>
          refine compacts_opened (by decide) (jsonSkipObject (jsonSkipValueDepth l)) (fun p => ?_)
            (compacts_bracket (by decide) h (jsonSkipObjectLoop_compacts (ih l (Nat.lt_succ_self l))))
          rw [jsonSkipValueDepth_cons hspace, if_neg hquote, if_pos rfl]
      next hobject =>
      split at h
      · next hc =>
        subst hc
        cases levels with
        | zero => cases h
        | succ l =>
          refine compacts_opened (by decide) (jsonSkipArray (jsonSkipValueDepth l)) (fun p => ?_)
            (compacts_bracket (by decide) h (jsonSkipArrayLoop_compacts (ih l (Nat.lt_succ_self l))))
          rw [jsonSkipValueDepth_cons hspace, if_neg hquote, if_neg hobject, if_pos rfl]
      · next harray =>
        obtain ⟨n, hne, hn, hplain, hagain⟩ := jsonSkipScalar_spec (jsonWs_cons hspace x) h
        refine ⟨n, n, [], hn, compact_solid hplain, fun t ht => ?_⟩
        obtain ⟨d, n, rfl⟩ := List.exists_cons_of_ne_nil hne
        obtain rfl : c = d := (List.cons.inj hn).1
        rw [List.cons_append, jsonSkipValueDepth_cons hspace, if_neg hquote, if_neg hobject, if_neg harray]
        exact hagain t ht

/-! ## The codec -/

/-- The loop of `json_escape`, which a zero byte ends. -/
def jsonEscapeLoop : List UInt8 → List UInt8
  | [] => []
  | c :: s => if c = 0 then [] else escapeByte c ++ jsonEscapeLoop s

/-- `json_escape` of a text that may hold a zero byte. -/
def jsonEscapeText (s : List UInt8) : List UInt8 := 0x22 :: jsonEscapeLoop s ++ [0x22]

theorem jsonEscapeText_eq {s : List UInt8} (h : 0 ∉ s) : jsonEscapeText s = jsonEscape s := by
  have hloop : jsonEscapeLoop s = jsonEscapeFragment s := by
    induction s with
    | nil => rfl
    | cons c s ih =>
      rw [List.mem_cons, not_or] at h
      obtain ⟨hc, hs⟩ := h
      rw [jsonEscapeLoop, if_neg (Ne.symm hc), ih hs]
      rfl
  rw [jsonEscapeText, hloop]
  rfl

theorem jsonEscapeFragment_append (s t : List UInt8) :
    jsonEscapeFragment (s ++ t) = jsonEscapeFragment s ++ jsonEscapeFragment t := List.flatMap_append

theorem jsonEscapeFragment_flatten (pieces : List (List UInt8)) :
    jsonEscapeFragment pieces.flatten = pieces.flatMap jsonEscapeFragment := by
  induction pieces with
  | nil => rfl
  | cons piece pieces ih => rw [List.flatten_cons, jsonEscapeFragment_append, ih, List.flatMap_cons]

/-- What `json_minify_raw_value` makes of a value. -/
structure Minified (json value : List UInt8) : Prop where
  accepted : jsonSkipValue (jsonMinifyRawValue json) = some []
  stable : jsonMinifyRawValue (jsonMinifyRawValue json) = jsonMinifyRawValue json
  strings : jsonStrings (jsonMinifyRawValue json) = jsonStrings value

theorem minified_of_skip {json rest : List UInt8} (h : jsonSkipValue json = some rest) :
    ∃ value, jsonWs json = value ++ rest ∧ Minified json value := by
  have hskip : jsonSkipValue (jsonWs json) = some rest := (jsonSkipValueDepth_jsonWs _ json).trans h
  obtain ⟨v, w, strs, hv, hcompact, hagain⟩ := jsonSkipValueDepth_compacts hskip
  have hminify : jsonMinifyRawValue json = w := by
    rw [jsonMinifyRawValue]
    simp only [hskip]
    rw [hv, List.length_append, Nat.add_sub_cancel, List.take_left, ← hcompact.eq_strip]
  have haccepted : jsonSkipValue w = some [] := by
    have hread := hagain [] closed_nil
    rwa [List.append_nil] at hread
  refine ⟨v, hv, ⟨?_, ?_, ?_⟩⟩
  · rw [hminify, haccepted]
  · rw [hminify, jsonMinifyRawValue]
    have hskip' : jsonSkipValue (jsonWs w) = some [] := (jsonSkipValueDepth_jsonWs _ w).trans haccepted
    obtain ⟨ws, hws, hblank⟩ := compact_jsonWs (p := w) rfl
    have hstrip := hblank.strip_append (jsonWs w)
    rw [← hws] at hstrip
    simp only [hskip', List.length_nil, Nat.sub_zero, List.take_length]
    rw [← List.nil_append (strip isspace (false, false) (jsonWs w)), ← hstrip, hcompact.eq_strip, strip_strip]
  · have hkept := hcompact.kept []
    have hstrings := hcompact.strings []
    rw [List.append_nil] at hkept hstrings
    rw [hminify, hkept, hstrings]

/-- **The codec of the server's JSON.** A string that is escaped is read back up to what follows it, fragments escaped
one by one go together, and the minifier leaves of a value what is read to its end, stays as it is, and has its
strings. -/
theorem json_codec :
    (∀ s rest : List UInt8, 0 ∉ s → jsonString (jsonEscapeText s ++ rest) = some (s, rest)) ∧
    (∀ s t : List UInt8, jsonEscapeFragment (s ++ t) = jsonEscapeFragment s ++ jsonEscapeFragment t) ∧
    (∀ pieces : List (List UInt8), 0 ∉ pieces.flatten →
      0x22 :: pieces.flatMap jsonEscapeFragment ++ [0x22] = jsonEscapeText pieces.flatten) ∧
    ∀ json rest : List UInt8, jsonSkipValue json = some rest →
      ∃ value, jsonWs json = value ++ rest ∧ Minified json value := by
  refine ⟨fun s rest h => ?_, jsonEscapeFragment_append, fun pieces h => ?_, fun json rest h => minified_of_skip h⟩
  · rw [jsonEscapeText_eq h, jsonString_of_quotes (quotes_jsonEscape s), cString_eq h]
  · rw [jsonEscapeText_eq h, jsonEscape, jsonEscapeFragment_flatten]

theorem json_codec_sample :
    jsonString (jsonEscapeText (bytes "a\"\n") ++ bytes ", b") = some (bytes "a\"\n", bytes ", b") ∧
    0x22 :: [bytes "a", bytes "\"b"].flatMap jsonEscapeFragment ++ [0x22] = jsonEscapeText (bytes "a\"b") ∧
    jsonMinifyRawValue (bytes " [ \" x \\\" \" , nan(1) ] [") = bytes "[\" x \\\" \",nan(1)]" ∧
    ∃ value, jsonWs (bytes " [ \" x \\\" \" , nan(1) ] [") = value ++ bytes " [" ∧
      Minified (bytes " [ \" x \\\" \" , nan(1) ] [") value :=
  ⟨json_codec.1 _ _ (by decide), json_codec.2.2.1 [bytes "a", bytes "\"b"] (by decide), by decide +kernel,
    json_codec.2.2.2 _ _ (by decide +kernel)⟩

end Spark.Server
