import Spark.Server.ToolRender

/-!
# Entities

The parser turns five entities back into bytes, wherever they stand; the renderer writes four of them in an
attribute, and one for a closing tag in a value.

* **`unescape_attrEscaped`** — an attribute comes back as it was.
* **`unescape_escapeWord`** — for a value, the closing tags make no difference.
* **`unescape_eq_self_iff`** — only a text without an entity is left as it is.
-/

namespace Spark.Server

open Spark.Search

/-! ## The five of them -/

/-- Each entity and the byte it stands for. -/
def entityTable : List (List UInt8 × UInt8) :=
  [(bytes "&amp;", 0x26), (bytes "&lt;", 0x3c), (bytes "&gt;", 0x3e), (bytes "&quot;", 0x22),
    (bytes "&apos;", 0x27)]

/-- No entity stands in a text. -/
def NoEntity (s : List UInt8) : Prop := ∀ entry ∈ entityTable, ¬ entry.1 <:+: s

theorem dsmlEntity_eq (s : List UInt8) : dsmlEntity s =
    (entityTable.find? fun entry => entry.1.isPrefixOf s).map fun entry => (entry.2, entry.1.length - 1) := by
  simp only [dsmlEntity, entityTable, List.find?]
  repeat' split
  all_goals simp_all
  all_goals rfl

variable {s : List UInt8} {decoded : UInt8} {skip : Nat}

theorem dsmlEntity_some (h : dsmlEntity s = some (decoded, skip)) :
    ∃ entry ∈ entityTable, entry.1 <+: s ∧ entry.2 = decoded ∧ entry.1.length = skip + 1 := by
  rw [dsmlEntity_eq] at h
  obtain ⟨entry, hfind, heq⟩ := Option.map_eq_some_iff.mp h
  obtain ⟨rfl, rfl⟩ := Prod.mk.inj heq
  have hmem := List.mem_of_find?_eq_some hfind
  have hat := @List.find?_some _ (fun entry : List UInt8 × UInt8 => entry.1.isPrefixOf s) _ _ hfind
  have hlength : ∀ entry ∈ entityTable, entry.1.length = entry.1.length - 1 + 1 := by decide
  exact ⟨entry, hmem, List.isPrefixOf_iff_prefix.mp hat, rfl, hlength entry hmem⟩

theorem dsmlEntity_none : dsmlEntity s = none ↔ ∀ entry ∈ entityTable, ¬ entry.1 <+: s := by
  rw [dsmlEntity_eq, Option.map_eq_none_iff, List.find?_eq_none]
  simp only [List.isPrefixOf_iff_prefix]

/-- An entity opens with `&`, and has neither that nor a `<` behind it. -/
theorem entity_shape {entry : List UInt8 × UInt8} (hentry : entry ∈ entityTable) :
    ∃ tail, entry.1 = 0x26 :: tail ∧ 0x26 ∉ tail ∧ 0x3c ∉ tail ∧ 3 ≤ tail.length := by
  have hall : ∀ entry ∈ entityTable, entry.1 = 0x26 :: entry.1.tail ∧ 0x26 ∉ entry.1.tail ∧
      0x3c ∉ entry.1.tail ∧ 3 ≤ entry.1.tail.length := by decide
  exact ⟨_, hall entry hentry⟩

theorem dsmlEntity_of_ne {c : UInt8} (hc : c ≠ 0x26) (s : List UInt8) : dsmlEntity (c :: s) = none := by
  refine dsmlEntity_none.mpr fun entry hentry hat => hc ?_
  obtain ⟨tail, htail, -⟩ := entity_shape hentry
  rw [htail, List.cons_prefix_cons] at hat
  exact hat.1.symm

/-- Two entities never open one text. -/
theorem dsmlEntity_of_prefix {entry : List UInt8 × UInt8} (hentry : entry ∈ entityTable) (hat : entry.1 <+: s) :
    dsmlEntity s = some (entry.2, entry.1.length - 1) := by
  have halone : ∀ a ∈ entityTable, ∀ b ∈ entityTable, a.1.isPrefixOf b.1 = true → a = b := by decide
  cases hfound : dsmlEntity s with
  | none => exact absurd hat (dsmlEntity_none.mp hfound entry hentry)
  | some found =>
    obtain ⟨decoded, skip⟩ := found
    obtain ⟨entry', hentry', hat', rfl, hlength⟩ := dsmlEntity_some hfound
    have hsame : entry = entry' := by
      rcases List.prefix_or_prefix_of_prefix hat hat' with hle | hle
      · exact halone _ hentry _ hentry' (List.isPrefixOf_iff_prefix.mpr hle)
      · exact (halone _ hentry' _ hentry (List.isPrefixOf_iff_prefix.mpr hle)).symm
    rw [hsame, hlength, Nat.add_sub_cancel]

/-! ## Turning them back -/

theorem dsmlUnescapeLoop_skip (skip : Nat) (s : List UInt8) :
    dsmlUnescapeLoop skip s = dsmlUnescapeText (s.drop skip) := by
  induction s generalizing skip with
  | nil => cases skip <;> rfl
  | cons c s ih =>
    cases skip with
    | zero => rfl
    | succ skip => exact ih skip

theorem unescape_none {c : UInt8} (h : dsmlEntity (c :: s) = none) :
    dsmlUnescapeText (c :: s) = c :: dsmlUnescapeText s := by
  rw [dsmlUnescapeText, dsmlUnescapeLoop, h]
  rfl

theorem unescape_some {c : UInt8} (h : dsmlEntity (c :: s) = some (decoded, skip)) :
    dsmlUnescapeText (c :: s) = decoded :: dsmlUnescapeText (s.drop skip) := by
  rw [dsmlUnescapeText, dsmlUnescapeLoop, h, ← dsmlUnescapeLoop_skip]

/-- An attribute comes back as it was. -/
theorem unescape_attrEscaped (s : List UInt8) : dsmlUnescapeText (appendDsmlAttrEscaped s) = s := by
  induction s with
  | nil => rfl
  | cons c s ih =>
    show dsmlUnescapeText (attrByte c ++ appendDsmlAttrEscaped s) = _
    unfold attrByte
    split
    case isTrue hc => rw [hc]; exact congrArg _ ih
    split
    case isTrue hc => rw [hc]; exact congrArg _ ih
    split
    case isTrue hc => rw [hc]; exact congrArg _ ih
    split
    case isTrue hc => rw [hc]; exact congrArg _ ih
    case isFalse hamp _ _ _ => exact (unescape_none (dsmlEntity_of_ne hamp _)).trans (congrArg _ ih)

theorem protects_entity {word : List UInt8} (hhead : word.head? = some 0x3c) (honce : 0x3c ∉ word.tail) :
    Protects 0x3c 0x26 word (bytes "&lt;") :=
  ⟨hhead, honce, rfl, by decide, by decide⟩

/-- For a value, the closing tags make no difference. -/
theorem unescape_escapeWord {word : List UInt8} (h : Protects 0x3c 0x26 word (bytes "&lt;")) (s : List UInt8) :
    dsmlUnescapeText (escapeWord word (bytes "&lt;") s) = dsmlUnescapeText s := by
  induction hlength : s.length using Nat.strongRecOn generalizing s with
  | ind length ih =>
    cases s with
    | nil => rfl
    | cons c s =>
      rw [List.length_cons] at hlength
      have hlater := ih s.length (by omega) s rfl
      rw [escapeWord]
      split
      case isTrue hword =>
        obtain ⟨rest, hrest⟩ := List.isPrefixOf_iff_prefix.mp hword
        rw [h.word_eq, List.cons_append, List.cons.injEq] at hrest
        rw [← hrest.1, unescape_none (dsmlEntity_of_ne (by decide) s)]
        exact congrArg _ hlater
      case isFalse =>
        cases hentity : dsmlEntity (c :: s) with
        | none =>
          rw [unescape_none hentity, unescape_none, hlater]
          -- an entity has no `<` in it, so it was there before
          refine dsmlEntity_none.mpr fun entry hentry hat => dsmlEntity_none.mp hentity entry hentry ?_
          obtain ⟨tail, htail, hamp, hopen, -⟩ := entity_shape hentry
          rw [htail, List.cons_prefix_cons, prefix_escapeWord h hopen hamp, ← List.cons_prefix_cons] at hat
          rwa [htail]
        | some found =>
          obtain ⟨decoded, skip⟩ := found
          obtain ⟨entry, hentry, hat, rfl, hskip⟩ := dsmlEntity_some hentity
          obtain ⟨tail, htail, hamp, hopen, -⟩ := entity_shape hentry
          rw [htail, List.length_cons, Nat.succ_inj] at hskip
          rw [htail, List.cons_prefix_cons] at hat
          obtain ⟨rfl, s', rfl⟩ := hat
          have hsame : entry.1 <+: 0x26 :: (tail ++ escapeWord word (bytes "&lt;") s') := by
            rw [htail, List.cons_prefix_cons]
            exact ⟨rfl, List.prefix_append _ _⟩
          have hfront := dsmlEntity_of_prefix hentry hsame
          rw [htail, List.length_cons, Nat.add_sub_cancel, hskip] at hfront
          rw [escapeWord_append h hopen, unescape_some hfront, unescape_some hentity, ← hskip, List.drop_left,
            List.drop_left]
          rw [List.length_append] at hlength
          exact congrArg _ (ih s'.length (by omega) s' rfl)

/-- A text without a word is no shorter than what it means with the word protected: where the word appears, an
entity goes. -/
theorem length_escapeWord_unescape {word : List UInt8} (h : Protects 0x3c 0x26 word (bytes "&lt;")) {raw : List UInt8}
    (hraw : ¬ word <:+: raw) :
    (escapeWord word (bytes "&lt;") (dsmlUnescapeText raw)).length ≤ raw.length ∧
      ∀ tail, 0x3c ∉ tail → tail <+: dsmlUnescapeText raw → ¬ tail <+: raw →
        (escapeWord word (bytes "&lt;") (dsmlUnescapeText raw)).length + 3 ≤ raw.length := by
  induction hlength : raw.length using Nat.strongRecOn generalizing raw with
  | ind length ih =>
    subst hlength
    cases raw with
    | nil => exact ⟨Nat.zero_le _, fun tail _ hat hnot => absurd hat hnot⟩
    | cons c raw =>
      cases hentity : dsmlEntity (c :: raw) with
      | none =>
        have hlater : ¬ word <:+: raw := fun hat => hraw (hat.trans (List.suffix_cons c raw).isInfix)
        obtain ⟨hle, hshort⟩ := ih raw.length (by simp) hlater rfl
        rw [unescape_none hentity, escapeWord, List.length_cons]
        constructor
        · split
          case isTrue hat =>
            -- the word was not there before, so an entity has gone from what follows
            rw [h.word_eq] at hat
            obtain ⟨hc, htail⟩ := List.cons_prefix_cons.mp (List.isPrefixOf_iff_prefix.mp hat)
            have hgone := hshort word.tail h.once htail fun hfront =>
              hraw (List.IsPrefix.isInfix (by rw [h.word_eq, hc]; exact List.cons_prefix_cons.mpr ⟨rfl, hfront⟩))
            rw [List.length_append, show (bytes "&lt;").length = 4 from rfl]
            omega
          case isFalse =>
            rw [List.length_cons]
            omega
        · intro tail hplain hat hnot
          cases tail with
          | nil => exact absurd List.nil_prefix hnot
          | cons d tail =>
            obtain ⟨rfl, hbehind⟩ := List.cons_prefix_cons.mp hat
            rw [List.mem_cons, not_or] at hplain
            have hgone := hshort tail hplain.2 hbehind fun hfront => hnot (List.cons_prefix_cons.mpr ⟨rfl, hfront⟩)
            have hword : ¬ word.isPrefixOf (d :: dsmlUnescapeText raw) = true := fun hword => by
              rw [h.word_eq] at hword
              exact hplain.1 (List.cons_prefix_cons.mp (List.isPrefixOf_iff_prefix.mp hword)).1
            rw [if_neg hword, List.length_cons]
            omega
      | some found =>
        obtain ⟨decoded, skip⟩ := found
        obtain ⟨entry, hentry, hat, rfl, hskip⟩ := dsmlEntity_some hentity
        obtain ⟨tail, htail, -, -, hlong⟩ := entity_shape hentry
        have hfits := hat.length_le
        rw [htail, List.length_cons] at hskip hfits
        rw [List.length_cons] at hfits
        have hlater : ¬ word <:+: raw.drop skip := fun hat =>
          hraw ((hat.trans (List.drop_suffix skip raw).isInfix).trans (List.suffix_cons c raw).isInfix)
        obtain ⟨hle, -⟩ := ih (raw.drop skip).length (by rw [List.length_drop, List.length_cons]; omega) hlater rfl
        rw [List.length_drop] at hle
        rw [unescape_some hentity, escapeWord, List.length_cons]
        constructor
        · split
          · rw [List.length_append, show (bytes "&lt;").length = 4 from rfl]
            omega
          · rw [List.length_cons]
            omega
        · intro front hplain hat hnot
          cases front with
          | nil => exact absurd List.nil_prefix hnot
          | cons d front =>
            obtain ⟨rfl, -⟩ := List.cons_prefix_cons.mp hat
            rw [List.mem_cons, not_or] at hplain
            have hword : ¬ word.isPrefixOf (entry.2 :: dsmlUnescapeText (raw.drop skip)) = true := fun hword => by
              rw [h.word_eq] at hword
              exact hplain.1 (List.cons_prefix_cons.mp (List.isPrefixOf_iff_prefix.mp hword)).1
            rw [if_neg hword, List.length_cons]
            omega

theorem length_unescape (s : List UInt8) : (dsmlUnescapeText s).length ≤ s.length ∧
    (¬ NoEntity s → (dsmlUnescapeText s).length < s.length) := by
  induction hlength : s.length using Nat.strongRecOn generalizing s with
  | ind length ih =>
    subst hlength
    cases s with
    | nil =>
      refine ⟨Nat.zero_le _, fun h => absurd (fun entry hentry hat => ?_) h⟩
      obtain ⟨tail, htail, -⟩ := entity_shape hentry
      rw [htail] at hat
      cases List.infix_nil.mp hat
    | cons c s =>
      cases hentity : dsmlEntity (c :: s) with
      | none =>
        obtain ⟨hle, hlt⟩ := ih s.length (by simp) s rfl
        rw [unescape_none hentity, List.length_cons, List.length_cons]
        refine ⟨Nat.succ_le_succ hle, fun h => Nat.succ_lt_succ (hlt fun hnone => h fun entry hentry hat => ?_)⟩
        rcases List.infix_cons_iff.mp hat with hat | hat
        · exact dsmlEntity_none.mp hentity entry hentry hat
        · exact hnone entry hentry hat
      | some found =>
        obtain ⟨decoded, skip⟩ := found
        obtain ⟨entry, hentry, hat, -, hskip⟩ := dsmlEntity_some hentity
        obtain ⟨tail, htail, -, -, hlong⟩ := entity_shape hentry
        have hfits := hat.length_le
        rw [htail, List.length_cons] at hskip hfits
        obtain ⟨hle, -⟩ := ih (s.drop skip).length (by rw [List.length_drop, List.length_cons]; omega) _ rfl
        rw [List.length_drop] at hle
        rw [List.length_cons] at hfits
        rw [unescape_some hentity, List.length_cons, List.length_cons]
        exact ⟨by omega, fun _ => by omega⟩

/-- Only a text without an entity is left as it is. -/
theorem unescape_eq_self_iff : dsmlUnescapeText s = s ↔ NoEntity s := by
  constructor
  · intro h
    by_contra hnot
    have hlt := (length_unescape s).2 hnot
    rw [h] at hlt
    exact lt_irrefl _ hlt
  · intro h
    induction s with
    | nil => rfl
    | cons c s ih =>
      have hnone : dsmlEntity (c :: s) = none :=
        dsmlEntity_none.mpr fun entry hentry hat => h entry hentry hat.isInfix
      rw [unescape_none hnone, ih fun entry hentry hat => h entry hentry (hat.trans (List.suffix_cons c s).isInfix)]

end Spark.Server
