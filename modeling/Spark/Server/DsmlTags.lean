import Spark.Server.Entities
import Spark.Server.Markers

/-!
# The tags the renderer writes

A name or a key stands in a tag with four of its bytes as entities, so that neither the quote that ends it
nor the bracket that ends the tag is in it.

* **`dsmlAttr_quote`** — an attribute is looked for quote by quote.
* **`tagged_invoke`**, **`tagged_param`** — the tags are read as what they were written for.
* **`param_typed`** — so is the type of a parameter, unless the key itself ends like the attribute.
-/

namespace Spark.Server

open Spark.Search

variable {name key a b s text : List UInt8}

/-! ## What an attribute does not hold -/

theorem attrByte_clean (c : UInt8) : 0x22 ∉ attrByte c ∧ 0x3e ∉ attrByte c ∧ 0x3c ∉ attrByte c := by
  unfold attrByte
  split
  case isTrue => decide
  split
  case isTrue => decide
  split
  case isTrue => decide
  split
  case isTrue => decide
  case isFalse hless hmore hquote =>
    simp only [List.mem_singleton]
    exact ⟨fun h => hquote h.symm, fun h => hmore h.symm, fun h => hless h.symm⟩

theorem attrEscaped_clean (s : List UInt8) :
    0x22 ∉ appendDsmlAttrEscaped s ∧ 0x3e ∉ appendDsmlAttrEscaped s ∧ 0x3c ∉ appendDsmlAttrEscaped s := by
  unfold appendDsmlAttrEscaped
  simp only [List.mem_flatMap, not_exists, not_and]
  exact ⟨fun c _ => (attrByte_clean c).1, fun c _ => (attrByte_clean c).2.1, fun c _ => (attrByte_clean c).2.2⟩

theorem attrByte_zero {c : UInt8} (hc : c ≠ 0) : 0 ∉ attrByte c := by
  unfold attrByte
  split
  case isTrue => decide
  split
  case isTrue => decide
  split
  case isTrue => decide
  split
  case isTrue => decide
  case isFalse => simpa using hc.symm

theorem attrEscaped_zero (hs : 0 ∉ s) : 0 ∉ appendDsmlAttrEscaped s := by
  simp only [appendDsmlAttrEscaped, List.mem_flatMap, not_exists, not_and]
  exact fun c hc => attrByte_zero (ne_of_mem_of_not_mem hc hs)

/-! ## The end of an attribute -/

theorem attrByte_ends {c : UInt8} (hc : attrByte c ≠ [c]) : ∃ front, attrByte c = front ++ [0x3b] := by
  unfold attrByte at hc ⊢
  split
  case isTrue => exact ⟨bytes "&amp", rfl⟩
  split
  case isTrue => exact ⟨bytes "&lt", rfl⟩
  split
  case isTrue => exact ⟨bytes "&gt", rfl⟩
  split
  case isTrue => exact ⟨bytes "&quot", rfl⟩
  case isFalse => simp_all

/-- A word without the four bytes and without the end of an entity ends an attribute as it ends what was
written. -/
theorem suffix_attrEscaped {word : List UInt8} (hword : ∀ c ∈ word, attrByte c = [c] ∧ c ≠ 0x3b) :
    word <:+ appendDsmlAttrEscaped s ↔ word <:+ s := by
  induction s using List.reverseRecOn generalizing word with
  | nil => rfl
  | append_singleton s d ih =>
    have hsnoc : appendDsmlAttrEscaped (s ++ [d]) = appendDsmlAttrEscaped s ++ attrByte d := by
      simp [appendDsmlAttrEscaped]
    rw [hsnoc, List.suffix_concat_iff]
    by_cases hd : attrByte d = [d]
    · rw [hd, List.suffix_concat_iff]
      refine or_congr Iff.rfl (exists_congr fun front => and_congr_right fun hfront => ih fun c hc => hword c ?_)
      rw [hfront]
      exact List.mem_append_left _ hc
    · obtain ⟨front, hentity⟩ := attrByte_ends hd
      rw [hentity, ← List.append_assoc, List.suffix_concat_iff]
      refine or_congr Iff.rfl (iff_of_false ?_ ?_)
      · rintro ⟨t, rfl, -⟩
        exact (hword 0x3b (by simp)).2 rfl
      · rintro ⟨t, rfl, -⟩
        exact hd (hword d (by simp)).1

/-! ## Looking for an attribute -/

/-- A word that ends in a quote ends at a quote. -/
theorem searchString_quote {word : List UInt8} (ha : 0x22 ∉ a) (hword : 0x22 ∉ word) :
    searchString (word ++ [0x22]) (a ++ 0x22 :: b) =
      if word <:+ a then some (a.length - word.length)
      else (searchString (word ++ [0x22]) b).map (a.length + 1 + ·) := by
  have hne : word ++ [0x22] ≠ [] := by simp
  have hfront {i : Nat} (hi : i ≤ a.length) : Occurs (word ++ [0x22]) (a ++ 0x22 :: b) i ↔
      i + word.length = a.length ∧ word <:+ a := by
    rw [Occurs, List.drop_append_of_le_length hi]
    constructor
    · rintro ⟨rest, hrest⟩
      rw [List.append_assoc] at hrest
      -- both texts have their first quote at the end of the word
      have htake := congrArg (List.takeWhile (· ≠ 0x22)) hrest
      have ha' : ∀ c ∈ a.drop i, decide (c ≠ 0x22) = true := fun c hc =>
        decide_eq_true (ne_of_mem_of_not_mem (List.mem_of_mem_drop hc) ha)
      have hword' : ∀ c ∈ word, decide (c ≠ 0x22) = true := fun c hc =>
        decide_eq_true (ne_of_mem_of_not_mem hc hword)
      rw [List.takeWhile_append_of_pos hword', List.takeWhile_append_of_pos ha'] at htake
      simp at htake
      have hlength := congrArg List.length htake
      rw [List.length_drop] at hlength
      exact ⟨by omega, htake ▸ List.drop_suffix i a⟩
    · rintro ⟨hlength, hsuffix⟩
      have hdrop : a.drop i = word := by
        rw [List.suffix_iff_eq_drop.mp hsuffix, ← hlength, Nat.add_sub_cancel]
      rw [hdrop]
      exact ⟨b, by simp⟩
  refine (searchString_first hne _).unique ?_
  split
  case isTrue hsuffix =>
    have hle := hsuffix.length_le
    refine ⟨(hfront (Nat.sub_le _ _)).mpr ⟨by omega, hsuffix⟩, fun j hj hat => ?_⟩
    have := ((hfront (by omega)).mp hat).1
    omega
  case isFalse hsuffix =>
    have hlater (i : Nat) : Occurs (word ++ [0x22]) (a ++ 0x22 :: b) (a.length + 1 + i) ↔
        Occurs (word ++ [0x22]) b i := by
      rw [show a ++ 0x22 :: b = a ++ [0x22] ++ b by simp, ← occurs_drop]
      rw [List.drop_left' (by simp)]
    have hshift := ((searchString_first hne b).congr fun i => (hlater i).symm).shift
    refine hshift.congr fun i => ⟨And.right, fun hat => ⟨?_, hat⟩⟩
    by_contra hlt
    exact hsuffix ((hfront (by omega)).mp hat).2

/-- An attribute is looked for quote by quote. -/
theorem dsmlAttr_quote (ha : 0x22 ∉ a) (hname : 0x22 ∉ name) (h0 : 0 ∉ a ++ 0x22 :: b) :
    dsmlAttr (a ++ 0x22 :: b) name =
      if name ++ [0x3d] <:+ a then
        if 0x22 ∈ b then some (dsmlUnescapeText (b.takeWhile (· ≠ 0x22))) else none
      else dsmlAttr b name := by
  have h0b : 0 ∉ b := fun hmem => h0 (by simp [hmem])
  have hpat : name ++ bytes "=\"" = (name ++ [0x3d]) ++ [0x22] := by
    rw [List.append_assoc]
    rfl
  have hword : 0x22 ∉ name ++ [0x3d] := by simp [hname]
  simp only [dsmlAttr, hpat, strstr_eq h0, strstr_eq h0b, searchString_quote ha hword]
  by_cases hsuffix : name ++ [0x3d] <:+ a
  · have hle := hsuffix.length_le
    have hdrop : (a ++ 0x22 :: b).drop (a.length - (name ++ [0x3d]).length + (name ++ [0x3d] ++ [0x22]).length) =
        b := by
      rw [show a ++ 0x22 :: b = a ++ [0x22] ++ b by simp]
      refine List.drop_left' ?_
      simp only [List.length_append, List.length_singleton] at hle ⊢
      omega
    simp only [if_pos hsuffix, hdrop]
  · simp only [if_neg hsuffix]
    cases hsearch : searchString (name ++ [0x3d] ++ [0x22]) b with
    | none => rfl
    | some pos =>
      have hdrop : (a ++ 0x22 :: b).drop (a.length + 1 + pos + (name ++ [0x3d] ++ [0x22]).length) =
          b.drop (pos + (name ++ [0x3d] ++ [0x22]).length) := by
        rw [show a ++ 0x22 :: b = a ++ [0x22] ++ b by simp, ← List.drop_drop, ← List.drop_drop]
        rw [show a.length + 1 = (a ++ [0x22]).length by simp, List.drop_left, List.drop_drop]
      simp only [Option.map_some, hdrop]

/-! ## The tags -/

def invokeTag (name : List UInt8) : List UInt8 :=
  bytes "<｜DSML｜invoke name=\"" ++ appendDsmlAttrEscaped name ++ bytes "\">"

def boolText (isString : Bool) : List UInt8 := bytes (if isString then "true" else "false")

def paramTag (key : List UInt8) (isString : Bool) : List UInt8 :=
  bytes "<｜DSML｜parameter name=\"" ++ appendDsmlAttrEscaped key ++ bytes "\" string=\"" ++ boolText isString ++
    bytes "\">"

/-- A key that ends the way the attribute begins. -/
def StringKey (key : List UInt8) : Prop := bytes "string=" <:+ key

instance (key : List UInt8) : Decidable (StringKey key) := inferInstanceAs (Decidable (_ <:+ _))

/-- The type that is read from the tag of a parameter. -/
def readType (key : List UInt8) (isString : Bool) : List UInt8 :=
  if StringKey key then bytes " string=" else boolText isString

theorem takeWhile_quote (ha : 0x22 ∉ a) (b : List UInt8) : (a ++ 0x22 :: b).takeWhile (· ≠ 0x22) = a := by
  rw [List.takeWhile_append_of_pos fun c hc => decide_eq_true (ne_of_mem_of_not_mem hc ha)]
  simp

/-- What stands between the first two quotes. -/
theorem dsmlAttr_first {c : List UInt8} (ha : 0x22 ∉ a) (hname : 0x22 ∉ name) (hs : 0x22 ∉ s)
    (h0 : 0 ∉ a ++ 0x22 :: (s ++ 0x22 :: c)) (hat : name ++ [0x3d] <:+ a) :
    dsmlAttr (a ++ 0x22 :: (s ++ 0x22 :: c)) name = some (dsmlUnescapeText s) := by
  rw [dsmlAttr_quote ha hname h0, if_pos hat, if_pos (by simp), takeWhile_quote hs]

theorem invokeTag_zero (hname : 0 ∉ name) : 0 ∉ invokeTag name := by
  simp only [invokeTag, List.mem_append, not_or]
  exact ⟨⟨by decide, attrEscaped_zero hname⟩, by decide⟩

theorem boolText_clean (isString : Bool) :
    0x22 ∉ boolText isString ∧ 0x3e ∉ boolText isString ∧ 0 ∉ boolText isString := by
  cases isString <;> decide

theorem paramTag_zero {isString : Bool} (hkey : 0 ∉ key) : 0 ∉ paramTag key isString := by
  simp only [paramTag, List.mem_append, not_or]
  exact ⟨⟨⟨⟨by decide, attrEscaped_zero hkey⟩, by decide⟩, (boolText_clean isString).2.2⟩, by decide⟩

theorem invokeTag_eq (name : List UInt8) : invokeTag name =
    bytes "<｜DSML｜invoke name=" ++ 0x22 :: (appendDsmlAttrEscaped name ++ 0x22 :: [0x3e]) := by
  show bytes "<｜DSML｜invoke name=" ++ [0x22] ++ _ ++ [0x22, 0x3e] = _
  simp only [List.append_assoc, List.cons_append, List.nil_append]

theorem paramTag_eq (key : List UInt8) (isString : Bool) : paramTag key isString =
    bytes "<｜DSML｜parameter name=" ++ 0x22 :: (appendDsmlAttrEscaped key ++ 0x22 :: (bytes " string=" ++
      0x22 :: (boolText isString ++ 0x22 :: [0x3e]))) := by
  show bytes "<｜DSML｜parameter name=" ++ [0x22] ++ _ ++ ([0x22] ++ bytes " string=" ++ [0x22]) ++ _ ++
    [0x22, 0x3e] = _
  simp only [List.append_assoc, List.cons_append, List.nil_append]

theorem tagged_invoke (hname : 0 ∉ name) : Tagged dsmlLong.invokeStart (invokeTag name) name := by
  constructor
  · refine ⟨bytes " name=\"" ++ appendDsmlAttrEscaped name ++ [0x22], ?_, ?_⟩
    · show bytes "<｜DSML｜invoke" ++ bytes " name=\"" ++ _ ++ ([0x22] ++ [0x3e]) = bytes "<｜DSML｜invoke" ++ _ ++ _
      simp only [List.append_assoc]
    · simp only [List.mem_append, not_or]
      exact ⟨by decide, ⟨by decide, (attrEscaped_clean name).2.1⟩, by decide⟩
  · have h0 := invokeTag_zero hname
    rw [invokeTag_eq] at h0 ⊢
    rw [dsmlAttr_first (by decide) (by decide) (attrEscaped_clean name).1 h0 (by decide), unescape_attrEscaped]

theorem tagged_param (hkey : 0 ∉ key) (isString : Bool) :
    Tagged dsmlLong.paramStart (paramTag key isString) key := by
  constructor
  · refine ⟨bytes " name=\"" ++ appendDsmlAttrEscaped key ++ bytes "\" string=\"" ++ boolText isString ++ [0x22],
      ?_, ?_⟩
    · show bytes "<｜DSML｜parameter" ++ bytes " name=\"" ++ _ ++ _ ++ _ ++ ([0x22] ++ [0x3e]) =
        bytes "<｜DSML｜parameter" ++ _ ++ _
      simp only [List.append_assoc]
    · simp only [List.mem_append, not_or]
      exact ⟨by decide, ⟨⟨⟨by decide, (attrEscaped_clean key).2.1⟩, by decide⟩, (boolText_clean isString).2.1⟩,
        by decide⟩
  · have h0 := @paramTag_zero key isString hkey
    rw [paramTag_eq] at h0 ⊢
    rw [dsmlAttr_first (by decide) (by decide) (attrEscaped_clean key).1 h0 (by decide), unescape_attrEscaped]

/-- The type of a parameter is read as it was written, unless the key ends the way the attribute begins: then
what stands between the two attributes is taken for it. -/
theorem param_typed (hkey : 0 ∉ key) (isString : Bool) :
    dsmlAttr (paramTag key isString) (bytes "string") = some (readType key isString) := by
  have h0 := @paramTag_zero key isString hkey
  rw [paramTag_eq] at h0 ⊢
  have h0' : 0 ∉ appendDsmlAttrEscaped key ++ 0x22 :: (bytes " string=" ++
      0x22 :: (boolText isString ++ 0x22 :: [0x3e])) := fun hmem => h0 (by
    rw [List.mem_append, List.mem_cons]
    exact .inr (.inr hmem))
  have h0'' : 0 ∉ bytes " string=" ++ 0x22 :: (boolText isString ++ 0x22 :: [0x3e]) := fun hmem => h0' (by
    rw [List.mem_append, List.mem_cons]
    exact .inr (.inr hmem))
  have hkeySuffix : bytes "string" ++ [0x3d] <:+ appendDsmlAttrEscaped key ↔ StringKey key :=
    suffix_attrEscaped (by decide +kernel)
  rw [dsmlAttr_quote (by decide) (by decide) h0, if_neg (by decide), readType]
  by_cases hstring : StringKey key
  · rw [dsmlAttr_first (attrEscaped_clean key).1 (by decide) (by decide) h0' (hkeySuffix.mpr hstring),
      if_pos hstring]
    rfl
  · rw [dsmlAttr_quote (attrEscaped_clean key).1 (by decide) h0', if_neg fun h => hstring (hkeySuffix.mp h),
      dsmlAttr_first (by decide) (by decide) (boolText_clean isString).1 h0'' (by decide), if_neg hstring]
    cases isString <;> rfl

end Spark.Server
