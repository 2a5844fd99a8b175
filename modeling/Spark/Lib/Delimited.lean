import Spark.Lib.Search

/-!
# Delimited texts

A text is `Free` of some words when none of them stands in it. Blocks that each end in a word they are free of can be
read back from the text they make together.

* **`Free.append_cons`** — a letter that is in no word keeps two texts apart.
* **`closed_inj`** — a text ends at the first closing word.
* **`document_inj`** — blocks are read back, with what stands behind them.
-/

namespace Spark.Search

variable {α : Type*} {words : List (List α)} {word a b front back rest rest' : List α} {letter : α}

/-- None of the words stands in the text. -/
def Free (words : List (List α)) (text : List α) : Prop := ∀ word ∈ words, ¬ word <:+: text

instance [DecidableEq α] (words : List (List α)) (text : List α) : Decidable (Free words text) :=
  inferInstanceAs (Decidable (∀ word ∈ words, ¬ word <:+: text))

instance [DecidableEq α] (letter : α) (words : List (List α)) : Decidable (Distinct letter words) :=
  inferInstanceAs (Decidable (∀ word ∈ words, word.head? = some letter ∧ letter ∉ word.tail))

theorem Free.of_infix (h : Free words b) (hinside : a <:+: b) : Free words a :=
  fun word hword hfound => h word hword (hfound.trans hinside)

/-- A letter that is in no word keeps two texts apart. -/
theorem Free.append_cons (hletter : ∀ word ∈ words, letter ∉ word) (ha : Free words a) (hb : Free words b) :
    Free words (a ++ letter :: b) := by
  intro word hword hfound
  obtain ⟨i, hi⟩ := infix_iff_occurs.mp hfound
  by_cases hfront : i ≤ a.length
  · exact ha word hword (infix_iff_occurs.mpr ⟨i, (occurs_append_of_not_mem (hletter word hword) hfront).mp hi⟩)
  · -- the word stands behind the letter
    obtain ⟨j, rfl⟩ : ∃ j, i = (a ++ [letter]).length + j := by
      refine ⟨i - (a.length + 1), ?_⟩
      rw [List.length_append, List.length_singleton]
      omega
    refine hb word hword (infix_iff_occurs.mpr ⟨j, ?_⟩)
    rw [List.append_cons, ← occurs_drop, List.drop_left] at hi
    exact hi

/-- A text without the first letter of any word is free of them, in front of a text that is. -/
theorem Free.append_of_not_mem (hword : ∀ word ∈ words, word.head? = some letter) (ha : letter ∉ a)
    (hb : Free words b) : Free words (a ++ b) := by
  intro word hmem hfound
  obtain ⟨i, hi⟩ := infix_iff_occurs.mp hfound
  obtain ⟨j, rfl⟩ := Nat.exists_eq_add_of_le (occurs_ge (hword word hmem) ha hi)
  refine hb word hmem (infix_iff_occurs.mpr ⟨j, ?_⟩)
  rwa [← occurs_drop, List.drop_left] at hi

theorem Free.of_not_mem (hword : ∀ word ∈ words, word.head? = some letter) (ha : letter ∉ a) : Free words a := by
  have hnil : Free words ([] : List α) := by
    intro word hmem hfound
    have hhead := hword word hmem
    rw [List.infix_nil.mp hfound] at hhead
    cases hhead
  have h := Free.append_of_not_mem hword ha hnil
  rwa [List.append_nil] at h

/-- A text ends where its closing word stands for the first time. -/
theorem closed_inj (hclose : Distinct letter [word]) (ha : Free [word] a) (hb : Free [word] b)
    (h : a ++ (word ++ rest) = b ++ (word ++ rest')) : a = b ∧ rest = rest' := by
  have hword : word ∈ [word] := List.mem_singleton.mpr rfl
  have hdistinct := hclose word hword
  have hplace (c r : List α) (hc : Free [word] c) : First (Occurs word (c ++ (word ++ r))) (some c.length) := by
    refine ⟨?_, fun i hi hat => ?_⟩
    · rw [Occurs, List.drop_left]
      exact List.prefix_append word r
    · have hhead : (word ++ r).head? = some letter := by
        rw [List.head?_append_of_ne_nil _ (hclose.ne_nil hword)]
        exact hdistinct.1
      have hinside := (occurs_append_of_head hdistinct.2 hhead hi).mp hat
      exact hc word hword (infix_iff_occurs.mpr ⟨i, hinside⟩)
  have hfirst := hplace a rest ha
  rw [h] at hfirst
  obtain ⟨hab, hrest⟩ := List.append_inj h (Option.some.inj (hfirst.unique (hplace b rest' hb)))
  exact ⟨hab, List.append_cancel_left hrest⟩

/-! ## Documents -/

/-- Blocks between an opening and a closing word, one behind the other. -/
def document (opening closing : List α) (blocks : List (List α)) : List α :=
  blocks.flatMap fun block => opening ++ block ++ closing

/-- Blocks that are free of the closing word are read back, and so is what stands behind them. -/
theorem document_inj {opening closing : List α} (hclose : Distinct letter [closing]) {blocks blocks' : List (List α)}
    (hblocks : ∀ block ∈ blocks, Free [closing] block) (hblocks' : ∀ block ∈ blocks', Free [closing] block)
    (hrest : Free [closing] rest) (hrest' : Free [closing] rest')
    (h : document opening closing blocks ++ rest = document opening closing blocks' ++ rest') :
    blocks = blocks' ∧ rest = rest' := by
  have hnone (block : List α) (others : List (List α)) (behind : List α) :
      ¬ Free [closing] (document opening closing (block :: others) ++ behind) := by
    intro hfree
    refine hfree closing (List.mem_singleton.mpr rfl)
      ⟨opening ++ block, document opening closing others ++ behind, ?_⟩
    simp [document]
  induction blocks generalizing blocks' with
  | nil =>
    cases blocks' with
    | nil => exact ⟨rfl, h⟩
    | cons block' blocks' =>
      rw [show rest = document opening closing [] ++ rest from rfl, h] at hrest
      exact absurd hrest (hnone block' blocks' rest')
  | cons block blocks ih =>
    cases blocks' with
    | nil =>
      rw [show rest' = document opening closing [] ++ rest' from rfl, ← h] at hrest'
      exact absurd hrest' (hnone block blocks rest)
    | cons block' blocks' =>
      obtain ⟨hblock, hothers⟩ := List.forall_mem_cons.mp hblocks
      obtain ⟨hblock', hothers'⟩ := List.forall_mem_cons.mp hblocks'
      simp only [document, List.flatMap_cons, List.append_assoc, List.append_cancel_left_eq] at h
      obtain ⟨rfl, hmore⟩ := closed_inj hclose hblock hblock' h
      have hmore : document opening closing blocks ++ rest = document opening closing blocks' ++ rest' := by
        simp only [document, List.append_assoc]
        exact hmore
      obtain ⟨rfl, hsame⟩ := ih hothers hothers' hmore
      exact ⟨rfl, hsame⟩

end Spark.Search
