import Mathlib.Data.List.TakeWhile
import Spark.Lib.Search

/-!
# Protecting a word in a text

A text is put in front of a closing word that must not stand in it: the first letter of every such word in
the text is replaced.

* **`escapeWord`** — the text with a word protected.
* **`prefix_escapeWord`** — a word without the replaced letter stands at the front of both or of none.
* **`infix_escapeWord`** — other words stay where they are.
* **`first_escapeWord`** — the closing word stands first where the protected text ends.
-/

namespace Spark.Search

variable {α : Type*}

/-- A text with `replacement` for the first letter of every `word` in it. -/
def escapeWord [DecidableEq α] (word replacement : List α) : List α → List α
  | [] => []
  | c :: text =>
    if word.isPrefixOf (c :: text) then replacement ++ escapeWord word replacement text
    else c :: escapeWord word replacement text

/-- A word that opens with a letter it has nowhere else, and a replacement that begins with another letter
and has not that one. -/
structure Protects (letter first : α) (word replacement : List α) : Prop where
  head : word.head? = some letter
  once : letter ∉ word.tail
  starts : replacement.head? = some first
  clean : letter ∉ replacement
  apart : first ≠ letter

variable {letter first : α} {word replacement other text back : List α}

theorem Protects.word_eq (h : Protects letter first word replacement) : word = letter :: word.tail := by
  cases word with
  | nil => cases h.head
  | cons c word =>
    cases h.head
    rfl

theorem Protects.replacement_eq (h : Protects letter first word replacement) :
    replacement = first :: replacement.tail := by
  cases replacement with
  | nil => cases h.starts
  | cons c replacement =>
    cases h.starts
    rfl

variable [DecidableEq α]

/-- A word with neither of the two letters stands at the front of both texts or of none. -/
theorem prefix_escapeWord (h : Protects letter first word replacement) (hletter : letter ∉ other)
    (hfirst : first ∉ other) : other <+: escapeWord word replacement text ↔ other <+: text := by
  induction text generalizing other with
  | nil => rfl
  | cons c text ih =>
    cases other with
    | nil => simp
    | cons b other =>
      rw [List.mem_cons, not_or] at hletter hfirst
      rw [escapeWord]
      split
      case isTrue hword =>
        -- the replacement takes the place of the letter, and the word has neither
        obtain ⟨rest, hrest⟩ := List.isPrefixOf_iff_prefix.mp hword
        rw [h.word_eq, List.cons_append, List.cons.injEq] at hrest
        rw [h.replacement_eq, List.cons_append, List.cons_prefix_cons, List.cons_prefix_cons]
        constructor
        · rintro ⟨rfl, -⟩
          exact absurd rfl hfirst.1
        · rintro ⟨rfl, -⟩
          exact absurd hrest.1 hletter.1
      case isFalse =>
        rw [List.cons_prefix_cons, List.cons_prefix_cons, ih hletter.2 hfirst.2]

/-- A word with neither of the two letters is left as it is. -/
theorem escapeWord_append (h : Protects letter first word replacement) (hletter : letter ∉ other) :
    escapeWord word replacement (other ++ text) = other ++ escapeWord word replacement text := by
  induction other with
  | nil => rfl
  | cons b other ih =>
    rw [List.mem_cons, not_or] at hletter
    have hnot : ¬ word.isPrefixOf (b :: (other ++ text)) = true := fun hword => by
      obtain ⟨rest, hrest⟩ := List.isPrefixOf_iff_prefix.mp hword
      rw [h.word_eq, List.cons_append, List.cons.injEq] at hrest
      exact hletter.1 hrest.1
    rw [List.cons_append, escapeWord, if_neg hnot, ih hletter.2]
    rfl

omit [DecidableEq α] in
theorem prefix_append_cases {front : List α} (h : word <+: front ++ back) :
    word <+: front ∨ ∃ more, word = front ++ more ∧ more <+: back := by
  rcases List.prefix_or_prefix_of_prefix h (List.prefix_append front back) with hshort | ⟨more, rfl⟩
  · exact .inl hshort
  · exact .inr ⟨more, rfl, (List.prefix_append_right_inj front).mp h⟩

/-- No protected word is left at the front of a text. -/
theorem not_prefix_escapeWord (h : Protects letter first word replacement) (hfirst : first ∉ word)
    (hback : ∀ b ∈ back.head?, b = letter) (hne : text ≠ []) :
    ¬ word <+: escapeWord word replacement text ++ back := by
  intro hword
  obtain ⟨c, text, rfl⟩ := List.exists_cons_of_ne_nil hne
  rw [escapeWord] at hword
  split at hword
  case isTrue =>
    nth_rewrite 1 [h.word_eq] at hword
    nth_rewrite 1 [h.replacement_eq] at hword
    rw [List.cons_append, List.cons_append, List.cons_prefix_cons] at hword
    exact h.apart hword.1.symm
  case isFalse hnot =>
    refine hnot (List.isPrefixOf_iff_prefix.mpr ?_)
    nth_rewrite 1 [h.word_eq] at hword ⊢
    rw [List.cons_append, List.cons_prefix_cons] at hword
    rw [List.cons_prefix_cons]
    refine ⟨hword.1, (prefix_escapeWord h h.once fun hmem => hfirst (List.mem_of_mem_tail hmem)).mp ?_⟩
    rcases prefix_append_cases hword.2 with hshort | ⟨more, hmore, hfront⟩
    · exact hshort
    · -- what stands behind the protected text opens with the letter
      cases more with
      | nil => exact ⟨[], by simp [hmore]⟩
      | cons b more =>
        obtain ⟨rest, rfl⟩ := hfront
        exact absurd (by rw [hmore, hback b rfl]; simp) h.once

/-- The closing word stands first where the protected text ends. -/
theorem first_escapeWord (h : Protects letter first word replacement) (hfirst : first ∉ word)
    (text back : List α) :
    First (Occurs word (escapeWord word replacement text ++ (word ++ back)))
      (some (escapeWord word replacement text).length) := by
  have hback : ∀ b ∈ (word ++ back).head?, b = letter := by
    rw [h.word_eq]
    intro b hb
    exact (Option.some.inj hb).symm
  induction text with
  | nil => exact ⟨List.prefix_append _ _, fun j hj => absurd hj (Nat.not_lt_zero j)⟩
  | cons c text ih =>
    refine ⟨?_, fun j hj hat => ?_⟩
    · rw [Occurs, List.drop_left]
      exact List.prefix_append _ _
    have hnot := not_prefix_escapeWord h hfirst hback (List.cons_ne_nil c text)
    cases j with
    | zero => exact hnot hat
    | succ j =>
      rw [escapeWord] at hj hat
      split at hat
      case isTrue hword =>
        rw [if_pos hword, List.length_append] at hj
        rw [List.append_assoc] at hat
        by_cases hlt : j + 1 < replacement.length
        · -- in the replacement there is no letter
          have hat' := hat.getElem? (List.length_pos_of_ne_nil (by rw [h.word_eq]; exact List.cons_ne_nil _ _))
          rw [Nat.add_zero, List.getElem?_append_left hlt, ← List.head?_eq_getElem?, h.head] at hat'
          exact h.clean (List.mem_of_getElem? hat')
        · obtain ⟨k, hk⟩ := Nat.exists_eq_add_of_le (not_lt.mp hlt)
          rw [hk, Occurs, ← List.drop_drop, List.drop_left] at hat
          exact ih.2 k (by omega) hat
      case isFalse hword =>
        rw [if_neg hword, List.length_cons] at hj
        exact ih.2 j (by omega) hat

omit [DecidableEq α] in
theorem infix_append_of_not_mem {front tail : List α} (hfront : letter ∉ front) :
    letter :: tail <:+: front ++ text ↔ letter :: tail <:+: text := by
  induction front with
  | nil => rfl
  | cons b front ih =>
    rw [List.mem_cons, not_or] at hfront
    rw [List.cons_append, List.infix_cons_iff, ih hfront.2, List.cons_prefix_cons]
    exact ⟨fun hor => hor.resolve_left fun hat => hfront.1 hat.1, .inr⟩

omit [DecidableEq α] in
/-- No word reaches beyond a place where its first letter stands. -/
theorem infix_append_of_head {front tail : List α} (hback : back.head? = some letter) (honce : letter ∉ tail) :
    letter :: tail <:+: front ++ back ↔ letter :: tail <:+: front ∨ letter :: tail <:+: back := by
  induction front with
  | nil => simp
  | cons b front ih =>
    rw [List.cons_append, List.infix_cons_iff, List.infix_cons_iff, ih, or_assoc, List.cons_prefix_cons,
      List.cons_prefix_cons]
    refine or_congr (and_congr_right fun _ => ⟨fun hat => ?_, fun hat => hat.trans (List.prefix_append _ _)⟩) Iff.rfl
    rcases prefix_append_cases hat with hin | ⟨more, rfl, hmore⟩
    · exact hin
    · cases more with
      | nil => simp
      | cons c more =>
        obtain ⟨rest, rfl⟩ := hmore
        cases hback
        exact absurd (by simp) honce

omit [DecidableEq α] in
/-- No word begins in a tag that is not one. -/
theorem infix_tag {tag : List α} (hother : other.head? = some letter) (htag : tag.head? = some letter)
    (honce : letter ∉ tag.tail) (hnot : ¬ other <+: tag ++ back) : other <:+: tag ++ back ↔ other <:+: back := by
  cases tag with
  | nil => cases htag
  | cons b tag =>
    cases htag
    cases other with
    | nil => cases hother
    | cons c other =>
      cases hother
      rw [List.cons_append] at hnot ⊢
      rw [List.infix_cons_iff, or_iff_right hnot]
      exact infix_append_of_not_mem honce

omit [DecidableEq α] in
theorem not_prefix_append {tag : List α} (hword : ¬ other <+: tag) (htag : ¬ tag <+: other) :
    ¬ other <+: tag ++ back := fun hat =>
  (List.prefix_or_prefix_of_prefix hat (List.prefix_append tag back)).elim hword htag

/-- Other words are there in both texts or in none. -/
theorem infix_escapeWord (h : Protects letter first word replacement) (hother : other.head? = some letter)
    (honce : letter ∉ other.tail) (hfirst : first ∉ other) (hapart : ¬ other <+: word) (hapart' : ¬ word <+: other) :
    other <:+: escapeWord word replacement text ↔ other <:+: text := by
  obtain ⟨tail, rfl⟩ : ∃ tail, other = letter :: tail := by
    cases other with
    | nil => cases hother
    | cons b other =>
      cases hother
      exact ⟨other, rfl⟩
  rw [List.mem_cons, not_or] at hfirst
  rw [List.tail_cons] at honce
  induction text with
  | nil => rfl
  | cons c text ih =>
    rw [escapeWord, List.infix_cons_iff]
    split
    case isTrue hword =>
      rw [infix_append_of_not_mem h.clean, ih]
      refine ⟨.inr, fun hor => hor.resolve_left fun hat => ?_⟩
      rcases List.prefix_or_prefix_of_prefix hat (List.isPrefixOf_iff_prefix.mp hword) with hle | hle
      · exact hapart hle
      · exact hapart' hle
    case isFalse =>
      rw [List.infix_cons_iff, List.cons_prefix_cons, List.cons_prefix_cons, ih,
        prefix_escapeWord h honce hfirst.2]

/-- A letter that the replacement has not is there no more often than before. -/
theorem count_escapeWord_le {c : α} (hc : c ∉ replacement) (text : List α) :
    (escapeWord word replacement text).count c ≤ text.count c := by
  induction text with
  | nil => exact Nat.le_refl _
  | cons b text ih =>
    rw [escapeWord]
    split
    case isTrue =>
      rw [List.count_append, List.count_eq_zero.mpr hc, Nat.zero_add]
      exact ih.trans ((List.sublist_cons_self b text).count_le c)
    case isFalse =>
      rw [List.count_cons, List.count_cons]
      exact Nat.add_le_add_right ih _

/-- A text begins with what it began with, or with what the replacement begins with. -/
theorem head?_escapeWord {c : α} (h : Protects letter first word replacement)
    (hc : c ∈ (escapeWord word replacement text).head?) : c = first ∨ c ∈ text.head? := by
  cases text with
  | nil => exact .inr hc
  | cons b text =>
    rw [escapeWord] at hc
    split at hc
    case isTrue =>
      rw [h.replacement_eq] at hc
      cases hc
      exact .inl rfl
    case isFalse => exact .inr hc

/-- A text ends with what it ended with, unless the word is but one letter. -/
theorem getLast?_escapeWord (hword : 1 < word.length) (text : List α) :
    (escapeWord word replacement text).getLast? = text.getLast? := by
  induction text with
  | nil => rfl
  | cons c text ih =>
    have hne : text ≠ [] → escapeWord word replacement text ≠ [] := fun hne hnil => by
      rw [hnil, eq_comm, List.getLast?_nil, List.getLast?_eq_none_iff] at ih
      exact hne ih
    cases text with
    | nil =>
      have hnot : ¬ word.isPrefixOf [c] = true := fun hat => by
        have hle := (List.isPrefixOf_iff_prefix.mp hat).length_le
        exact absurd hle (Nat.not_le.mpr hword)
      rw [escapeWord, if_neg hnot]
      rfl
    | cons b text =>
      rw [escapeWord, List.getLast?_cons_cons, ← ih]
      split
      case isTrue => exact List.getLast?_append_of_ne_nil _ (hne (List.cons_ne_nil _ _))
      case isFalse =>
        rw [← List.singleton_append]
        exact List.getLast?_append_of_ne_nil _ (hne (List.cons_ne_nil _ _))

end Spark.Search
