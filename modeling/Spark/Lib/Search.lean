import Mathlib.Data.List.Infix

/-!
# Searching for words

Where a word stands in a text, and what the first such place has to do with the places in a part of the
text. Nothing here is about one search: a search is right when it answers `First`, or `Last`.

* **`First.unique`** — two right answers are one; **`Last.unique`**, so are those of a search for the last place.
* **`occurs_take`**, **`occurs_drop`** — places in a part of the text are places in all of it.
* **`Distinct.no_overlap`** — words that share a first letter they have nowhere else never overlap.
-/

namespace Spark.Search

/-! ## First places -/

/-- The answer of a search for the first place a property holds at. -/
def First (P : Nat → Prop) : Option Nat → Prop
  | none => ∀ i, ¬ P i
  | some i => P i ∧ ∀ j, j < i → ¬ P j

variable {P Q : Nat → Prop} {r r' : Option Nat} {i n : Nat}

theorem First.unique (h : First P r) (h' : First P r') : r = r' := by
  cases r with
  | none =>
    cases r' with
    | none => rfl
    | some j => exact absurd h'.1 (h j)
  | some i =>
    cases r' with
    | none => exact absurd h.1 (h' i)
    | some j =>
      have hij : ¬ i < j := fun hlt => h'.2 i hlt h.1
      have hji : ¬ j < i := fun hlt => h.2 j hlt h'.1
      rw [show i = j by omega]

theorem First.congr (hpq : ∀ i, P i ↔ Q i) (h : First P r) : First Q r := by
  cases r with
  | none => exact fun i hi => h i ((hpq i).mpr hi)
  | some i => exact ⟨(hpq i).mp h.1, fun j hj hq => h.2 j hj ((hpq j).mpr hq)⟩

/-- A search behind the first `k` places. -/
theorem First.shift {k : Nat} (h : First (fun i => P (k + i)) r) :
    First (fun i => k ≤ i ∧ P i) (r.map (k + ·)) := by
  cases r with
  | none =>
    intro i hi
    obtain ⟨j, rfl⟩ := Nat.exists_eq_add_of_le hi.1
    exact h j hi.2
  | some i =>
    refine ⟨⟨Nat.le_add_right k i, h.1⟩, fun j hj hp => ?_⟩
    obtain ⟨m, rfl⟩ := Nat.exists_eq_add_of_le hp.1
    exact h.2 m (Nat.lt_of_add_lt_add_left hj) hp.2

/-- The answer of a search for the last place a property holds at. -/
def Last (P : Nat → Prop) : Option Nat → Prop
  | none => ∀ i, ¬ P i
  | some i => P i ∧ ∀ j, i < j → ¬ P j

theorem Last.unique (h : Last P r) (h' : Last P r') : r = r' := by
  cases r with
  | none =>
    cases r' with
    | none => rfl
    | some j => exact absurd h'.1 (h j)
  | some i =>
    cases r' with
    | none => exact absurd h.1 (h' i)
    | some j =>
      have hij : ¬ i < j := fun hlt => h.2 j hlt h'.1
      have hji : ¬ j < i := fun hlt => h'.2 i hlt h.1
      rw [show i = j by omega]

/-- The first place from one on is the last place up to there. -/
theorem Last.of_first {k : Nat} (hfirst : First (fun i => P (n + i)) (some k)) :
    Last (fun i => i < n + k + 1 ∧ P i) (some (n + k)) :=
  ⟨⟨Nat.lt_succ_self _, hfirst.1⟩, fun j hj hat => absurd hat.1 (by omega)⟩

theorem Last.stop (h : Last (fun i => i < n ∧ P i) r) (hfirst : First (fun i => P (n + i)) none) : Last P r := by
  have hnone {i : Nat} (hi : P i) : i < n := by
    by_contra hge
    obtain ⟨k, rfl⟩ := Nat.exists_eq_add_of_le (not_lt.mp hge)
    exact hfirst k hi
  cases r with
  | none => exact fun i hi => h i ⟨hnone hi, hi⟩
  | some i => exact ⟨h.1.2, fun j hj hat => h.2 j hj ⟨hnone hat, hat⟩⟩

/-! ## Words in a text -/

variable {α : Type*} {word word' text : List α}

def Occurs (word text : List α) (i : Nat) : Prop := word <+: text.drop i

theorem occurs_drop (k i : Nat) : Occurs word (text.drop k) i ↔ Occurs word text (k + i) := by
  rw [Occurs, Occurs, List.drop_drop]

theorem occurs_take (hword : word ≠ []) :
    Occurs word (text.take n) i ↔ Occurs word text i ∧ i + word.length ≤ n := by
  have hlength : 0 < word.length := List.length_pos_of_ne_nil hword
  rw [Occurs, Occurs, List.drop_take, List.prefix_take_iff]
  constructor
  · rintro ⟨h, hle⟩
    exact ⟨h, by omega⟩
  · rintro ⟨h, hle⟩
    exact ⟨h, by omega⟩

theorem Occurs.le (h : Occurs word text i) (hword : word ≠ []) : i + word.length ≤ text.length := by
  have hlength : 0 < word.length := List.length_pos_of_ne_nil hword
  have hle := h.length_le
  rw [List.length_drop] at hle
  omega

theorem Occurs.getElem? (h : Occurs word text i) {k : Nat} (hk : k < word.length) :
    text[i + k]? = word[k]? := by
  obtain ⟨rest, hrest⟩ := h
  have hget : (text.drop i)[k]? = word[k]? := by
    rw [← hrest, List.getElem?_append_left hk]
  rwa [List.getElem?_drop] at hget

theorem infix_iff_occurs : word <:+: text ↔ ∃ i, Occurs word text i := by
  constructor
  · rintro ⟨front, back, rfl⟩
    exact ⟨front.length, by rw [Occurs, List.append_assoc, List.drop_left]; exact List.prefix_append _ _⟩
  · rintro ⟨i, hat⟩
    exact hat.isInfix.trans (List.drop_suffix i text).isInfix

/-- A letter that a word has not keeps the word on one side of it. -/
theorem occurs_append_of_not_mem {letter : α} {front back : List α} (hletter : letter ∉ word)
    (hi : i ≤ front.length) : Occurs word (front ++ letter :: back) i ↔ Occurs word front i := by
  rw [Occurs, Occurs, List.drop_append_of_le_length hi]
  constructor
  · rintro ⟨rest, hrest⟩
    rcases List.append_eq_append_iff.mp hrest with ⟨more, hmore, -⟩ | ⟨more, hmore, hback⟩
    · exact ⟨more, hmore.symm⟩
    · cases more with
      | nil => exact ⟨[], by simpa using hmore⟩
      | cons c more =>
        obtain ⟨rfl, -⟩ := List.cons.inj hback
        exact absurd (by rw [hmore]; simp) hletter
  · exact fun h => h.trans (List.prefix_append _ _)

/-- Where a word's first letter stands for the first time, the word does not stand before. -/
theorem occurs_ge {letter : α} {front back : List α} (hword : word.head? = some letter) (hfront : letter ∉ front)
    (hat : Occurs word (front ++ back) i) : front.length ≤ i := by
  by_contra hlt
  have hpos : 0 < word.length := List.length_pos_of_ne_nil fun hnil => by
    rw [hnil] at hword
    cases hword
  have hget := hat.getElem? hpos
  rw [Nat.add_zero, List.getElem?_append_left (not_le.mp hlt), ← List.head?_eq_getElem?, hword] at hget
  exact hfront (List.mem_of_getElem? hget)

/-- A word that is not there at the front of a tag is nowhere in it. -/
theorem not_occurs_tag {letter : α} {tag back : List α} (hword : word.head? = some letter)
    (honce : letter ∉ tag.tail) (hnot : ¬ word <+: tag ++ back) (hi : i < tag.length) :
    ¬ Occurs word (tag ++ back) i := by
  intro hat
  cases i with
  | zero => exact hnot hat
  | succ i =>
    cases tag with
    | nil => cases hi
    | cons b tag =>
      have hge := occurs_ge (i := i) hword honce hat
      rw [List.length_cons] at hi
      exact absurd hge (by rw [List.tail_cons]; omega)

/-- A word does not reach beyond a place where its first letter stands. -/
theorem occurs_append_of_head {letter : α} {front back : List α} (hword : letter ∉ word.tail)
    (hback : back.head? = some letter) (hi : i < front.length) :
    Occurs word (front ++ back) i ↔ Occurs word front i := by
  rw [Occurs, Occurs, List.drop_append_of_le_length hi.le]
  constructor
  · rintro ⟨rest, hrest⟩
    rcases List.append_eq_append_iff.mp hrest with ⟨more, hmore, -⟩ | ⟨more, hmore, hbehind⟩
    · exact ⟨more, hmore.symm⟩
    · cases more with
      | nil => exact ⟨[], by simpa using hmore⟩
      | cons c more =>
        rw [hbehind] at hback
        cases hback
        -- the letter is not the first one of the word
        refine absurd ?_ hword
        rw [hmore]
        cases hdrop : front.drop i with
        | nil =>
          have hlength := congrArg List.length hdrop
          rw [List.length_drop, List.length_nil] at hlength
          omega
        | cons d rest' => simp
  · exact fun h => h.trans (List.prefix_append _ _)

/-- Words with a first letter that none of them has a second time. -/
def Distinct (letter : α) (words : List (List α)) : Prop :=
  ∀ word ∈ words, word.head? = some letter ∧ letter ∉ word.tail

theorem Distinct.ne_nil {letter : α} {words : List (List α)} (h : Distinct letter words)
    (hword : word ∈ words) : word ≠ [] := by
  rintro rfl
  cases (h _ hword).1

theorem Distinct.letter {letter : α} {words : List (List α)} (h : Distinct letter words)
    (hword : word ∈ words) (hoccurs : Occurs word text i) : text[i]? = some letter := by
  have hpos := List.length_pos_of_ne_nil (h.ne_nil hword)
  have hget := hoccurs.getElem? hpos
  rw [Nat.add_zero] at hget
  rw [hget, ← List.head?_eq_getElem?]
  exact (h word hword).1

/-- The letter stands nowhere else in a word. -/
theorem Distinct.letter_only {letter : α} {words : List (List α)} (h : Distinct letter words)
    (hword : word ∈ words) (hoccurs : Occurs word text i) {j : Nat} (hij : i < j)
    (hj : j < i + word.length) : text[j]? ≠ some letter := by
  intro hletter
  obtain ⟨k, rfl⟩ := Nat.exists_eq_add_of_lt hij
  have hget := hoccurs.getElem? (k := k + 1) (by omega)
  rw [show i + (k + 1) = i + k + 1 by omega, hletter] at hget
  refine (h word hword).2 (List.mem_of_getElem? (i := k) ?_)
  rw [List.getElem?_tail]
  exact hget.symm

theorem Distinct.no_overlap {letter : α} {words : List (List α)} (h : Distinct letter words)
    (hword : word ∈ words) (hword' : word' ∈ words) {j : Nat} (hi : Occurs word text i)
    (hj : Occurs word' text j) (hij : i < j) : i + word.length ≤ j := by
  by_contra hlt
  exact h.letter_only hword hi hij (by omega) (h.letter hword' hj)

/-! ## Any of several words -/

def OccursAny (words : List (List α)) (text : List α) (i : Nat) : Prop :=
  ∃ word ∈ words, Occurs word text i

theorem occursAny_drop {words : List (List α)} (k i : Nat) :
    OccursAny words (text.drop k) i ↔ OccursAny words text (k + i) := by
  simp only [OccursAny, occurs_drop]

theorem occursAny_of_take {words : List (List α)} {letter : α} (h : Distinct letter words)
    (hoccurs : OccursAny words (text.take n) i) : OccursAny words text i := by
  obtain ⟨word, hword, hat⟩ := hoccurs
  exact ⟨word, hword, ((occurs_take (h.ne_nil hword)).mp hat).1⟩

/-- Every word in front of a word that is there as a whole is there as a whole. -/
theorem occursAny_take_of_lt {words : List (List α)} {letter : α} (h : Distinct letter words) {j : Nat}
    (hi : OccursAny words text i) (hj : OccursAny words text j) (hij : i < j) (hn : j ≤ n) :
    OccursAny words (text.take n) i := by
  obtain ⟨word, hword, hat⟩ := hi
  obtain ⟨word', hword', hat'⟩ := hj
  have hle := h.no_overlap hword hword' hat hat' hij
  exact ⟨word, hword, (occurs_take (h.ne_nil hword)).mpr ⟨hat, by omega⟩⟩

end Spark.Search
