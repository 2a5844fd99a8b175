import Mathlib.Data.List.Range
import Mathlib.Tactic.Ring

/-!
# Flat memories

A memory is a total function from addresses to cells. `Mem.slice` reads a range as a list,
`Mem.write` stores a list at an address, `Mem.fill` stores one value over a range and
`Mem.scribble` replaces a set of addresses by arbitrary contents. The lemmas say which
cells each operation leaves alone and what a slice of the result is.
-/

namespace Spark

/-- A memory with cells of type `α`. -/
abbrev Mem (α : Type*) := Nat → α

namespace Mem

variable {α : Type*}

/-- The `n` cells from address `a` on. -/
def slice (m : Mem α) (a n : Nat) : List α :=
  (List.range n).map fun i => m (a + i)

/-- Store `xs` at addresses `a, a + 1, …`. -/
def write (m : Mem α) (a : Nat) (xs : List α) : Mem α :=
  fun i => if a ≤ i then (xs[i - a]?).getD (m i) else m i

/-- Store `v` over the `n` cells from address `a` on. -/
def fill (m : Mem α) (a n : Nat) (v : α) : Mem α :=
  fun i => if a ≤ i ∧ i < a + n then v else m i

/-- Replace the cells selected by `dirty` by those of `junk`. -/
def scribble (m : Mem α) (dirty : Nat → Bool) (junk : Mem α) : Mem α :=
  fun i => if dirty i then junk i else m i

@[simp] theorem length_slice (m : Mem α) (a n : Nat) : (m.slice a n).length = n := by
  simp [slice]

theorem getElem?_slice (m : Mem α) {a n i : Nat} (h : i < n) :
    (m.slice a n)[i]? = some (m (a + i)) := by
  simp [slice, h]

/-- A slice splits at any point. -/
theorem slice_add (m : Mem α) (a n k : Nat) :
    m.slice a (n + k) = m.slice a n ++ m.slice (a + n) k := by
  simp [slice, List.range_add, Nat.add_assoc, Function.comp_def]

/-- Two memories that agree on a (possibly shifted) range have the same slice there. -/
theorem slice_congr {m m' : Mem α} {a b n : Nat} (h : ∀ i < n, m (a + i) = m' (b + i)) :
    m.slice a n = m'.slice b n := by
  unfold slice
  apply List.map_congr_left
  intro i hi
  exact h i (List.mem_range.mp hi)

/-- Inside the written range a write stores the list. -/
theorem write_inside (m : Mem α) {a i : Nat} {xs : List α} {x : α} (h : xs[i]? = some x) :
    m.write a xs (a + i) = x := by
  simp [write, h]

/-- Outside the written range a write changes nothing. -/
theorem write_outside (m : Mem α) {a i : Nat} {xs : List α}
    (h : i < a ∨ a + xs.length ≤ i) : m.write a xs i = m i := by
  unfold write
  split
  · next hai =>
    have hlen : xs.length ≤ i - a := by omega
    simp [List.getElem?_eq_none hlen]
  · rfl

/-- A slice of a slice. -/
theorem take_drop_slice (m : Mem α) {a n p q : Nat} (h : p + q ≤ n) :
    ((m.slice a n).drop p).take q = m.slice (a + p) q := by
  obtain ⟨rest, rfl⟩ : ∃ rest, n = p + (q + rest) := ⟨n - p - q, by omega⟩
  rw [slice_add, slice_add, List.drop_left' (length_slice m a p), List.take_left' (length_slice m _ q)]

theorem slice_write_self (m : Mem α) (a : Nat) (xs : List α) :
    (m.write a xs).slice a xs.length = xs := by
  apply List.ext_getElem?
  intro i
  by_cases hi : i < xs.length
  · rw [getElem?_slice _ hi, write_inside m (List.getElem?_eq_getElem hi), List.getElem?_eq_getElem hi]
  · have hout : xs.length ≤ i := Nat.le_of_not_lt hi
    rw [List.getElem?_eq_none hout, List.getElem?_eq_none (by simpa using hout)]

theorem slice_write_of_apart (m : Mem α) {a b n : Nat} {xs : List α}
    (h : b + n ≤ a ∨ a + xs.length ≤ b) : (m.write a xs).slice b n = m.slice b n := by
  apply slice_congr
  intro i hi
  exact write_outside m (by omega)

/-- Writing what is there already changes nothing. -/
theorem write_slice (m : Mem α) (a n : Nat) : m.write a (m.slice a n) = m := by
  funext i
  by_cases hi : a ≤ i ∧ i < a + n
  · obtain ⟨j, rfl⟩ : ∃ j, i = a + j := ⟨i - a, by omega⟩
    exact write_inside m (getElem?_slice m (by omega))
  · exact write_outside m (by rw [length_slice]; omega)

/-! ## Parts written one after the other -/

/-- Store each part at its address. -/
def writeParts (m : Mem α) (parts : List (Nat × List α)) : Mem α :=
  parts.foldl (fun m part => m.write part.1 part.2) m

/-- The range of a part does not meet `n` cells from `a` on. -/
def Clear (part : Nat × List α) (a n : Nat) : Prop := a + n ≤ part.1 ∨ part.1 + part.2.length ≤ a

theorem slice_writeParts_of_clear (m : Mem α) {parts : List (Nat × List α)} {a n : Nat}
    (h : ∀ part ∈ parts, Clear part a n) : (m.writeParts parts).slice a n = m.slice a n := by
  induction parts generalizing m with
  | nil => rfl
  | cons part parts ih =>
    obtain ⟨hpart, hparts⟩ := List.forall_mem_cons.mp h
    exact (ih (m.write part.1 part.2) hparts).trans (slice_write_of_apart m hpart)

/-- Parts that do not meet are all there in the end. -/
theorem slice_writeParts_of_mem (m : Mem α) {parts : List (Nat × List α)}
    (h : parts.Pairwise fun part later => Clear later part.1 part.2.length) {part : Nat × List α}
    (hpart : part ∈ parts) : (m.writeParts parts).slice part.1 part.2.length = part.2 := by
  induction parts generalizing m with
  | nil => cases hpart
  | cons first parts ih =>
    obtain ⟨hfirst, hparts⟩ := List.pairwise_cons.mp h
    rcases List.mem_cons.mp hpart with rfl | hpart
    · exact (slice_writeParts_of_clear _ hfirst).trans (slice_write_self m part.1 part.2)
    · exact ih (m.write first.1 first.2) hparts hpart

theorem fill_inside (m : Mem α) {a n i : Nat} {v : α} (h : i < n) :
    m.fill a n v (a + i) = v := by
  simp [fill, h]

theorem fill_outside (m : Mem α) {a n i : Nat} {v : α} (h : i < a ∨ a + n ≤ i) :
    m.fill a n v i = m i := by
  unfold fill
  rw [if_neg (by omega)]

theorem scribble_clean (m junk : Mem α) {dirty : Nat → Bool} {i : Nat} (h : dirty i = false) :
    m.scribble dirty junk i = m i := by
  simp [scribble, h]

end Mem

end Spark
