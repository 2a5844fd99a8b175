import Mathlib.Order.Lattice
import Mathlib.Order.Defs.LinearOrder
import Mathlib.Order.Compare
import Mathlib.Data.List.Basic

/-!
# Halving search

A search for the one index at which a comparison answers `.eq`, by halving an interval. The comparison answers `.lt`
where the index is too small and `.gt` where it is too large.

* **`search_found`** — where the answers are in order, the index is found.
* **`searchList_found`** — a member of an ordered list is found at its place.
-/

namespace Spark.BinarySearch

/-- Each round shrinks `high - low`, so a `fuel` above it is enough. -/
def search (cmp : Nat → Ordering) : (fuel low high : Nat) → Option Nat
  | 0, _, _ => none
  | fuel + 1, low, high =>
    if low < high then
      match cmp ((low + high) / 2) with
      | .lt => search cmp fuel ((low + high) / 2 + 1) high
      | .gt => search cmp fuel low ((low + high) / 2)
      | .eq => some ((low + high) / 2)
    else none

variable {cmp : Nat → Ordering} {fuel low high i : Nat}

/-- The answers are in order around `i`. -/
structure Ordered (cmp : Nat → Ordering) (low high i : Nat) : Prop where
  found : cmp i = .eq
  below : ∀ j, low ≤ j → j < i → cmp j = .lt
  above : ∀ j, i < j → j < high → cmp j = .gt

/-- **The index is found.** -/
theorem search_found (h : Ordered cmp low high i) (hlow : low ≤ i) (hhigh : i < high) (hfuel : high - low < fuel) :
    search cmp fuel low high = some i := by
  induction fuel generalizing low high with
  | zero => omega
  | succ fuel ih =>
    rw [search, if_pos (Nat.lt_of_le_of_lt hlow hhigh)]
    rcases Nat.lt_trichotomy ((low + high) / 2) i with hmid | hmid | hmid
    · rw [h.below _ (by omega) hmid]
      exact ih ⟨h.found, fun j hj => h.below j (by omega), h.above⟩ (by omega) hhigh (by omega)
    · rw [hmid, h.found]
    · rw [h.above _ hmid (by omega)]
      exact ih ⟨h.found, h.below, fun j hj hlt => h.above j hj (by omega)⟩ hlow hmid (by omega)

/-- The search in a list. -/
def searchList {α : Type} [Ord α] (xs : List α) (x : α) : Option Nat :=
  search (fun i => match xs[i]? with
    | some y => compare y x
    | none => .gt) (xs.length + 1) 0 xs.length

/-- **A member of an ordered list is found.** -/
theorem searchList_found {α : Type} [LinearOrder α] {xs : List α} {x : α} (hsorted : xs.Pairwise (· < ·))
    (hx : xs[i]? = some x) : searchList xs x = some i := by
  obtain ⟨hlt, hget⟩ := List.getElem?_eq_some_iff.mp hx
  refine search_found ⟨?_, fun j _ hj => ?_, fun j hj hjlt => ?_⟩ (Nat.zero_le i) hlt (by omega)
  · simp only [hx]
    exact compare_eq_iff_eq.mpr rfl
  · have hlt' := List.pairwise_iff_getElem.mp hsorted j i (by omega) hlt hj
    simp only [List.getElem?_eq_getElem (show j < xs.length by omega)]
    rw [hget] at hlt'
    exact compare_lt_iff_lt.mpr hlt'
  · have hlt' := List.pairwise_iff_getElem.mp hsorted i j hlt hjlt hj
    simp only [List.getElem?_eq_getElem hjlt]
    rw [hget] at hlt'
    exact compare_gt_iff_gt.mpr hlt'

end Spark.BinarySearch
