import Mathlib.Data.Nat.Notation
import Mathlib.Data.List.Basic

/-!
# Clock hands

A hand goes round `n` places. `distance` counts the steps it takes to a place, and goes down by one with each step
of the hand until it is there; behind the place a whole round lies ahead.
-/

namespace Spark.Clock

/-- The place behind `hand`. -/
def next (n hand : Nat) : Nat := (hand + 1) % n

/-- The steps from `hand` to `place`. -/
def distance (n hand place : Nat) : Nat :=
  if hand ≤ place then place - hand else place + n - hand

variable {n hand place : Nat}

theorem next_eq (h : hand < n) : next n hand = if hand + 1 = n then 0 else hand + 1 := by
  unfold next
  split
  · next heq => rw [heq, Nat.mod_self]
  · exact Nat.mod_eq_of_lt (by omega)

theorem next_lt (h : hand < n) : next n hand < n := Nat.mod_lt _ (by omega)

theorem distance_lt (hhand : hand < n) (hplace : place < n) : distance n hand place < n := by
  unfold distance
  split <;> omega

@[simp] theorem distance_self : distance n hand hand = 0 := by simp [distance]

/-- A step of the hand to a place it has not reached. -/
theorem distance_next (hhand : hand < n) (hplace : place < n) (hne : hand ≠ place) :
    distance n (next n hand) place + 1 = distance n hand place := by
  rw [next_eq hhand]
  unfold distance
  split <;> split <;> split <;> omega

/-- A step of the hand off its place. -/
theorem distance_past (hhand : hand < n) : distance n (next n hand) hand + 1 = n := by
  rw [next_eq hhand]
  unfold distance
  split <;> split <;> omega

end Spark.Clock
