import Mathlib.Data.Nat.Bitwise

/-!
# Fixed-width unsigned arithmetic on `Nat`

A machine word of width `w` is modelled by a natural number below `2 ^ w`. The four
overflow disciplines a program can choose from are functions on `Nat` with the width as a
parameter:

* `checkedAdd` / `checkedMul` / `checkedSub` — `none` on overflow;
* `wrappingAdd` — reduction modulo `2 ^ w`;
* `saturatingAdd` — clamping at `2 ^ w - 1`.

The second half of the module is the page arithmetic of power-of-two sizes: masking an
offset with the complement of `p - 1` rounds it down to a multiple of `p`.
-/

namespace Spark.Word

/-- Addition that reports overflow of a `w`-bit word. -/
def checkedAdd (w a b : Nat) : Option Nat :=
  if a + b < 2 ^ w then some (a + b) else none

/-- Multiplication that reports overflow of a `w`-bit word. -/
def checkedMul (w a b : Nat) : Option Nat :=
  if a * b < 2 ^ w then some (a * b) else none

/-- Subtraction that reports underflow. -/
def checkedSub (a b : Nat) : Option Nat :=
  if b ≤ a then some (a - b) else none

/-- Addition modulo `2 ^ w`. -/
def wrappingAdd (w a b : Nat) : Nat :=
  (a + b) % 2 ^ w

/-- Addition clamped at the largest `w`-bit word. -/
def saturatingAdd (w a b : Nat) : Nat :=
  min (a + b) (2 ^ w - 1)

theorem checkedAdd_eq_some {w a b c : Nat} :
    checkedAdd w a b = some c ↔ a + b < 2 ^ w ∧ c = a + b := by
  unfold checkedAdd
  split
  · next h => simp [h, eq_comm]
  · next h => simp [h]

theorem checkedMul_eq_some {w a b c : Nat} :
    checkedMul w a b = some c ↔ a * b < 2 ^ w ∧ c = a * b := by
  unfold checkedMul
  split
  · next h => simp [h, eq_comm]
  · next h => simp [h]

theorem checkedSub_eq_some {a b c : Nat} : checkedSub a b = some c ↔ b ≤ a ∧ c = a - b := by
  unfold checkedSub
  split
  · next h => simp [h, eq_comm]
  · next h => simp [h]

theorem wrappingAdd_of_lt {w a b : Nat} (h : a + b < 2 ^ w) : wrappingAdd w a b = a + b :=
  Nat.mod_eq_of_lt h

/-- Clear the low bits of `x` below the power of two `p`: the word-level `x & !(p - 1)`. -/
def alignDown (w x p : Nat) : Nat :=
  x &&& (2 ^ w - 1 - (p - 1))

/-- On a word `x`, masking with the complement of `2 ^ k - 1` keeps exactly the bits from
`k` upwards. -/
theorem alignDown_two_pow {w x k : Nat} (hx : x < 2 ^ w) :
    alignDown w x (2 ^ k) = x / 2 ^ k * 2 ^ k := by
  unfold alignDown
  apply Nat.eq_of_testBit_eq
  intro i
  have hmask : 2 ^ w - 1 - (2 ^ k - 1) = 2 ^ w - (2 ^ k - 1 + 1) := by omega
  have hshift : x / 2 ^ k * 2 ^ k = x >>> k <<< k := by
    rw [Nat.shiftLeft_eq, Nat.shiftRight_eq_div_pow]
  rw [hshift, Nat.testBit_and, Nat.testBit_shiftLeft, Nat.testBit_shiftRight]
  rcases Nat.lt_or_ge (2 ^ k - 1) (2 ^ w) with hk | hk
  · rw [hmask, Nat.testBit_two_pow_sub_succ hk, Nat.testBit_two_pow_sub_one]
    by_cases hik : i < k
    · simp [hik, Nat.not_le.mpr hik]
    · have hki : k ≤ i := Nat.le_of_not_lt hik
      have hiw : i < w ∨ x.testBit i = false := by
        rcases Nat.lt_or_ge i w with h | h
        · exact .inl h
        · exact .inr (Nat.testBit_lt_two_pow (lt_of_lt_of_le hx (Nat.pow_le_pow_right (by omega) h)))
      rcases hiw with h | h
      · simp [hik, hki, h]
      · simp [hki, h]
  · -- the mask is empty, and `x` has no bit at `k` or above
    have hwk : 2 ^ w ≤ 2 ^ k := by omega
    rw [show 2 ^ w - 1 - (2 ^ k - 1) = 0 from by omega]
    by_cases hki : k ≤ i
    · have hbit : x.testBit i = false :=
        Nat.testBit_lt_two_pow
          (lt_of_lt_of_le hx (hwk.trans (Nat.pow_le_pow_right (by omega) hki)))
      simp [hki, hbit]
    · simp [hki]

/-- The rounded offset, spelled with the remainder. -/
theorem alignDown_add_mod {w x k : Nat} (hx : x < 2 ^ w) :
    alignDown w x (2 ^ k) + x % 2 ^ k = x := by
  rw [alignDown_two_pow hx]
  exact Nat.div_add_mod' x (2 ^ k)

end Spark.Word
