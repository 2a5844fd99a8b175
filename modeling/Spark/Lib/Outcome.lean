import Mathlib.Data.Nat.Notation
import Spark.Lib.Word

/-!
# Outcomes of fallible code

`Ends Q E x` says how the call `x` ends: with a value in `Q`, or with an error in `E`. A loop over a list is
`forEach`; its rule asks for the invariant of one round.

* **`Ends.bind`** — a sequence, part by part.
* **`ends_forEach`** — a loop, from one round.
* **`ends_readAt`**, **`ends_writeAt`**, **`ends_sliceAt`** — accesses that stay in bounds do not panic.
-/

namespace Spark.Outcome

variable {α β ε : Type}

/-- The value of a call that returns is in `Q`, the error of one that fails is in `E`. -/
def Ends (Q : α → Prop) (E : ε → Prop) : Except ε α → Prop
  | .ok a => Q a
  | .error e => E e

/-- Fail where `bad` holds. -/
def reject (bad : Prop) [Decidable bad] (e : ε) : Except ε Unit :=
  if bad then .error e else .ok ()

/-- The value, or the error where there is none. -/
def okOr (value : Option α) (e : ε) : Except ε α :=
  match value with
  | some a => .ok a
  | none => .error e

/-- The loop over the elements with their indices, from index `i` on. -/
def forEach (f : Nat → α → β → Except ε β) : List α → (i : Nat) → β → Except ε β
  | [], _, b => .ok b
  | x :: xs, i, b => f i x b >>= forEach f xs (i + 1)

variable {Q Q' : α → Prop} {R : β → Prop} {E E' : ε → Prop} {x : Except ε α}

@[simp] theorem okOr_some (a : α) (e : ε) : okOr (some a) e = .ok a := rfl

theorem okOr_eq_ok {value : Option α} {e : ε} {a : α} : okOr value e = .ok a ↔ value = some a := by
  cases value with
  | none => exact ⟨nofun, nofun⟩
  | some b => simp

theorem reject_of_not {bad : Prop} [Decidable bad] (e : ε) (h : ¬ bad) : reject bad e = .ok () := if_neg h

theorem reject_eq_ok {bad : Prop} [Decidable bad] {e : ε} {u : Unit} : reject bad e = .ok u ↔ ¬ bad := by
  unfold reject
  split
  · next h => exact iff_of_false nofun (not_not.mpr h)
  · next h => exact iff_of_true rfl h

/-- A sequence goes on with what its first part returns. -/
theorem bind_of_ok {f : α → Except ε β} {a : α} (h : x = .ok a) : x >>= f = f a := by
  subst h
  rfl

theorem Ends.of_ok {a : α} (h : Ends Q E x) (hx : x = .ok a) : Q a := by
  subst hx
  exact h

theorem Ends.of_error {e : ε} (h : Ends Q E x) (hx : x = .error e) : E e := by
  subst hx
  exact h

/-- A call that cannot fail returns. -/
theorem Ends.exists_ok (h : Ends Q E x) (hE : ∀ e, ¬ E e) : ∃ a, x = .ok a ∧ Q a := by
  cases x with
  | ok a => exact ⟨a, rfl, h⟩
  | error e => exact absurd h (hE e)

theorem Ends.mono (h : Ends Q E x) (hQ : ∀ a, Q a → Q' a) (hE : ∀ e, E e → E' e) : Ends Q' E' x := by
  cases x with
  | ok a => exact hQ a h
  | error e => exact hE e h

theorem Ends.bind {f : α → Except ε β} (hx : Ends Q E x) (hf : ∀ a, Q a → Ends R E (f a)) :
    Ends R E (x >>= f) := by
  cases x with
  | ok a => exact hf a hx
  | error e => exact hx

theorem ends_reject {bad : Prop} [Decidable bad] {e : ε} {Q : Unit → Prop} (hQ : ¬ bad → Q ()) (hE : bad → E e) :
    Ends Q E (reject bad e) := by
  unfold reject
  split
  · next h => exact hE h
  · next h => exact hQ h

theorem ends_okOr {value : Option α} {e : ε} (hQ : ∀ a, value = some a → Q a) (hE : value = none → E e) :
    Ends Q E (okOr value e) := by
  cases value with
  | some a => exact hQ a rfl
  | none => exact hE rfl

theorem ends_checkedAdd {w a b : Nat} {e : ε} {Q : Nat → Prop} (hQ : a + b < 2 ^ w → Q (a + b))
    (hE : 2 ^ w ≤ a + b → E e) : Ends Q E (okOr (Word.checkedAdd w a b) e) := by
  unfold Word.checkedAdd
  split
  · next h => exact hQ h
  · next h => exact hE (Nat.le_of_not_lt h)

theorem ends_checkedMul {w a b : Nat} {e : ε} {Q : Nat → Prop} (hQ : a * b < 2 ^ w → Q (a * b))
    (hE : 2 ^ w ≤ a * b → E e) : Ends Q E (okOr (Word.checkedMul w a b) e) := by
  unfold Word.checkedMul
  split
  · next h => exact hQ h
  · next h => exact hE (Nat.le_of_not_lt h)

/-- The loop keeps what one round keeps. `P i` is the invariant before round `i`. -/
theorem ends_forEach_from {f : Nat → α → β → Except ε β} {P : Nat → β → Prop} :
    ∀ (xs : List α) (i : Nat) (b : β), P i b →
      (∀ j y b, xs[j]? = some y → P (i + j) b → Ends (P (i + j + 1)) E (f (i + j) y b)) →
      Ends (P (i + xs.length)) E (forEach f xs i b) := by
  intro xs
  induction xs with
  | nil => exact fun i b hb _ => hb
  | cons x xs ih =>
    intro i b hb hstep
    have hfirst : Ends (P (i + 1)) E (f i x b) := hstep 0 x b rfl hb
    refine hfirst.bind fun b' hb' => ?_
    have hrest := ih (i + 1) b' hb' fun j y c hy hc => by
      have := hstep (j + 1) y c (by simpa using hy)
      rw [show i + (j + 1) = i + 1 + j by omega] at this
      exact this hc
    rw [List.length_cons, show i + (xs.length + 1) = i + 1 + xs.length by omega]
    exact hrest

theorem ends_forEach {f : Nat → α → β → Except ε β} {P : Nat → β → Prop} {xs : List α} {b : β} (h : P 0 b)
    (hstep : ∀ i y b, xs[i]? = some y → P i b → Ends (P (i + 1)) E (f i y b)) :
    Ends (P xs.length) E (forEach f xs 0 b) := by
  have := ends_forEach_from (E := E) xs 0 b h fun j y c hy hc => by
    rw [Nat.zero_add] at hc ⊢
    exact hstep j y c hy hc
  rwa [Nat.zero_add] at this

/-! ## Accesses that panic out of bounds -/

/-- How a call ends that does not return: with an error of its own, or with a panic. -/
inductive Fault (ε : Type) where
  | error (e : ε)
  | panic
  deriving DecidableEq, Repr

/-- A callee's error, as an error of the caller. -/
def raise {ε' : Type} (f : ε' → ε) (x : Except ε' α) : Except (Fault ε) α :=
  match x with
  | .ok a => .ok a
  | .error e => .error (.error (f e))

/-- `xs[i]`. -/
def readAt (xs : List α) (i : Nat) : Except (Fault ε) α := okOr xs[i]? .panic

/-- `xs[i] = a`. -/
def writeAt (xs : List α) (i : Nat) (a : α) : Except (Fault ε) (List α) :=
  if i < xs.length then .ok (xs.set i a) else .error .panic

/-- `xs[start..stop]`. -/
def sliceAt (xs : List α) (start stop : Nat) : Except (Fault ε) (List α) :=
  if start ≤ stop ∧ stop ≤ xs.length then .ok ((xs.take stop).drop start) else .error .panic

variable {F : Fault ε → Prop} {xs : List α}

/-- A slice that was taken was in bounds. -/
theorem le_of_sliceAt {start stop : Nat} {ys : List α} (h : sliceAt xs start stop = (.ok ys : Except (Fault ε) _)) :
    stop ≤ xs.length := by
  unfold sliceAt at h
  split at h
  · next hbounds => exact hbounds.2
  · cases h

theorem ends_raise {ε' : Type} {f : ε' → ε} {E : ε' → Prop} {x : Except ε' α} (h : Ends Q E x)
    (hF : ∀ e, E e → F (.error (f e))) : Ends Q F (raise f x) := by
  cases x with
  | ok a => exact h
  | error e => exact hF e h

theorem ends_readAt {i : Nat} {a : α} (h : xs[i]? = some a) : Ends (· = a) F (readAt xs i) := by
  unfold readAt
  rw [h]
  rfl

theorem ends_writeAt {i : Nat} {a : α} (h : i < xs.length) : Ends (· = xs.set i a) F (writeAt xs i a) := by
  unfold writeAt
  rw [if_pos h]
  rfl

theorem ends_sliceAt {start stop : Nat} (h : start ≤ stop) (hstop : stop ≤ xs.length) :
    Ends (· = (xs.take stop).drop start) F (sliceAt xs start stop) := by
  unfold sliceAt
  rw [if_pos ⟨h, hstop⟩]
  rfl

end Spark.Outcome
