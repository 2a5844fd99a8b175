import Mathlib.Data.List.Forall2
import Spark.Lib.Traverse

/-!
# Conditions on both outcomes

`Meets Q P x` says that a fallible computation ends with an answer that `P` holds of or fails with an error that `Q`
holds of.

* **`Meets.bind`** — the condition of a sequence from those of its parts.
* **`Meets.mapM`** — the condition of a traversal from that of one element.
-/

namespace Spark.Post

variable {ε α β : Type} {Q : ε → Prop} {P P' : α → Prop} {x : Except ε α}

def Meets (Q : ε → Prop) (P : α → Prop) : Except ε α → Prop
  | .error e => Q e
  | .ok a => P a

theorem Meets.bind {R : β → Prop} {f : α → Except ε β} (h : Meets Q P x) (hf : ∀ a, P a → Meets Q R (f a)) :
    Meets Q R (x >>= f) := by
  cases x with
  | error e => exact h
  | ok a => exact hf a h

theorem Meets.map {R : β → Prop} {f : α → β} (h : Meets Q P x) (hf : ∀ a, P a → R (f a)) : Meets Q R (x.map f) := by
  cases x with
  | error e => exact h
  | ok a => exact hf a h

theorem Meets.mono (h : Meets Q P x) (hp : ∀ a, P a → P' a) : Meets Q P' x := by
  cases x with
  | error e => exact h
  | ok a => exact hp a h

theorem Meets.of_ok {a : α} (h : Meets Q P x) (hx : x = .ok a) : P a := by
  subst hx
  exact h

theorem Meets.mapM {R : α → β → Prop} {f : α → Except ε β} {xs : List α} (hf : ∀ a ∈ xs, Meets Q (R a) (f a)) :
    Meets Q (List.Forall₂ R xs) (xs.mapM f) := by
  induction xs with
  | nil => exact .nil
  | cons a xs ih =>
    obtain ⟨ha, hxs⟩ := List.forall_mem_cons.mp hf
    rw [List.mapM_cons]
    exact ha.bind fun b hb => (ih hxs).bind fun bs hbs => .cons hb hbs

end Spark.Post
