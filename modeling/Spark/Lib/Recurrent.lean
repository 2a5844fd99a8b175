import Mathlib.Data.List.Basic

/-!
# Recurrent targets

A recurrent model is a state machine over tokens with an output read off the state. A batch is
the fold of its tokens, so everything a decoder may rely on is how `run` and `fold` compose.

* **`run`** — feed tokens from a given state.
* **`fold`** — feed tokens from reset; **`score`** — the output after them.
-/

namespace Spark

structure Recurrent (T σ Λ : Type*) where
  reset : σ
  step : σ → T → σ
  logits : σ → Λ

namespace Recurrent

variable {T σ Λ : Type*} (target : Recurrent T σ Λ)

def run (state : σ) (tokens : List T) : σ := tokens.foldl target.step state

def fold (tokens : List T) : σ := target.run target.reset tokens

def score (tokens : List T) : Λ := target.logits (target.fold tokens)

theorem run_fold (front back : List T) :
    target.run (target.fold front) back = target.fold (front ++ back) := by
  simp [run, fold]

end Recurrent

end Spark
