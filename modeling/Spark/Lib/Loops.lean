import Mathlib.Data.List.Range
import Mathlib.Tactic.Ring
import Spark.Lib.Traverse

/-!
# Nested counting loops

A loop over `i < a` around a loop over `j < b` is one loop over `k < a * b`, with `i = k / b` and `j = k % b`.

* **`range_mul`** — the pairs of indices, in the order of the loop.
* **`foldl_range_mul`**, **`mapM_range_mul`** — the loop, with a state and with a list of answers.
* **`foldl_range_flatMap`** — a loop that appends a piece a round.
-/

namespace Spark.Loops

variable {σ α : Type}

/-- The rounds of a nested loop, numbered through. -/
theorem range_mul (a b : Nat) : List.range (a * b) = (List.range a).flatMap fun i => (List.range b).map (i * b + ·) := by
  induction a with
  | zero => rw [Nat.zero_mul, List.range_zero, List.flatMap_nil]
  | succ a ih =>
    rw [Nat.succ_mul, List.range_add, ih, List.range_succ, List.flatMap_append, List.flatMap_singleton]

theorem div_mod_pair {i j b : Nat} (hj : j < b) : (i * b + j) / b = i ∧ (i * b + j) % b = j := by
  have hb : 0 < b := by omega
  refine ⟨?_, ?_⟩
  · rw [Nat.mul_comm, Nat.mul_add_div hb, Nat.div_eq_of_lt hj, Nat.add_zero]
  · rw [Nat.mul_comm, Nat.mul_add_mod, Nat.mod_eq_of_lt hj]

/-- A nested loop is one loop. -/
theorem foldl_range_mul (f : σ → Nat → Nat → σ) (a b : Nat) (s : σ) :
    (List.range a).foldl (fun s i => (List.range b).foldl (fun s j => f s i j) s) s =
      (List.range (a * b)).foldl (fun s k => f s (k / b) (k % b)) s := by
  rw [range_mul, List.foldl_flatMap]
  congr 1
  funext s i
  rw [List.foldl_map]
  refine List.foldl_ext _ _ _ fun s j hj => ?_
  obtain ⟨hdiv, hmod⟩ := @div_mod_pair i j b (List.mem_range.mp hj)
  rw [hdiv, hmod]

/-- A loop that appends a piece in every round. -/
theorem foldl_range_flatMap (piece : Nat → List α) (n : Nat) (s : List α) :
    (List.range n).foldl (fun s k => s ++ piece k) s = s ++ (List.range n).flatMap piece := by
  induction n with
  | zero => rw [List.range_zero, List.flatMap_nil, List.append_nil, List.foldl_nil]
  | succ n ih =>
    rw [List.range_succ, List.foldl_append, ih, List.flatMap_append, List.flatMap_singleton, List.foldl_cons,
      List.foldl_nil, List.append_assoc]

/-- The answers of a nested loop, numbered through. -/
theorem mapM_range_mul {ε : Type} {f : Nat → Nat → Except ε α} {a b : Nat} {rows : List (List α)}
    (h : (List.range a).mapM (fun i => (List.range b).mapM (f i)) = .ok rows) :
    (List.range (a * b)).mapM (fun k => f (k / b) (k % b)) = .ok rows.flatten := by
  induction a generalizing rows with
  | zero =>
    cases h
    rw [Nat.zero_mul]
    rfl
  | succ a ih =>
    rw [List.range_succ, List.mapM_append] at h
    obtain ⟨front, hfront, h⟩ := Traverse.bind_eq_ok.mp h
    obtain ⟨last, hlast, hrows⟩ := Traverse.bind_eq_ok.mp h
    cases hrows
    have hsingle := Traverse.mapM_ok_iff.mp hlast
    obtain ⟨row, rfl⟩ : ∃ row, last = [row] := List.length_eq_one_iff.mp hsingle.length_eq.symm
    cases hsingle with
    | cons hrow _ =>
      have hmap : ((List.range b).map (a * b + ·)).mapM (fun k => f (k / b) (k % b)) = .ok row := by
        rw [List.mapM_map, ← hrow]
        refine Traverse.mapM_congr fun j hj => ?_
        obtain ⟨hdiv, hmod⟩ := @div_mod_pair a j b (List.mem_range.mp hj)
        show f ((a * b + j) / b) ((a * b + j) % b) = f a j
        rw [hdiv, hmod]
      rw [Nat.succ_mul, List.range_add, List.mapM_append, ih hfront]
      refine Traverse.bind_eq_ok.mpr ⟨front.flatten, rfl, Traverse.bind_eq_ok.mpr ⟨row, hmap, ?_⟩⟩
      rw [List.flatten_append, List.flatten_singleton]
      rfl

end Spark.Loops
