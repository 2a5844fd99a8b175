import Mathlib.Algebra.GroupWithZero.Nat
import Mathlib.Algebra.BigOperators.Group.List.Basic
import Mathlib.Data.List.Range

/-!
# Threads over shared state

Threads with states of their own take turns on what they share. A schedule says who is next among those that are not
finished, and what the step is answered.

* **`run_induction`** — what every turn keeps, a run keeps.
* **`run_finished`** — a run with fuel for every step that is left ends with all threads finished.
* **`flatMap_chunks`** — work that is cut into chunks.
-/

namespace Spark.Threads

variable {W S A : Type}

structure Program (W S A : Type) where
  step : A → W → S → W × S
  finished : W → Bool

variable (program : Program W S A)

/-- The threads that are not finished, by their places. -/
def live (threads : List W) : List Nat :=
  (List.range threads.length).filter fun i => threads[i]?.any fun thread => !program.finished thread

/-- The turns from time `time` on. -/
def run (schedule : Nat → Nat × A) : (fuel time : Nat) → List W → S → List W × S
  | 0, _, threads, shared => (threads, shared)
  | fuel + 1, time, threads, shared =>
    match (live program threads)[(schedule time).1 % (live program threads).length]? with
    | none => (threads, shared)
    | some i =>
      match threads[i]? with
      | none => (threads, shared)
      | some thread =>
        let next := program.step (schedule time).2 thread shared
        run schedule fuel (time + 1) (threads.set i next.1) next.2

variable {program} {threads : List W} {shared : S} {schedule : Nat → Nat × A}

theorem mem_live {i : Nat} : i ∈ live program threads ↔
    ∃ thread, threads[i]? = some thread ∧ program.finished thread = false := by
  rw [live, List.mem_filter, List.mem_range]
  constructor
  · rintro ⟨hlt, hlive⟩
    rw [List.getElem?_eq_getElem hlt, Option.any_some] at hlive
    exact ⟨threads[i], List.getElem?_eq_getElem hlt, by simpa using hlive⟩
  · rintro ⟨thread, hthread, hlive⟩
    obtain ⟨hlt, -⟩ := List.getElem?_eq_some_iff.mp hthread
    rw [hthread, Option.any_some, hlive]
    exact ⟨hlt, rfl⟩

theorem live_eq_nil : live program threads = [] ↔ ∀ thread ∈ threads, program.finished thread = true := by
  rw [List.eq_nil_iff_forall_not_mem]
  constructor
  · intro hnone thread hthread
    obtain ⟨i, hi⟩ := List.mem_iff_getElem?.mp hthread
    by_contra hlive
    exact hnone i (mem_live.mpr ⟨thread, hi, by simpa using hlive⟩)
  · intro hall i hi
    obtain ⟨thread, hthread, hlive⟩ := mem_live.mp hi
    rw [hall thread (List.mem_of_getElem? hthread)] at hlive
    cases hlive

/-- What every turn keeps, a run keeps. -/
theorem run_induction {P : List W → S → Prop} (hstart : P threads shared)
    (hturn : ∀ threads shared i thread time, P threads shared → threads[i]? = some thread →
      program.finished thread = false → P (threads.set i (program.step (schedule time).2 thread shared).1)
        (program.step (schedule time).2 thread shared).2) (fuel time : Nat) :
    P (run program schedule fuel time threads shared).1 (run program schedule fuel time threads shared).2 := by
  induction fuel generalizing time threads shared with
  | zero => exact hstart
  | succ fuel ih =>
    rw [run]
    split
    · exact hstart
    · next i hi =>
      obtain ⟨thread, hthread, hlive⟩ := mem_live.mp (List.mem_of_getElem? hi)
      rw [hthread]
      exact ih (hturn threads shared i thread time hstart hthread hlive) (time + 1)

/-- A thread that takes a step down takes the sum down. -/
theorem sum_set_lt {μ : W → Nat} {i : Nat} {thread thread' : W} (hthread : threads[i]? = some thread)
    (hless : μ thread' < μ thread) : ((threads.set i thread').map μ).sum < (threads.map μ).sum := by
  obtain ⟨hlt, rfl⟩ := List.getElem?_eq_some_iff.mp hthread
  have hsplit : threads = threads.take i ++ threads[i] :: threads.drop (i + 1) := by
    rw [← List.drop_eq_getElem_cons hlt, List.take_append_drop]
  have hset : threads.set i thread' = threads.take i ++ thread' :: threads.drop (i + 1) := by
    rw [List.set_eq_take_append_cons_drop, if_pos hlt]
  have hsum : (threads.map μ).sum = ((threads.take i ++ threads[i] :: threads.drop (i + 1)).map μ).sum := by
    rw [← hsplit]
  rw [hset, hsum, List.map_append, List.map_append, List.sum_append, List.sum_append, List.map_cons, List.map_cons,
    List.sum_cons, List.sum_cons]
  omega

/-- With fuel for every step that is left all threads finish. -/
theorem run_finished {μ : W → Nat}
    (hless : ∀ answer thread shared, program.finished thread = false →
      μ (program.step answer thread shared).1 < μ thread)
    (schedule : Nat → Nat × A) {fuel : Nat} (time : Nat) (hfuel : (threads.map μ).sum ≤ fuel) (shared : S) :
    ∀ thread ∈ (run program schedule fuel time threads shared).1, program.finished thread = true := by
  induction fuel generalizing time threads shared with
  | zero =>
    show ∀ thread ∈ threads, program.finished thread = true
    intro thread hthread
    by_contra hlive
    obtain ⟨i, hi⟩ := List.mem_iff_getElem?.mp hthread
    have hstep := hless (schedule 0).2 thread shared (by simpa using hlive)
    have hsum := sum_set_lt hi hstep
    omega
  | succ fuel ih =>
    rw [run]
    by_cases hlive : live program threads = []
    · rw [hlive]
      exact live_eq_nil.mp hlive
    · have hlt := Nat.mod_lt (schedule time).1 (List.length_pos_iff.mpr hlive)
      have hi := List.getElem?_eq_getElem hlt
      rw [hi]
      obtain ⟨thread, hthread, hnot⟩ := mem_live.mp (List.mem_of_getElem? hi)
      simp only [hthread]
      refine ih (time + 1) ?_ _
      have hsum := sum_set_lt hthread (hless (schedule time).2 thread shared hnot)
      omega

/-! ## Chunks -/

def divCeil (a b : Nat) : Nat := (a + b - 1) / b

theorem le_divCeil_mul {a b : Nat} (hb : 0 < b) : a ≤ divCeil a b * b := by
  have hdiv := Nat.div_add_mod' (a + b - 1) b
  have hmod := Nat.mod_lt (a + b - 1) hb
  unfold divCeil
  omega

/-- As many chunks as there are threads, or fewer, and none is empty. -/
theorem divCeil_pos {a b : Nat} (ha : 0 < a) (hb : 0 < b) : 0 < divCeil a b := by
  refine Nat.pos_of_ne_zero fun hzero => ?_
  have hle := @le_divCeil_mul a b hb
  rw [hzero] at hle
  omega

/-- The chunks of a list, put together. -/
theorem flatMap_chunks {α : Type} (xs : List α) {size : Nat} (hsize : 0 < size) :
    ((List.range (divCeil xs.length size)).flatMap fun i => (xs.drop (i * size)).take size) = xs := by
  have hfront (count : Nat) :
      ((List.range count).flatMap fun i => (xs.drop (i * size)).take size) = xs.take (count * size) := by
    induction count with
    | zero => simp
    | succ count ih =>
      rw [List.range_succ, List.flatMap_append, ih, List.flatMap_singleton, Nat.succ_mul, List.take_add]
  rw [hfront]
  exact List.take_of_length_le (le_divCeil_mul hsize)

end Spark.Threads
