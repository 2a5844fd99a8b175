import Mathlib.Data.List.Perm.Basic

/-!
# Asynchronous rings

A ring takes operations in three stages: queued by its owner, in flight, and done with a result
that nobody has reaped yet. The other side may finish what is in flight in any order.

* **`held`** — everything that was pushed and not reaped.
* **`held_push`**, **`held_submit`**, **`held_complete`**, **`held_reap`** — what each step does to
  it, up to order.
-/

namespace Spark

structure AsyncRing (Op : Type*) where
  queued : List Op
  inFlight : List Op
  done : List (Op × Int)

namespace AsyncRing

open scoped List

variable {Op : Type*} (ring : AsyncRing Op)

def idle : AsyncRing Op := ⟨[], [], []⟩

def held : List Op := ring.queued ++ ring.inFlight ++ ring.done.map Prod.fst

def push (op : Op) : AsyncRing Op := { ring with queued := ring.queued ++ [op] }

/-- The first `count` queued operations go into flight. -/
def submit (count : Nat) : AsyncRing Op :=
  { ring with
    queued := ring.queued.drop count, inFlight := ring.inFlight ++ ring.queued.take count }

/-- The operation at `index` is done. -/
def complete (index : Nat) (result : Int) : AsyncRing Op :=
  match ring.inFlight[index]? with
  | none => ring
  | some op =>
    { ring with inFlight := ring.inFlight.eraseIdx index, done := ring.done ++ [(op, result)] }

/-- The oldest result and what is left. -/
def reap : Option ((Op × Int) × AsyncRing Op) :=
  match ring.done with
  | [] => none
  | first :: rest => some (first, { ring with done := rest })

theorem eq_idle_of_held (h : ring.held = []) : ring = idle := by
  obtain ⟨hfront, hdone⟩ := List.append_eq_nil_iff.mp h
  obtain ⟨hqueued, hflight⟩ := List.append_eq_nil_iff.mp hfront
  cases ring
  simp only at hqueued hflight hdone
  rw [hqueued, hflight, List.map_eq_nil_iff.mp hdone]
  rfl

theorem held_push (op : Op) : (ring.push op).held ~ op :: ring.held := by
  unfold held push
  simp only [List.append_assoc, List.singleton_append]
  exact List.perm_middle

theorem held_submit (count : Nat) : (ring.submit count).held ~ ring.held := by
  unfold held submit
  refine List.Perm.append_right _ ?_
  calc ring.queued.drop count ++ (ring.inFlight ++ ring.queued.take count)
      _ = (ring.queued.drop count ++ ring.inFlight) ++ ring.queued.take count := by
        rw [List.append_assoc]
      _ ~ ring.queued.take count ++ (ring.queued.drop count ++ ring.inFlight) :=
        List.perm_append_comm
      _ = ring.queued ++ ring.inFlight := by
        rw [← List.append_assoc, List.take_append_drop]

theorem held_complete (index : Nat) (result : Int) :
    (ring.complete index result).held ~ ring.held := by
  unfold complete
  split
  · exact List.Perm.refl _
  · next op hop =>
    obtain ⟨hlt, hget⟩ := List.getElem?_eq_some_iff.mp hop
    have hmoved : ring.inFlight.eraseIdx index ++ [op] ~ ring.inFlight := by
      rw [← hget]
      exact List.perm_append_comm.trans (List.getElem_cons_eraseIdx_perm hlt)
    unfold held
    simp only [List.map_append, List.map_cons, List.map_nil]
    calc ring.queued ++ ring.inFlight.eraseIdx index ++ (ring.done.map Prod.fst ++ [op])
        _ ~ ring.queued ++ ring.inFlight.eraseIdx index ++ ([op] ++ ring.done.map Prod.fst) :=
          List.Perm.append_left _ List.perm_append_comm
        _ = ring.queued ++ (ring.inFlight.eraseIdx index ++ [op]) ++ ring.done.map Prod.fst := by
          simp only [List.append_assoc]
        _ ~ ring.queued ++ ring.inFlight ++ ring.done.map Prod.fst :=
          List.Perm.append_right _ (List.Perm.append_left _ hmoved)

theorem held_reap {first : Op × Int} {rest : AsyncRing Op} (h : ring.reap = some (first, rest)) :
    ring.held ~ first.1 :: rest.held := by
  unfold reap at h
  split at h
  · cases h
  · next head tail hdone =>
    cases h
    unfold held
    rw [hdone, List.map_cons]
    exact List.perm_middle

end AsyncRing

end Spark
