import Mathlib.Data.List.Rotate
import Spark.Lib.Clock

/-!
# Second chances as a queue

The hand of a clock meets the entries of a ring one after the other. An entry that was referenced gets a second
chance: its bit is cleared and the hand goes on. The first entry without a bit falls, and the new entry, with its bit
set, comes to its place, behind the hand.

Read off in the order in which they will fall (those without a bit first, then the others) the entries are a queue:
a second chance does not change it, and a replacement takes the head and puts the new entry at the end.

* **`order_chance`**, **`order_replace`** — the two moves of the hand.
* **`foldl_enqueue`** — after any number of new entries the queue is the last of all of them.
* **`spares_iff`** — when no entry of a batch is among the first that fall.
* **`rotate_set_next`** — the ring of a list under a hand.
-/

namespace Spark.SecondChance

variable {α : Type}

/-- The entries in the order in which they fall. -/
def order (ring : List (α × Bool)) : List α :=
  (ring.filter fun entry => !entry.2).map (·.1) ++ (ring.filter (·.2)).map (·.1)

/-- The entries that have a second chance left. -/
def chances (ring : List (α × Bool)) : Nat := (ring.filter (·.2)).length

/-- **A second chance does not change the queue.** -/
theorem order_chance (a : α) (rest : List (α × Bool)) : order (rest ++ [(a, false)]) = order ((a, true) :: rest) := by
  simp [order]

theorem chances_chance (a : α) (rest : List (α × Bool)) :
    chances (rest ++ [(a, false)]) + 1 = chances ((a, true) :: rest) := by
  simp [chances]

/-- **A replacement takes the head of the queue.** -/
theorem order_replace (a b : α) (rest : List (α × Bool)) :
    order (rest ++ [(b, true)]) = (order ((a, false) :: rest)).tail ++ [b] := by
  simp [order]

theorem order_push (ring : List (α × Bool)) (b : α) : order (ring ++ [(b, true)]) = order ring ++ [b] := by
  simp [order]

theorem order_perm (ring : List (α × Bool)) : (order ring).Perm (ring.map (·.1)) := by
  rw [order, ← List.map_append]
  exact ((List.perm_append_comm.trans (List.filter_append_perm _ ring))).map _

theorem length_order (ring : List (α × Bool)) : (order ring).length = ring.length := by
  rw [(order_perm ring).length_eq, List.length_map]

theorem mem_order {ring : List (α × Bool)} {a : α} : a ∈ order ring ↔ a ∈ ring.map (·.1) :=
  (order_perm ring).mem_iff

/-! ## The queue -/

/-- A new entry: at the end, and when the ring is full for the head. -/
def enqueue (capacity : Nat) (queue : List α) (a : α) : List α :=
  if queue.length < capacity then queue ++ [a] else queue.tail ++ [a]

theorem enqueue_eq_drop {capacity : Nat} (hpos : 0 < capacity) {queue : List α} (hlen : queue.length ≤ capacity) (a : α) :
    enqueue capacity queue a = (queue ++ [a]).drop (queue.length + 1 - capacity) := by
  unfold enqueue
  split
  · next hlt => rw [show queue.length + 1 - capacity = 0 by omega, List.drop_zero]
  · next hge =>
    have hne : queue ≠ [] := List.length_pos_iff.mp (by omega)
    rw [show queue.length + 1 - capacity = 1 by omega, List.drop_one, List.tail_append_of_ne_nil hne]

theorem length_enqueue {capacity : Nat} (hpos : 0 < capacity) {queue : List α} (hlen : queue.length ≤ capacity) (a : α) :
    (enqueue capacity queue a).length ≤ capacity := by
  rw [enqueue_eq_drop hpos hlen, List.length_drop, List.length_append, List.length_singleton]
  omega

theorem mem_of_mem_enqueue {capacity : Nat} {queue : List α} {a b : α} (h : b ∈ enqueue capacity queue a) :
    b ∈ queue ∨ b = a := by
  unfold enqueue at h
  split at h
  · simpa using h
  · rw [List.mem_append, List.mem_singleton] at h
    exact h.imp_left List.mem_of_mem_tail

/-- **The queue is the last of all that came.** Induction on the new entries. -/
theorem foldl_enqueue {capacity : Nat} (hpos : 0 < capacity) (entries : List α) :
    ∀ queue : List α, queue.length ≤ capacity → entries.foldl (enqueue capacity) queue =
      (queue ++ entries).drop (queue.length + entries.length - capacity) := by
  induction entries with
  | nil =>
    intro queue hlen
    rw [List.foldl_nil, List.append_nil, List.length_nil, show queue.length + 0 - capacity = 0 by omega,
      List.drop_zero]
  | cons a entries ih =>
    intro queue hlen
    have henqueue := enqueue_eq_drop hpos hlen a
    have hdropped : (enqueue capacity queue a).length = queue.length + 1 - (queue.length + 1 - capacity) := by
      rw [henqueue, List.length_drop, List.length_append, List.length_singleton]
    rw [List.foldl_cons, ih _ (length_enqueue hpos hlen a), hdropped, henqueue, List.length_cons,
      ← List.drop_append_of_le_length (by rw [List.length_append, List.length_singleton]; omega), List.drop_drop,
      List.append_assoc, List.singleton_append]
    congr 1
    omega

/-! ## A batch -/

/-- The entries of the ring with the bits of the batch set. -/
def marked (batch : α → Bool) (ring : List (α × Bool)) : List (α × Bool) :=
  ring.map fun entry => (entry.1, entry.2 || batch entry.1)

/-- The entries outside the batch that fall before the first of the batch: those without a bit, and of those with a bit
the ones the hand meets before the first of the batch. -/
def spare (batch : α → Bool) (ring : List (α × Bool)) : Nat :=
  (ring.filter fun entry => !entry.2 && !batch entry.1).length +
    ((ring.takeWhile fun entry => !batch entry.1).filter (·.2)).length

theorem length_marked (batch : α → Bool) (ring : List (α × Bool)) : (marked batch ring).length = ring.length :=
  List.length_map ..

theorem forall_take_iff {p : α → Bool} {l : List α} : ∀ {k : Nat}, k ≤ l.length →
    ((∀ a ∈ l.take k, p a = true) ↔ k ≤ (l.takeWhile p).length) := by
  induction l with
  | nil => simp
  | cons a l ih =>
    intro k hk
    cases k with
    | zero => simp
    | succ k =>
      rw [List.take_succ_cons, List.forall_mem_cons, ih (Nat.le_of_succ_le_succ hk), List.takeWhile_cons]
      cases hp : p a with
      | true => simp
      | false => simp

/-- With the bits of the batch set, the first of the batch is met among those with a bit. -/
theorem takeWhile_marked (batch : α → Bool) (ring : List (α × Bool)) :
    (((marked batch ring).filter (·.2)).map (·.1)).takeWhile (fun a => !batch a) =
      ((ring.takeWhile fun entry => !batch entry.1).filter (·.2)).map (·.1) := by
  induction ring with
  | nil => rfl
  | cons entry ring ih =>
    rw [marked, List.map_cons, ← marked]
    cases hbatch : batch entry.1 with
    | true => simp [hbatch]
    | false =>
      cases hbit : entry.2 with
      | true => simpa [hbatch, hbit] using ih
      | false => simpa [hbatch, hbit] using ih

theorem unmarked_marked (batch : α → Bool) (ring : List (α × Bool)) :
    ((marked batch ring).filter fun entry => !entry.2) = ring.filter fun entry => !entry.2 && !batch entry.1 := by
  induction ring with
  | nil => rfl
  | cons entry ring ih =>
    obtain ⟨a, bit⟩ := entry
    rw [marked, List.map_cons, ← marked, List.filter_cons, List.filter_cons, ih]
    cases bit with
    | true => rfl
    | false =>
      cases hbatch : batch a with
      | true => rfl
      | false => simp

/-- **The first `k` that fall spare the batch exactly when there are that many before it.** -/
theorem spares_iff (batch : α → Bool) {ring : List (α × Bool)} {k : Nat} (hk : k ≤ ring.length) :
    (∀ a ∈ (order (marked batch ring)).take k, batch a = false) ↔ k ≤ spare batch ring := by
  have hlength : k ≤ (order (marked batch ring)).length := by
    rw [length_order, length_marked]
    exact hk
  have htake := forall_take_iff (p := fun a => !batch a) hlength
  simp only [Bool.not_eq_true'] at htake
  have hoff : ∀ a ∈ ((marked batch ring).filter fun entry => !entry.2).map (·.1), (!batch a) = true := by
    intro a ha
    rw [unmarked_marked] at ha
    obtain ⟨entry, hentry, rfl⟩ := List.mem_map.mp ha
    have hkept := (List.mem_filter.mp hentry).2
    exact (Bool.and_eq_true _ _ ▸ hkept).2
  rw [htake, order, List.takeWhile_append_of_pos hoff, takeWhile_marked, unmarked_marked, spare, List.length_append,
    List.length_map, List.length_map]

/-! ## A hand over a list -/

variable {l : List α} {hand : Nat}

theorem rotate_eq_cons (h : hand < l.length) : l.rotate hand = l[hand] :: (l.drop (hand + 1) ++ l.take hand) := by
  rw [List.rotate_eq_drop_append_take (Nat.le_of_lt h), List.drop_eq_getElem_cons h, List.cons_append]

/-- The entry under the hand is replaced, and the hand goes on. -/
theorem rotate_set_next (h : hand < l.length) (a : α) :
    (l.set hand a).rotate (Clock.next l.length hand) = l.drop (hand + 1) ++ l.take hand ++ [a] := by
  have hset : (l.set hand a).length = l.length := List.length_set ..
  have htake : (l.set hand a).take (hand + 1) = l.take hand ++ [a] := by
    rw [List.take_add_one, List.take_set_of_le (Nat.le_refl hand), List.getElem?_set_self h]
    rfl
  rw [Clock.next, ← hset, List.rotate_mod, List.rotate_eq_drop_append_take (by omega), htake,
    List.drop_set_of_lt (Nat.lt_succ_self hand), List.append_assoc]

end Spark.SecondChance
