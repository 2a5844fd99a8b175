import Mathlib.Data.List.Nodup
import Mathlib.Logic.Function.Basic

/-!
# Linked lists over cells

A doubly linked list is kept field by field: one table for the `prev` links of the cells, one for the
`next` links, and the two ends. `Links.Holds d l` says that the links are those of the cells `l`, from
the head to the tail. A singly linked chain has a `next` table and a start; `Chain next start l` says
that following it from `start` visits `l` and ends.
-/

namespace Spark.LinkedList

variable {α : Type} [DecidableEq α]

structure Links (α : Type) where
  head : Option α
  tail : Option α
  prev : α → Option α
  next : α → Option α

namespace Links

def empty : Links α := ⟨none, none, fun _ => none, fun _ => none⟩

/-- `e->prev = NULL; e->next = head; (head ? head->prev : tail) = e; head = e`. -/
def linkHead (d : Links α) (e : α) : Links α where
  head := some e
  tail := if d.head.isSome then d.tail else some e
  prev :=
    match d.head with
    | some h => Function.update (Function.update d.prev e none) h (some e)
    | none => Function.update d.prev e none
  next := Function.update d.next e d.head

/-- `(e->prev ? e->prev->next : head) = e->next; (e->next ? e->next->prev : tail) = e->prev;
e->prev = e->next = NULL`. -/
def unlink (d : Links α) (e : α) : Links α where
  head := if (d.prev e).isSome then d.head else d.next e
  tail := if (d.next e).isSome then d.tail else d.prev e
  next := Function.update ((d.prev e).elim d.next fun p => Function.update d.next p (d.next e)) e none
  prev := Function.update ((d.next e).elim d.prev fun n => Function.update d.prev n (d.prev e)) e none

/-- The links are those of the list `l`: both ends, and both neighbours of every cell of it. -/
structure Holds (d : Links α) (l : List α) : Prop where
  nodup : l.Nodup
  head : d.head = l.head?
  tail : d.tail = l.getLast?
  next : ∀ front x back, l = front ++ x :: back → d.next x = back.head?
  prev : ∀ front x back, l = front ++ x :: back → d.prev x = front.getLast?

omit [DecidableEq α] in
theorem holds_empty : (empty : Links α).Holds [] where
  nodup := List.nodup_nil
  head := rfl
  tail := rfl
  next front x back h := by simp at h
  prev front x back h := by simp at h

variable {d : Links α} {l : List α} {e : α}

theorem Holds.linkHead (h : d.Holds l) (he : e ∉ l) : (d.linkHead e).Holds (e :: l) where
  nodup := List.nodup_cons.mpr ⟨he, h.nodup⟩
  head := rfl
  tail := by
    cases l with
    | nil => simp [Links.linkHead, h.head]
    | cons x l => simp [Links.linkHead, h.head, h.tail, List.getLast?_cons_cons]
  next front x back hl := by
    show Function.update d.next e d.head x = back.head?
    cases front with
    | nil =>
      obtain ⟨rfl, rfl⟩ := List.cons.inj hl
      rw [Function.update_self, h.head]
    | cons y front =>
      obtain ⟨rfl, rfl⟩ := List.cons.inj hl
      have hx : x ≠ e := fun hx => he (by simp [hx])
      rw [Function.update_of_ne hx]
      exact h.next front x back rfl
  prev front x back hl := by
    cases front with
    | nil =>
      obtain ⟨rfl, rfl⟩ := List.cons.inj hl
      cases l with
      | nil => simp [Links.linkHead, h.head]
      | cons y l =>
        have hy : e ≠ y := fun hy => he (by simp [hy])
        simp [Links.linkHead, h.head, Function.update_of_ne hy]
    | cons y front =>
      obtain ⟨rfl, rfl⟩ := List.cons.inj hl
      have hx : x ≠ e := fun hx => he (by simp [hx])
      have hprev := h.prev front x back rfl
      cases front with
      | nil => simp [Links.linkHead, h.head]
      | cons z front =>
        -- the head's new neighbour is not the neighbour of any other cell
        have hz : x ≠ z := by
          intro hz
          have hnodup := h.nodup
          simp [hz] at hnodup
        simp [Links.linkHead, h.head, Function.update_of_ne hz, Function.update_of_ne hx, hprev,
          List.getLast?_cons_cons]

end Links

omit [DecidableEq α] in
/-- An element of two lists put together is in the second one, or in the first. -/
theorem split_append {front back f b : List α} {x : α} (h : front ++ back = f ++ x :: b) :
    (∃ m, back = m ++ x :: b ∧ f = front ++ m) ∨ ∃ m, front = f ++ x :: m ∧ b = m ++ back := by
  rcases List.append_eq_append_iff.mp h with ⟨m, hf, hb⟩ | ⟨m, hf, hb⟩
  · exact .inl ⟨m, hb, hf⟩
  · cases m with
    | nil => exact .inl ⟨[], by simpa using hb.symm, by simpa using hf.symm⟩
    | cons y m =>
      obtain ⟨rfl, rfl⟩ := List.cons.inj hb
      exact .inr ⟨m, hf, rfl⟩

namespace Links

variable {d : Links α} {l front back : List α} {e : α}

/-- The same cells read from the tail. -/
def flip (d : Links α) : Links α := ⟨d.tail, d.head, d.next, d.prev⟩

omit [DecidableEq α] in
theorem Holds.flip (h : d.Holds l) : d.flip.Holds l.reverse where
  nodup := List.nodup_reverse.mpr h.nodup
  head := by rw [List.head?_reverse]; exact h.tail
  tail := by rw [List.getLast?_reverse]; exact h.head
  next front x back hl := by
    have hl' : l = back.reverse ++ x :: front.reverse := by
      rw [← List.reverse_reverse l, hl]
      simp
    rw [← List.getLast?_reverse]
    exact h.prev back.reverse x front.reverse hl'
  prev front x back hl := by
    have hl' : l = back.reverse ++ x :: front.reverse := by
      rw [← List.reverse_reverse l, hl]
      simp
    rw [← List.head?_reverse]
    exact h.next back.reverse x front.reverse hl'

omit [DecidableEq α] in
theorem getLast?_ne_of_nodup {x y : α} {m : List α} (h : (x :: m).Nodup) (hy : m.getLast? = some y) :
    x ≠ y := by
  intro hxy
  exact (List.nodup_cons.mp h).1 (hxy ▸ List.mem_of_getLast? hy)

theorem Holds.unlink_head (h : d.Holds (front ++ e :: back)) :
    (d.unlink e).head = (front ++ back).head? := by
  show (if (d.prev e).isSome then d.head else d.next e) = (front ++ back).head?
  rw [h.prev front e back rfl, h.next front e back rfl, h.head]
  cases front with
  | nil => simp
  | cons x front => simp [List.getLast?_cons]

theorem Holds.unlink_next (h : d.Holds (front ++ e :: back)) {f b : List α} {x : α}
    (hl : front ++ back = f ++ x :: b) : (d.unlink e).next x = b.head? := by
  have hnodup := h.nodup
  have hx : x ≠ e := by
    have hmem : x ∈ front ++ back := by rw [hl]; simp
    rintro rfl
    exact (List.nodup_middle.mp hnodup |> List.nodup_cons.mp).1 hmem
  show Function.update ((d.prev e).elim d.next fun p => Function.update d.next p (d.next e)) e none x =
    b.head?
  rw [Function.update_of_ne hx, h.prev front e back rfl, h.next front e back rfl]
  rcases split_append hl with ⟨m, rfl, rfl⟩ | ⟨m, rfl, rfl⟩
  · -- a cell behind `e` keeps its neighbour
    have hkeep : d.next x = b.head? := h.next (front ++ e :: m) x b (by simp)
    cases hp : front.getLast? with
    | none => exact hkeep
    | some p =>
      have hxp : x ≠ p := by
        rintro rfl
        exact (List.disjoint_of_nodup_append hnodup) (List.mem_of_getLast? hp) (by simp)
      show Function.update d.next p (m ++ x :: b).head? x = b.head?
      rw [Function.update_of_ne hxp, hkeep]
  · have hold : d.next x = (m ++ e :: back).head? := h.next f x (m ++ e :: back) (by simp)
    cases m with
    | nil => simp
    | cons y m =>
      obtain ⟨p, hp⟩ : ∃ p, (y :: m).getLast? = some p := ⟨_, List.getLast?_cons⟩
      have hlast : (f ++ x :: y :: m).getLast? = some p := by
        rw [List.getLast?_append, List.getLast?_cons_cons, hp]
        rfl
      have hxp : x ≠ p := by
        apply getLast?_ne_of_nodup _ hp
        exact ((List.nodup_append.mp (List.nodup_append.mp hnodup).1).2.1)
      show ((f ++ x :: y :: m).getLast?.elim d.next fun p => Function.update d.next p back.head?) x = _
      rw [hlast]
      show Function.update d.next p back.head? x = _
      rw [Function.update_of_ne hxp, hold]
      rfl

/-- Unlinking a cell leaves the links of the list without it. -/
theorem Holds.unlink (h : d.Holds (front ++ e :: back)) : (d.unlink e).Holds (front ++ back) := by
  have hflip : d.flip.Holds (back.reverse ++ e :: front.reverse) := by simpa using h.flip
  have hsublist : (front ++ back).Sublist (front ++ e :: back) :=
    List.Sublist.append (List.Sublist.refl front) (List.sublist_cons_self e back)
  exact {
    nodup := h.nodup.sublist hsublist
    head := h.unlink_head
    tail := by
      have htail := hflip.unlink_head
      rwa [← List.reverse_append, List.head?_reverse] at htail
    next := fun f x b hl => h.unlink_next hl
    prev := by
      intro f x b hl
      have hrev : back.reverse ++ front.reverse = b.reverse ++ x :: f.reverse := by
        rw [← List.reverse_append, hl]
        simp
      have hprev := hflip.unlink_next hrev
      rwa [List.head?_reverse] at hprev }

theorem Holds.unlink_erase (h : d.Holds l) (he : e ∈ l) : (d.unlink e).Holds (l.erase e) := by
  obtain ⟨front, back, rfl⟩ := List.append_of_mem he
  have hfront : e ∉ front := by
    intro hmem
    exact (List.disjoint_of_nodup_append h.nodup) hmem (by simp)
  rw [List.erase_append_right _ hfront, List.erase_cons_head]
  exact h.unlink

omit [DecidableEq α] in
theorem Holds.head_eq_none_iff (h : d.Holds l) : d.head = none ↔ l = [] := by
  rw [h.head, List.head?_eq_none_iff]

end Links

/-- A singly linked chain: its start, and the link of every cell. -/
structure Chained (α : Type) where
  start : Option α
  next : α → Option α

/-- Following `next` from `s` visits the cells `l` in their order, and then ends. -/
def Chain (next : α → Option α) : Option α → List α → Prop
  | s, [] => s = none
  | s, x :: l => s = some x ∧ Chain next (next x) l

omit [DecidableEq α] in
theorem Chain.congr {next next' : α → Option α} {s : Option α} {l : List α} (h : Chain next s l)
    (heq : ∀ x ∈ l, next' x = next x) : Chain next' s l := by
  induction l generalizing s with
  | nil => exact h
  | cons x l ih =>
    obtain ⟨hs, hl⟩ := h
    refine ⟨hs, ?_⟩
    rw [heq x List.mem_cons_self]
    exact ih hl fun y hy => heq y (List.mem_cons_of_mem x hy)

theorem Chain.push {next : α → Option α} {s : Option α} {l : List α} {e : α} (h : Chain next s l)
    (he : e ∉ l) : Chain (Function.update next e s) (some e) (e :: l) := by
  refine ⟨rfl, ?_⟩
  rw [Function.update_self]
  apply h.congr
  intro x hx
  have hxe : x ≠ e := fun hxe => he (hxe ▸ hx)
  exact Function.update_of_ne hxe _ _

namespace Chained

/-- The pointer at a place: `none` is the start's own place, `some x` is the link of the cell `x`. -/
def read (c : Chained α) : Option α → Option α
  | none => c.start
  | some x => c.next x

def write (c : Chained α) (v : Option α) : Option α → Chained α
  | none => { c with start := v }
  | some x => { c with next := Function.update c.next x v }

/-- `while (*p) { if (*p == e) { *p = e->next; e->next = NULL; return; } p = &(*p)->next; }`, with
`none` when the loop does not end within the fuel. -/
def unlink (e : α) : Nat → Option α → Chained α → Option (Chained α)
  | 0, _, _ => none
  | fuel + 1, p, c =>
    match c.read p with
    | none => some c
    | some x =>
      if x = e then
        let c' := c.write (c.next e) p
        some { c' with next := Function.update c'.next e none }
      else
        unlink e fuel (some x) c

theorem read_write (c : Chained α) (v p : Option α) : (c.write v p).read p = v := by
  cases p with
  | none => rfl
  | some x => exact Function.update_self x v c.next

theorem read_write_of_ne {c : Chained α} {v p q : Option α} (h : q ≠ p) :
    (c.write v p).read q = c.read q := by
  cases p with
  | none =>
    cases q with
    | none => exact absurd rfl h
    | some y => rfl
  | some x =>
    cases q with
    | none => rfl
    | some y => exact Function.update_of_ne (fun hy => h (congrArg some hy)) _ _

theorem read_clear {c : Chained α} {e : α} {q : Option α} (h : q ≠ some e) :
    Chained.read { c with next := Function.update c.next e none } q = c.read q := by
  cases q with
  | none => rfl
  | some y => exact Function.update_of_ne (fun hy => h (congrArg some hy)) _ _

theorem unlink_here {c : Chained α} {p : Option α} {e : α} {fuel : Nat} (h : c.read p = some e) :
    unlink e (fuel + 1) p c =
      some { c.write (c.next e) p with next := Function.update (c.write (c.next e) p).next e none } := by
  simp [unlink, h]

theorem unlink_there {c : Chained α} {p : Option α} {e x : α} {fuel : Nat} (h : c.read p = some x)
    (hx : x ≠ e) : unlink e (fuel + 1) p c = unlink e fuel (some x) c := by
  simp [unlink, h, hx]

/-- From the place `p`, whose chain is `l`, the loop takes `e` out of `l` and writes no other place. -/
theorem unlink_spec {c : Chained α} {p : Option α} {l : List α} {e : α} {fuel : Nat}
    (hl : Chain c.next (c.read p) l) (hnodup : l.Nodup) (hp : ∀ x ∈ l, p ≠ some x) (he : e ∈ l)
    (hfuel : l.length ≤ fuel) :
    ∃ c', unlink e fuel p c = some c' ∧ Chain c'.next (c'.read p) (l.erase e) ∧
      ∀ q, q ≠ p → (∀ x ∈ l, q ≠ some x) → c'.read q = c.read q := by
  induction l generalizing p fuel with
  | nil => simp at he
  | cons y l ih =>
    obtain ⟨hread, htail⟩ := hl
    obtain ⟨hy, hnodup'⟩ := List.nodup_cons.mp hnodup
    obtain ⟨fuel, rfl⟩ : ∃ n, fuel = n + 1 := ⟨fuel - 1, by simp at hfuel; omega⟩
    by_cases hye : y = e
    · subst hye
      refine ⟨_, unlink_here hread, ?_, ?_⟩
      · rw [List.erase_cons_head, read_clear (hp y List.mem_cons_self), read_write]
        apply htail.congr
        intro x hx
        have hxy : some x ≠ some y := fun hxy => hy (Option.some.inj hxy ▸ hx)
        have hxp : some x ≠ p := fun hxp => hp x (List.mem_cons_of_mem y hx) hxp.symm
        exact (read_clear hxy).trans (read_write_of_ne hxp)
      · intro q hqp hq
        rw [read_clear (hq y List.mem_cons_self), read_write_of_ne hqp]
    · have hel : e ∈ l := (List.mem_cons.mp he).resolve_left (Ne.symm hye)
      have hplace : ∀ x ∈ l, some y ≠ some x := by
        intro x hx hyx
        exact hy (Option.some.inj hyx ▸ hx)
      have hfuel' : l.length ≤ fuel := by simpa using hfuel
      have htail' : Chain c.next (c.read (some y)) l := htail
      obtain ⟨c', hstep, hchain, hframe⟩ := ih htail' hnodup' hplace hel hfuel'
      refine ⟨c', (unlink_there hread hye).trans hstep, ?_, ?_⟩
      · rw [List.erase_cons_tail (by simpa using hye)]
        refine ⟨?_, hchain⟩
        rw [hframe p (hp y List.mem_cons_self) fun x hx => hp x (List.mem_cons_of_mem y hx), hread]
      · intro q hqp hq
        exact hframe q (hq y List.mem_cons_self) fun x hx => hq x (List.mem_cons_of_mem y hx)

theorem unlink_start {c : Chained α} {l : List α} {e : α} {fuel : Nat} (hl : Chain c.next c.start l)
    (hnodup : l.Nodup) (he : e ∈ l) (hfuel : l.length ≤ fuel) :
    ∃ c', unlink e fuel none c = some c' ∧ Chain c'.next c'.start (l.erase e) ∧
      ∀ y, y ∉ l → c'.next y = c.next y := by
  have hread : Chain c.next (c.read none) l := hl
  obtain ⟨c', hc', hchain, hframe⟩ := unlink_spec hread hnodup (fun x _ => by simp) he hfuel
  refine ⟨c', hc', hchain, ?_⟩
  intro y hy
  apply hframe (some y) (by simp)
  intro x hx hyx
  exact hy (Option.some.inj hyx ▸ hx)

end Chained

end Spark.LinkedList
