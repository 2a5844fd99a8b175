import Mathlib.Algebra.GroupWithZero.Nat
import Mathlib.Data.List.Forall2
import Mathlib.Logic.Function.Basic
import Mathlib.Order.WithBot

/-!
# Packing a sequence in order

Items of given sizes are put on devices of given room, one after the other: no item goes on a device before
the one its predecessor is on, and from some item on they all are left over. The greedy packer never looks
ahead and never looks back.

* **`Greedy.fits`** — what the greedy packer makes is such a packing.
* **`Greedy.most`** — and no other packing places more items.
-/

namespace Spark.Packing

variable {n d : Nat} {room : Nat → Nat} {size : Nat} {sizes : List Nat} {device : Option Nat}
  {places : List (Option Nat)}

/-! ## Packings -/

/-- What of the items is on a device. -/
def load (sizes : List Nat) (places : List (Option Nat)) (device : Nat) : Nat :=
  (List.zipWith (fun size place => if place = some device then size else 0) sizes places).sum

/-- The order of the devices, with what is left over behind all of them. -/
def NotBefore : Option Nat → Option Nat → Prop
  | some a, some b => a ≤ b
  | some _, none => True
  | none, place => place = none

/-- A packing of the items on devices from `d` on. -/
structure Fits (n d : Nat) (room : Nat → Nat) (sizes : List Nat) (places : List (Option Nat)) : Prop where
  length : places.length = sizes.length
  device : ∀ j, some j ∈ places → d ≤ j ∧ j < n
  ordered : places.Pairwise NotBefore
  holds : ∀ j, load sizes places j ≤ room j

/-- How many items are placed. -/
def placed (places : List (Option Nat)) : Nat := places.countP Option.isSome

theorem load_cons (j : Nat) : load (size :: sizes) (device :: places) j =
    (if device = some j then size else 0) + load sizes places j := rfl

theorem load_none (h : ∀ place ∈ places, place = none) (j : Nat) : load sizes places j = 0 := by
  induction places generalizing sizes with
  | nil => simp [load]
  | cons place places ih =>
    obtain ⟨rfl, hplaces⟩ := List.forall_mem_cons.mp h
    cases sizes with
    | nil => rfl
    | cons size sizes => rw [load_cons, ih hplaces, if_neg (by simp)]

/-- The first item is on a device, and the others are packed on what is left from there on. -/
theorem Fits.tail {j : Nat} (h : Fits n d room (size :: sizes) (some j :: places)) :
    d ≤ j ∧ j < n ∧ size ≤ room j ∧ Fits n j (Function.update room j (room j - size)) sizes places := by
  obtain ⟨hd, hn⟩ := h.device j List.mem_cons_self
  have hload := h.holds j
  rw [load_cons, if_pos rfl] at hload
  obtain ⟨hbehind, hlater⟩ := List.pairwise_cons.mp h.ordered
  refine ⟨hd, hn, by omega, Nat.succ.inj h.length, fun k hk => ⟨hbehind _ hk, ?_⟩, hlater, fun k => ?_⟩
  · exact (h.device k (List.mem_cons_of_mem _ hk)).2
  · have hk := h.holds k
    rw [load_cons] at hk
    by_cases hkj : k = j
    · subst hkj
      rw [Function.update_self]
      omega
    · rw [Function.update_of_ne hkj]
      omega

theorem Fits.cons {j : Nat} (hd : d ≤ j) (hn : j < n) (hsize : size ≤ room j)
    (h : Fits n j (Function.update room j (room j - size)) sizes places) :
    Fits n d room (size :: sizes) (some j :: places) where
  length := congrArg Nat.succ h.length
  device k hk := by
    rcases List.mem_cons.mp hk with hk | hk
    · cases hk
      exact ⟨hd, hn⟩
    · obtain ⟨hjk, hkn⟩ := h.device k hk
      exact ⟨by omega, hkn⟩
  ordered := by
    refine List.pairwise_cons.mpr ⟨fun place hplace => ?_, h.ordered⟩
    cases place with
    | none => trivial
    | some k => exact (h.device k hplace).1
  holds k := by
    have hk := h.holds k
    rw [load_cons]
    by_cases hkj : k = j
    · subst hkj
      rw [Function.update_self] at hk
      rw [if_pos rfl]
      omega
    · rw [Function.update_of_ne hkj] at hk
      rw [if_neg (by simpa using Ne.symm hkj)]
      omega

/-- From an item that is left over on, they all are. -/
theorem Fits.left_over (h : Fits n d room (size :: sizes) (none :: places)) : placed (none :: places) = 0 := by
  have hnone := (List.pairwise_cons.mp h.ordered).1
  refine List.countP_eq_zero.mpr fun place hplace => ?_
  rcases List.mem_cons.mp hplace with rfl | hplace
  · simp
  · rw [hnone place hplace]
    simp

theorem fits_none (hlength : places.length = sizes.length) (h : ∀ place ∈ places, place = none) :
    Fits n d room sizes places where
  length := hlength
  device j hj := by cases h _ hj
  ordered := List.Pairwise.imp_of_mem (fun {a b} ha hb _ => by rw [h a ha, h b hb]; rfl)
    (List.pairwise_of_forall (R := fun _ _ => True) fun _ _ => trivial)
  holds j := by
    rw [load_none h]
    exact Nat.zero_le _

/-! ## The greedy packer -/

/-- An item goes on the first device from here on that has room for it. -/
inductive Greedy (n : Nat) : Nat → (Nat → Nat) → List Nat → List (Option Nat) → Prop where
  | nil {d : Nat} {room : Nat → Nat} : Greedy n d room [] []
  | place {d : Nat} {room : Nat → Nat} {size : Nat} {sizes : List Nat} {places : List (Option Nat)} {k : Nat}
      (hd : d ≤ k) (hn : k < n) (hsize : size ≤ room k) (hskip : ∀ i, d ≤ i → i < k → room i < size)
      (h : Greedy n k (Function.update room k (room k - size)) sizes places) :
      Greedy n d room (size :: sizes) (some k :: places)
  | leave {d : Nat} {room : Nat → Nat} {size : Nat} {sizes : List Nat} {places : List (Option Nat)}
      (hskip : ∀ i, d ≤ i → i < n → room i < size)
      (h : Greedy n n room sizes places) : Greedy n d room (size :: sizes) (none :: places)

/-- Behind the last device nothing is placed. -/
theorem Greedy.none_behind (h : Greedy n d room sizes places) (hd : n ≤ d) : ∀ place ∈ places, place = none := by
  induction h with
  | nil => simp
  | place hle hlt => omega
  | leave _ _ ih => exact List.forall_mem_cons.mpr ⟨rfl, ih (Nat.le_refl n)⟩

theorem Greedy.length (h : Greedy n d room sizes places) : places.length = sizes.length := by
  induction h with
  | nil => rfl
  | place _ _ _ _ _ ih => exact congrArg Nat.succ ih
  | leave _ _ ih => exact congrArg Nat.succ ih

/-- What the greedy packer makes is a packing. -/
theorem Greedy.fits (h : Greedy n d room sizes places) : Fits n d room sizes places := by
  induction h with
  | nil => exact fits_none rfl (by simp)
  | place hd hn hsize _ _ ih => exact ih.cons hd hn hsize
  | leave _ h _ =>
    exact fits_none (congrArg Nat.succ h.length) (List.forall_mem_cons.mpr ⟨rfl, h.none_behind (Nat.le_refl n)⟩)

/-- A packing that is no further behind, and has no more room where it goes on, places no more items. -/
theorem Greedy.stays_ahead {d' : Nat} {room' : Nat → Nat} {others : List (Option Nat)}
    (h : Greedy n d room sizes places) (hothers : Fits n d' room' sizes others) (hd : d ≤ d')
    (hroom : ∀ j, d' ≤ j → room' j ≤ room j) : placed others ≤ placed places := by
  induction h generalizing d' room' others with
  | nil =>
    have hlength := hothers.length
    rw [List.length_nil, List.length_eq_zero_iff] at hlength
    rw [hlength]
  | @place d room size sizes places k hdk hn hsize hskip _ ih =>
    match others, hothers with
    | none :: others, hothers => rw [hothers.left_over]; exact Nat.zero_le _
    | some j :: others, hothers =>
      obtain ⟨hdj, hjn, hfit, hlater⟩ := hothers.tail
      -- the other packing's device is one the greedy packer would have taken
      have hkj : k ≤ j := by
        by_contra hlt
        have := hskip j (by omega) (by omega)
        have := hroom j hdj
        omega
      have hcount := ih hlater hkj fun i hi => by
        by_cases hij : i = j
        · subst hij
          have := hroom i hdj
          rw [Function.update_self]
          by_cases hik : i = k
          · subst hik
            rw [Function.update_self]
            omega
          · rw [Function.update_of_ne hik]
            omega
        · rw [Function.update_of_ne hij, Function.update_of_ne (by omega)]
          exact hroom i (by omega)
      simp only [placed, List.countP_cons, Option.isSome_some, if_true] at hcount ⊢
      omega
  | @leave d room size sizes places hskip _ _ =>
    match others, hothers with
    | none :: others, hothers => rw [hothers.left_over]; exact Nat.zero_le _
    | some j :: others, hothers =>
      obtain ⟨hdj, hjn, hfit, -⟩ := hothers.tail
      have := hskip j (by omega) hjn
      have := hroom j hdj
      omega

/-- No packing places more items than the greedy packer. -/
theorem Greedy.most {others : List (Option Nat)} (h : Greedy n d room sizes places)
    (hothers : Fits n d room sizes others) : placed others ≤ placed places :=
  h.stays_ahead hothers (Nat.le_refl d) fun _ _ => Nat.le_refl _

end Spark.Packing
