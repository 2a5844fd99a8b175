import Mathlib.Combinatorics.Enumerative.DoubleCounting
import Mathlib.Logic.Function.Basic

/-!
# Slot tables with a location index

A cache keeps two views of its residency: a table `slotKey` from slot numbers to the key a
slot holds, and an index `loc` from keys to the slot that holds them. `Inverse slotKey loc`
says that the two are mutually inverse partial maps. The lemmas are the two updates every
such cache performs: vacating a slot and publishing a key in a vacant one, and the count that finds
a slot for one more key.
-/

namespace Spark.SlotMap

variable {K : Type*} [DecidableEq K]

/-- The slot table and the location index are mutually inverse partial maps. -/
def Inverse (slotKey : Nat → Option K) (loc : K → Option Nat) : Prop :=
  ∀ k s, loc k = some s ↔ slotKey s = some k

variable {slotKey : Nat → Option K} {loc : K → Option Nat}

omit [DecidableEq K] in
theorem Inverse.slot_inj (h : Inverse slotKey loc) {k k' : K} {s : Nat}
    (hk : loc k = some s) (hk' : loc k' = some s) : k = k' := by
  have h1 := (h k s).mp hk
  have h2 := (h k' s).mp hk'
  exact Option.some.inj (h1.symm.trans h2)

omit [DecidableEq K] in
/-- The empty table. -/
theorem inverse_empty : Inverse (fun _ => none) (fun _ : K => none) := by
  intro k s
  simp

/-- Vacating slot `s`, which holds `k`, and dropping `k` from the index. -/
theorem Inverse.evict (h : Inverse slotKey loc) {s : Nat} {k : K} (hs : slotKey s = some k) :
    Inverse (Function.update slotKey s none) (Function.update loc k none) := by
  intro k' s'
  have hloc : loc k = some s := (h k s).mpr hs
  by_cases hk : k' = k
  · subst hk
    rw [Function.update_self]
    constructor
    · simp
    · intro hs'
      by_cases hss : s' = s
      · subst hss; simp at hs'
      · rw [Function.update_of_ne hss] at hs'
        have hloc' := (h k' s').mpr hs'
        rw [hloc] at hloc'
        exact absurd (Option.some.inj hloc').symm hss
  · rw [Function.update_of_ne hk, h k' s']
    by_cases hss : s' = s
    · subst hss
      rw [Function.update_self, hs]
      simp [Ne.symm hk]
    · rw [Function.update_of_ne hss]

/-- Publishing the absent key `k` in the vacant slot `s`. -/
theorem Inverse.insert (h : Inverse slotKey loc) {s : Nat} {k : K} (hs : slotKey s = none)
    (hk : loc k = none) :
    Inverse (Function.update slotKey s (some k)) (Function.update loc k (some s)) := by
  intro k' s'
  by_cases hkk : k' = k
  · subst hkk
    rw [Function.update_self]
    by_cases hss : s' = s
    · subst hss; simp
    · rw [Function.update_of_ne hss]
      have hne : slotKey s' ≠ some k' := fun hs' => by
        rw [(h k' s').mpr hs'] at hk
        exact absurd hk (by simp)
      simp [Ne.symm hss, hne]
  · rw [Function.update_of_ne hkk, h k' s']
    by_cases hss : s' = s
    · subst hss
      simp [hs, Ne.symm hkk]
    · rw [Function.update_of_ne hss]

omit [DecidableEq K] in
/-- There are no more keys than slots, each key claims at most one slot, and one of them claims none:
some slot is left unclaimed. -/
theorem exists_unclaimed {S : Type*} {slots : List S} {keys : List K} {key : K}
    (claims : S → K → Prop) (hslots : slots.Nodup) (hlength : keys.length ≤ slots.length)
    (hunique : ∀ {k : K} {s t : S}, claims s k → claims t k → s = t) (hkey : key ∈ keys)
    (hfree : ∀ s, ¬ claims s key) : ∃ s ∈ slots, ∀ k ∈ keys, ¬ claims s k := by
  classical
  by_contra hnone
  push Not at hnone
  have hcard : slots.toFinset.card ≤ (keys.toFinset.erase key).card := by
    refine Finset.card_le_card_of_forall_subsingleton claims ?_ ?_
    · intro s hs
      obtain ⟨k, hk, hclaims⟩ := hnone s (List.mem_toFinset.mp hs)
      refine ⟨k, Finset.mem_erase.mpr ⟨?_, List.mem_toFinset.mpr hk⟩, hclaims⟩
      rintro rfl
      exact hfree s hclaims
    · intro k _ s hs t ht
      exact hunique hs.2 ht.2
  rw [List.toFinset_card_of_nodup hslots, Finset.card_erase_of_mem (List.mem_toFinset.mpr hkey)] at hcard
  have hkeys := keys.toFinset_card_le
  have hpos := List.length_pos_of_mem hkey
  omega

end Spark.SlotMap
