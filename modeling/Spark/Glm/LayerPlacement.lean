import Spark.Lib.Packing

/-!
# The layer placement of a multi-GPU session

`ds4_compute_layer_placement` puts the entries of a model (embedding, layers, output head) on the GPUs, in
order, and the rest on the CPU. The budgets are native `size_t` values, and `budget[d] -= entry` wraps.

* **`placeEntry_spec`** — what one round of its loop does.
* **`foldl_placeEntry`** — after any number of rounds, what is left of a budget and what is placed on its GPU
  make the whole budget: no subtraction wraps.
* **`ds4ComputeLayerPlacement_optimal`** — the placement is feasible and keeps as many entries on GPUs as any.
-/

namespace Spark.Glm

open Packing

def DS4_LAYER_PACK_MAX_GPUS : Nat := 16

def DS4_LAYER_PACK_CPU : Int := -1

structure LayerPackConfig where
  gpuBudgetBytes : List UInt64
  nGpus : Int

/-- The locals of the loop over the entries. -/
structure PackState where
  budget : List UInt64
  d : Nat
  deviceForEntry : List Int

/-- `while (d < n_gpus && entry_bytes[e] > budget[d]) d++`, over the budgets from `d` on. -/
def advance (entry : UInt64) : List UInt64 → Nat → Nat
  | [], d => d
  | budget :: rest, d => if entry > budget then advance entry rest (d + 1) else d

/-- One round of the loop over the entries. -/
def placeEntry (s : PackState) (entry : UInt64) : PackState :=
  let d := advance entry (s.budget.drop s.d) s.d
  match s.budget[d]? with
  | some budget => ⟨s.budget.set d (budget - entry), d, s.deviceForEntry ++ [(d : Int)]⟩
  | none => ⟨s.budget, d, s.deviceForEntry ++ [DS4_LAYER_PACK_CPU]⟩

/-- The loop over the entries, on a copy of the budgets. -/
def packEntries (entries budget : List UInt64) : PackState :=
  entries.foldl placeEntry ⟨budget, 0, []⟩

/-- The return code and what is in `device_for_entry` afterwards. -/
def ds4ComputeLayerPlacement (entryBytes : Option (List UInt64)) (nEntries : Int) (cfg : Option LayerPackConfig)
    (deviceForEntry : Option (List Int)) : Int × Option (List Int) :=
  match entryBytes, cfg, deviceForEntry with
  | some entryBytes, some cfg, some devices =>
    if nEntries < 0 then (2, some devices)
    else if cfg.nGpus < 0 ∨ cfg.nGpus > (DS4_LAYER_PACK_MAX_GPUS : Int) then (3, some devices)
    else
      let budget := cfg.gpuBudgetBytes.take cfg.nGpus.toNat
      let placed := (packEntries (entryBytes.take nEntries.toNat) budget).deviceForEntry
      (0, some (placed ++ devices.drop nEntries.toNat))
  | _, _, _ => (1, deviceForEntry)

/-! ## One round -/

/-- The room the budgets leave on each device. -/
def room (budget : List UInt64) (j : Nat) : Nat := (budget[j]?.getD 0).toNat

/-- The device index the code writes for a place. -/
def deviceIndex : Option Nat → Int
  | some d => d
  | none => DS4_LAYER_PACK_CPU

theorem room_of_getElem? {budget : List UInt64} {j : Nat} {b : UInt64} (h : budget[j]? = some b) :
    room budget j = b.toNat := by
  rw [room, h, Option.getD_some]

theorem room_set {budget : List UInt64} {d : Nat} (hd : d < budget.length) (b : UInt64) :
    room (budget.set d b) = Function.update (room budget) d b.toNat := by
  funext j
  by_cases hj : j = d
  · subst hj
    rw [Function.update_self, room, List.getElem?_set_self hd, Option.getD_some]
  · rw [Function.update_of_ne hj, room, List.getElem?_set_ne (Ne.symm hj), room]

/-- The loop stops at a device with room, or behind the last one, and what it passes has no room. -/
theorem advance_spec (entry : UInt64) (rest : List UInt64) (d : Nat) :
    ∃ k, advance entry rest d = d + k ∧ k ≤ rest.length ∧ (∀ i < k, ∀ b, rest[i]? = some b → b < entry) ∧
      ∀ b, rest[k]? = some b → entry ≤ b := by
  induction rest generalizing d with
  | nil => exact ⟨0, rfl, Nat.le_refl 0, nofun, nofun⟩
  | cons budget rest ih =>
    unfold advance
    split
    · next hgt =>
      obtain ⟨k, hk, hle, hskip, hstop⟩ := ih (d + 1)
      refine ⟨k + 1, by rw [hk]; omega, Nat.succ_le_succ hle, fun i hi b hb => ?_, fun b hb => hstop b hb⟩
      cases i with
      | zero => rw [← Option.some.inj hb]; exact hgt
      | succ i => exact hskip i (Nat.lt_of_succ_lt_succ hi) b hb
    · next hle =>
      refine ⟨0, rfl, Nat.zero_le _, nofun, fun b hb => ?_⟩
      rw [← Option.some.inj hb]
      exact UInt64.not_lt.mp hle

/-- Where the round puts an entry: on the first device from `d` on that has room. -/
theorem placeEntry_eq (s : PackState) (entry : UInt64) (hd : s.d ≤ s.budget.length) :
    (∃ d b, s.d ≤ d ∧ s.budget[d]? = some b ∧ entry ≤ b ∧
      (∀ i, s.d ≤ i → i < d → room s.budget i < entry.toNat) ∧
      placeEntry s entry = ⟨s.budget.set d (b - entry), d, s.deviceForEntry ++ [deviceIndex (some d)]⟩) ∨
    ((∀ i, s.d ≤ i → i < s.budget.length → room s.budget i < entry.toNat) ∧
      placeEntry s entry = ⟨s.budget, s.budget.length, s.deviceForEntry ++ [deviceIndex none]⟩) := by
  obtain ⟨k, hk, hle, hskip, hstop⟩ := advance_spec entry (s.budget.drop s.d) s.d
  rw [List.length_drop] at hle
  have hpassed : ∀ i, s.d ≤ i → i < s.d + k → room s.budget i < entry.toNat := by
    intro i hdi hi
    have hget := List.getElem?_eq_getElem (l := s.budget) (i := i) (by omega)
    rw [room_of_getElem? hget]
    apply UInt64.lt_iff_toNat_lt.mp
    apply hskip (i - s.d) (by omega)
    rw [List.getElem?_drop, Nat.add_sub_cancel' hdi, hget]
  cases hget : s.budget[s.d + k]? with
  | some b =>
    have hfit : entry ≤ b := hstop b (by rw [List.getElem?_drop, hget])
    refine .inl ⟨s.d + k, b, Nat.le_add_right _ _, hget, hfit, hpassed, ?_⟩
    simp only [placeEntry, hk, hget, deviceIndex]
  | none =>
    have hend : s.d + k = s.budget.length := by
      have := List.getElem?_eq_none_iff.mp hget
      omega
    refine .inr ⟨fun i hdi hi => hpassed i hdi (by omega), ?_⟩
    rw [hend] at hk hget
    simp only [placeEntry, hk, hget, deviceIndex]

/-- One round places the entry as the greedy packer does, whatever comes behind it. -/
theorem placeEntry_spec (s : PackState) (entry : UInt64) (hd : s.d ≤ s.budget.length) :
    ∃ place, (placeEntry s entry).deviceForEntry = s.deviceForEntry ++ [deviceIndex place] ∧
      (placeEntry s entry).budget.length = s.budget.length ∧ (placeEntry s entry).d ≤ s.budget.length ∧
      (∀ j, room (placeEntry s entry).budget j + (if place = some j then entry.toNat else 0) = room s.budget j) ∧
      ∀ sizes places,
        Greedy s.budget.length (placeEntry s entry).d (room (placeEntry s entry).budget) sizes places →
          Greedy s.budget.length s.d (room s.budget) (entry.toNat :: sizes) (place :: places) := by
  obtain ⟨d, b, hle, hget, hfit, hpassed, heq⟩ | ⟨hpassed, heq⟩ := placeEntry_eq s entry hd
  · -- the device has room, so the native subtraction is exact
    obtain ⟨hin, -⟩ := List.getElem?_eq_some_iff.mp hget
    have hroom := room_of_getElem? hget
    have hfit' : entry.toNat ≤ room s.budget d := by
      rw [hroom]
      exact UInt64.le_iff_toNat_le.mp hfit
    have hsub : room (s.budget.set d (b - entry)) =
        Function.update (room s.budget) d (room s.budget d - entry.toNat) := by
      rw [room_set hin, UInt64.toNat_sub_of_le _ _ hfit, hroom]
    rw [heq]
    refine ⟨some d, rfl, List.length_set, hin.le, fun j => ?_, fun sizes places h => ?_⟩
    · show room (s.budget.set d (b - entry)) j + _ = _
      rw [hsub]
      by_cases hj : j = d
      · subst hj
        rw [Function.update_self, if_pos rfl, Nat.sub_add_cancel hfit']
      · rw [Function.update_of_ne hj, if_neg (by simpa using Ne.symm hj), Nat.add_zero]
    · apply Greedy.place hle hin hfit' hpassed
      rw [← hsub]
      exact h
  · rw [heq]
    refine ⟨none, rfl, rfl, Nat.le_refl _, fun j => ?_, fun sizes places h => Greedy.leave hpassed h⟩
    rw [if_neg nofun, Nat.add_zero]

/-! ## The loop -/

/-- From any state, the loop places the entries as the greedy packer does, and after each of its rounds what is
left of a budget and what is placed on its GPU make up the room there was. -/
theorem foldl_placeEntry (entries : List UInt64) (s : PackState) (hd : s.d ≤ s.budget.length) :
    ∃ places, (entries.foldl placeEntry s).deviceForEntry = s.deviceForEntry ++ places.map deviceIndex ∧
      (∀ k j, room ((entries.take k).foldl placeEntry s).budget j +
        load ((entries.take k).map UInt64.toNat) (places.take k) j = room s.budget j) ∧
      Greedy s.budget.length s.d (room s.budget) (entries.map UInt64.toNat) places := by
  induction entries generalizing s with
  | nil =>
    refine ⟨[], (List.append_nil _).symm, fun k j => ?_, Greedy.nil⟩
    rw [List.take_nil]
    rfl
  | cons entry entries ih =>
    obtain ⟨place, hdevice, hlength, hd', hroom, hgreedy⟩ := placeEntry_spec s entry hd
    obtain ⟨places, hdevices, haccount, hrest⟩ := ih (placeEntry s entry) (by rw [hlength]; exact hd')
    refine ⟨place :: places, ?_, fun k j => ?_, hgreedy _ _ (hlength ▸ hrest)⟩
    · rw [List.foldl_cons, hdevices, hdevice, List.append_assoc]
      rfl
    · cases k with
      | zero => rfl
      | succ k =>
        have hj := haccount k j
        rw [List.take_succ_cons, List.take_succ_cons, List.map_cons, List.foldl_cons, load_cons, ← hroom j]
        omega

/-! ## The call -/

/-- The placements a call may choose from. -/
def Feasible (entries budget : List UInt64) (places : List (Option Nat)) : Prop :=
  Fits budget.length 0 (room budget) (entries.map UInt64.toNat) places

theorem packEntries_spec (entries budget : List UInt64) :
    ∃ places, (packEntries entries budget).deviceForEntry = places.map deviceIndex ∧
      Feasible entries budget places ∧
      (∀ others, Feasible entries budget others → placed others ≤ placed places) ∧
      ∀ k j, room (packEntries (entries.take k) budget).budget j +
        load ((entries.take k).map UInt64.toNat) (places.take k) j = room budget j := by
  obtain ⟨places, hdevices, haccount, hgreedy⟩ := foldl_placeEntry entries ⟨budget, 0, []⟩ (Nat.zero_le _)
  exact ⟨places, hdevices, hgreedy.fits, fun _ => hgreedy.most, haccount⟩

/-- The placement is feasible, no running budget wraps, and no feasible placement has more entries on GPUs. -/
theorem ds4ComputeLayerPlacement_optimal (entries : List UInt64) (cfg : LayerPackConfig) (devices : List Int)
    (hlow : 0 ≤ cfg.nGpus) (hhigh : cfg.nGpus ≤ (DS4_LAYER_PACK_MAX_GPUS : Int))
    (hdevices : devices.length = entries.length) :
    let budget := cfg.gpuBudgetBytes.take cfg.nGpus.toNat
    ∃ places, ds4ComputeLayerPlacement (some entries) entries.length (some cfg) (some devices) =
        (0, some (places.map deviceIndex)) ∧
      Feasible entries budget places ∧
      (∀ others, Feasible entries budget others → placed others ≤ placed places) ∧
      ∀ k j, room (packEntries (entries.take k) budget).budget j +
        load ((entries.take k).map UInt64.toNat) (places.take k) j = room budget j := by
  intro budget
  obtain ⟨places, hplaces, hrest⟩ := packEntries_spec entries budget
  refine ⟨places, ?_, hrest⟩
  rw [ds4ComputeLayerPlacement, if_neg (by omega), if_neg (by omega)]
  rw [Int.toNat_natCast, List.take_of_length_le (Nat.le_refl _), List.drop_of_length_le hdevices.le]
  show ((0 : Int), some ((packEntries entries budget).deviceForEntry ++ [])) = _
  rw [List.append_nil, hplaces]

/-- Two GPUs: the second entry does not fit on the first one, and the third is too large for any. -/
theorem ds4ComputeLayerPlacement_optimal_two :
    ∃ places, ds4ComputeLayerPlacement (some [3, 4, 9, 1]) 4 (some ⟨[5, 6], 2⟩) (some [0, 0, 0, 0]) =
        (0, some (places.map deviceIndex)) ∧
      Feasible [3, 4, 9, 1] [5, 6] places ∧
      (∀ others, Feasible [3, 4, 9, 1] [5, 6] others → placed others ≤ placed places) ∧
      ∀ k j, room (packEntries (([3, 4, 9, 1] : List UInt64).take k) [5, 6]).budget j +
        load ((([3, 4, 9, 1] : List UInt64).take k).map UInt64.toNat) (places.take k) j = room [5, 6] j :=
  ds4ComputeLayerPlacement_optimal [3, 4, 9, 1] ⟨[5, 6], 2⟩ [0, 0, 0, 0] (by decide) (by decide) rfl

end Spark.Glm
