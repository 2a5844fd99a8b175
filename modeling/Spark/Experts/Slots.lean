import Mathlib.Data.List.MinMax
import Spark.Fabric.ExpertCache

/-!
# The hot expert slots of a layer

`QwenLayerExpertSlots` of `engine.rs` and the packing of what it plans. In the direct-pack mode every
layer has one planner and one hot bank, and both outlive the request: `plan` writes the experts of the
call into its table, `pack_misses` then writes their bytes into the bank, and a call that fails
anywhere in between leaves the table as `plan` left it.

* **`placeExperts_spec`** — what the loop of `plan` does to the table, and which loads it asks for.
* **`plan_ok`** — a plan that is answered names, for each routed expert, the slot it is in.
-/

namespace Spark.Experts

open Fabric

/-- `LAYER_EXPERT_SLOTS`, which is `ACTIVE_EXPERTS`. -/
abbrev layerExpertSlots : Nat := 10

/-- `QWEN_EXPERT_CAPACITY`. -/
abbrev expertCapacity : Nat := 16

abbrev Slot := Fin layerExpertSlots

/-- Which expert each slot is said to hold. -/
abbrev Table := Vector (Option Int) layerExpertSlots

/-- `QwenLayerExpertSlots`. -/
structure LayerExpertSlots where
  slotExperts : Table
  lastUsed : Vector Nat layerExpertSlots
  tick : Nat
  deriving DecidableEq, Repr

/-- `QwenLayerExpertPlan`. -/
structure LayerExpertPlan where
  loads : List ExpertLoad
  physical : List Nat
  deriving DecidableEq, Repr

def tryFromIntError : String := "out of range integral type conversion attempted"

/-- `u16::try_from`. -/
def toU16 (value : Int) : Except String Nat :=
  if 0 ≤ value ∧ value < 65536 then .ok value.toNat else .error tryFromIntError

/-- The routed experts as a `BTreeSet`: ascending, without repetition. -/
def requestedExperts (logical : List Int) : List Int := logical.dedup.insertionSort (· ≤ ·)

namespace LayerExpertSlots

def new : LayerExpertSlots where
  slotExperts := Vector.replicate layerExpertSlots none
  lastUsed := Vector.replicate layerExpertSlots 0
  tick := 0

/-- `self.slot_experts.iter().position(…)`. -/
def position (slots : LayerExpertSlots) (p : Option Int → Bool) : Option Slot :=
  (List.finRange layerExpertSlots).find? fun slot => p slots.slotExperts[slot]

/-- `resident.is_some_and(|resident| !requested.contains(&resident))`. -/
def evictable (requested : List Int) : Option Int → Bool
  | some resident => !requested.contains resident
  | none => false

/-- `min_by_key(|(slot, _)| (self.last_used[*slot], *slot))` over the evictable slots, which come in
the order of their numbers. -/
def leastRecentSlot (slots : LayerExpertSlots) (requested : List Int) : Option Slot :=
  ((List.finRange layerExpertSlots).filter fun slot => evictable requested slots.slotExperts[slot]).argmin
    fun slot => slots.lastUsed[slot]

def chooseSlot (slots : LayerExpertSlots) (requested : List Int) : Option Slot :=
  (slots.position Option.isNone).or (slots.leastRecentSlot requested)

/-- The `evicts` of a load into a slot that holds `resident`. -/
def evictedKey (layer : Nat) : Option Int → Except String (Option ExpertKey)
  | none => .ok none
  | some resident =>
    match toU16 resident with
    | .ok expert => .ok (some { layer, expert })
    | .error e => .error e

def place (slots : LayerExpertSlots) (slot : Slot) (expert : Int) : LayerExpertSlots :=
  { slots with slotExperts := slots.slotExperts.set slot (some expert) }

/-- The loop of `plan` over the requested experts. The table is written as the loop goes, and an error
does not take back what was written. -/
def placeExperts (layer : Nat) (requested : List Int) :
    List Int → LayerExpertSlots → Except String (List ExpertLoad) × LayerExpertSlots
  | [], slots => (.ok [], slots)
  | expert :: rest, slots =>
    match toU16 expert with
    | .error e => (.error e, slots)
    | .ok expertId =>
      if slots.slotExperts.contains (some expert) then placeExperts layer requested rest slots
      else
        match slots.chooseSlot requested with
        | none => (.error "Qwen expert slot planner cannot retain the current top-k", slots)
        | some slot =>
          match evictedKey layer slots.slotExperts[slot] with
          | .error e => (.error e, slots)
          | .ok evicts =>
            let load : ExpertLoad :=
              { key := { layer, expert := expertId }, address := { slot := slot, byteOffset := 0 }, evicts }
            let placed := placeExperts layer requested rest (slots.place slot expert)
            (placed.1.map (load :: ·), placed.2)

/-- The second loop of `plan`: the slot of each routed expert, marked as used now. -/
def touchRouted : List Int → LayerExpertSlots → Except String (List Nat) × LayerExpertSlots
  | [], slots => (.ok [], slots)
  | expert :: rest, slots =>
    match slots.position (· == some expert) with
    | none => (.error "Qwen routed expert is absent from the hot bank", slots)
    | some slot =>
      let touched := touchRouted rest { slots with lastUsed := slots.lastUsed.set slot slots.tick }
      (touched.1.map (slot.val :: ·), touched.2)

def plan (slots : LayerExpertSlots) (layer : Nat) (logical : List Int) :
    Except String LayerExpertPlan × LayerExpertSlots :=
  let requested := requestedExperts logical
  if requested.length ≠ layerExpertSlots then (.error "Qwen top-k experts are not unique", slots)
  else if 65536 ≤ layer then (.error tryFromIntError, slots)
  else
    match placeExperts layer requested requested slots with
    | (.error e, placed) => (.error e, placed)
    | (.ok loads, placed) =>
      match Word.checkedAdd 64 placed.tick 1 with
      | none => (.error "Qwen expert LRU tick overflow", placed)
      | some tick =>
        let touched := touchRouted logical { placed with tick }
        (touched.1.map fun physical => { loads, physical }, touched.2)

end LayerExpertSlots

/-! ## The table -/

namespace Table

def Holds (table : Table) (expert : Int) : Prop := ∃ slot : Slot, table[slot] = some expert

/-- No expert is in two slots, and every resident has an identity the loads can name. -/
structure Valid (table : Table) : Prop where
  distinct : ∀ {a b : Slot} {expert : Int}, table[a] = some expert → table[b] = some expert → a = b
  fits : ∀ {slot : Slot} {expert : Int}, table[slot] = some expert → 0 ≤ expert ∧ expert < 65536

theorem contains_iff {table : Table} {expert : Int} :
    table.contains (some expert) = true ↔ table.Holds expert := by
  rw [Vector.contains_iff_mem, Vector.mem_iff_getElem]
  constructor
  · rintro ⟨slot, hslot, h⟩
    exact ⟨⟨slot, hslot⟩, h⟩
  · rintro ⟨slot, h⟩
    exact ⟨slot, slot.isLt, h⟩

theorem valid_new : LayerExpertSlots.new.slotExperts.Valid := by
  constructor <;> simp [LayerExpertSlots.new]

theorem getElem_set {table : Table} {slot other : Slot} {resident : Option Int} :
    (table.set slot resident)[other] = if slot = other then resident else table[other] := by
  simp only [Fin.getElem_fin, Vector.getElem_set, Fin.ext_iff]

theorem Valid.set {table : Table} (h : table.Valid) {slot : Slot} {expert : Int}
    (hmissing : ¬ table.Holds expert) (hfits : 0 ≤ expert ∧ expert < 65536) :
    Valid (table.set slot (some expert)) := by
  constructor
  · intro a b resident ha hb
    rw [getElem_set] at ha hb
    split at ha <;> split at hb
    · next hslot hslot' => exact hslot.symm.trans hslot'
    · cases ha
      exact absurd ⟨b, hb⟩ hmissing
    · cases hb
      exact absurd ⟨a, ha⟩ hmissing
    · exact h.distinct ha hb
  · intro other resident hresident
    rw [getElem_set] at hresident
    split at hresident
    · cases hresident
      exact hfits
    · exact h.fits hresident

/-- A full table of requested experts has no room for a requested expert it does not hold. -/
theorem Valid.room {table : Table} (h : table.Valid) {requested : List Int}
    (hlength : requested.length = layerExpertSlots) {expert : Int} (hrequested : expert ∈ requested)
    (hmissing : ¬ table.Holds expert) :
    ∃ slot : Slot, ∀ resident, table[slot] = some resident → resident ∉ requested := by
  obtain ⟨slot, -, hslot⟩ :=
    SlotMap.exists_unclaimed (fun (slot : Slot) expert => table[slot] = some expert)
      (List.nodup_finRange layerExpertSlots) (by rw [hlength, List.length_finRange]) h.distinct hrequested
      (fun slot hslot => hmissing ⟨slot, hslot⟩)
  exact ⟨slot, fun resident hresident hmem => hslot resident hmem hresident⟩

end Table

namespace LayerExpertSlots

theorem position_some {slots : LayerExpertSlots} {p : Option Int → Bool} {slot : Slot}
    (h : slots.position p = some slot) : p slots.slotExperts[slot] = true := by
  unfold position at h
  exact List.find?_some (p := fun slot => p slots.slotExperts[slot]) h

theorem chooseSlot_spec {slots : LayerExpertSlots} (h : slots.slotExperts.Valid) {requested : List Int}
    (hlength : requested.length = layerExpertSlots) {expert : Int}
    (hrequested : expert ∈ requested) (hmissing : ¬ slots.slotExperts.Holds expert) :
    ∃ slot, slots.chooseSlot requested = some slot ∧
      ∀ resident, slots.slotExperts[slot] = some resident → resident ∉ requested := by
  unfold chooseSlot
  cases hposition : slots.position Option.isNone with
  | some slot =>
    refine ⟨slot, rfl, ?_⟩
    intro resident hresident
    have hvacant := position_some hposition
    rw [hresident] at hvacant
    cases hvacant
  | none =>
    obtain ⟨room, hroom⟩ := h.room hlength hrequested hmissing
    have hfull : slots.slotExperts[room] ≠ none := by
      simpa using List.find?_eq_none.mp hposition room (List.mem_finRange room)
    obtain ⟨resident, hresident⟩ := Option.ne_none_iff_exists'.mp hfull
    have hmem : room ∈ (List.finRange layerExpertSlots).filter fun slot =>
        evictable requested slots.slotExperts[slot] := by
      refine List.mem_filter.mpr ⟨List.mem_finRange room, ?_⟩
      rw [hresident]
      simpa [evictable] using hroom resident hresident
    cases hleast : slots.leastRecentSlot requested with
    | none =>
      rw [List.argmin_eq_none.mp hleast] at hmem
      cases hmem
    | some slot =>
      refine ⟨slot, rfl, ?_⟩
      intro other hother
      have hevictable := (List.mem_filter.mp (List.argmin_mem hleast)).2
      rw [hother] at hevictable
      simpa [evictable] using hevictable

theorem toU16_ok {value : Int} (h : 0 ≤ value ∧ value < 65536) : toU16 value = .ok value.toNat :=
  if_pos h

theorem fits_of_toU16 {value : Int} {result : Nat} (h : toU16 value = .ok result) :
    (0 ≤ value ∧ value < 65536) ∧ result = value.toNat := by
  unfold toU16 at h
  split at h
  · next hfits => exact ⟨hfits, (Except.ok.inj h).symm⟩
  · cases h

theorem evictedKey_ok {table : Table} (h : table.Valid) (layer : Nat) (slot : Slot) :
    ∃ evicts, evictedKey layer table[slot] = .ok evicts := by
  cases hresident : table[slot] with
  | none => exact ⟨none, rfl⟩
  | some resident =>
    rw [evictedKey, toU16_ok (h.fits hresident)]
    exact ⟨_, rfl⟩

end LayerExpertSlots

/-! ## The loop of `plan` -/

/-- What the loop did to the table between `before` and `after`, for the loads it asks for. -/
structure Placed (layer : Nat) (requested : List Int) (before after : Table) (loads : List ExpertLoad) :
    Prop where
  valid : after.Valid
  retained : ∀ expert ∈ requested, before.Holds expert → after.Holds expert
  explained : ∀ {slot : Slot} {expert : Int}, after[slot] = some expert →
    (before[slot] = some expert ∧ ∀ load ∈ loads, load.address.slot ≠ slot) ∨
      ∃ load ∈ loads, load.address.slot = slot ∧ load.key = ⟨layer, expert.toNat⟩
  spared : ∀ load ∈ loads, ∃ slot : Slot, load.address.slot = slot ∧
    ∀ resident, before[slot] = some resident → resident ∉ requested
  missed : ∀ load ∈ loads, ∃ expert ∈ requested, load.key = ⟨layer, expert.toNat⟩ ∧ ¬ before.Holds expert
  apart : (loads.map (·.address.slot)).Nodup

theorem placed_nil {layer : Nat} {requested : List Int} {table : Table} (h : table.Valid) :
    Placed layer requested table table [] where
  valid := h
  retained := fun _ _ hholds => hholds
  explained := fun hslot => .inl ⟨hslot, nofun⟩
  spared := nofun
  missed := nofun
  apart := List.nodup_nil

/-- One expert more: it goes to a slot that held nothing requested, and the slot stays its own. -/
theorem Placed.cons {layer : Nat} {requested : List Int} {before after : Table} {loads : List ExpertLoad}
    {slot : Slot} {expert : Int} (hrequested : expert ∈ requested) (hmissing : ¬ before.Holds expert)
    (hspared : ∀ resident, before[slot] = some resident → resident ∉ requested)
    (h : Placed layer requested (before.set slot (some expert)) after loads) (evicts : Option ExpertKey) :
    Placed layer requested before after
      (⟨⟨layer, expert.toNat⟩, ⟨slot, 0⟩, evicts⟩ :: loads) := by
  have hother : ∀ load ∈ loads, load.address.slot ≠ slot := by
    intro load hload hslot
    obtain ⟨target, htarget, hfree⟩ := h.spared load hload
    have heq : target = slot := Fin.ext (htarget.symm.trans hslot)
    subst heq
    exact hfree expert (by rw [Table.getElem_set, if_pos rfl]) hrequested
  refine ⟨h.valid, ?_, ?_, ?_, ?_, ?_⟩
  · intro resident hresident ⟨other, hbefore⟩
    refine h.retained resident hresident ⟨other, ?_⟩
    have hne : slot ≠ other := by
      rintro rfl
      exact hspared resident hbefore hresident
    rw [Table.getElem_set, if_neg hne, hbefore]
  · intro other resident hafter
    rcases h.explained hafter with ⟨hbefore, hfree⟩ | ⟨load, hload, hslot, hkey⟩
    · rw [Table.getElem_set] at hbefore
      split at hbefore
      · next heq =>
        subst heq
        cases hbefore
        exact .inr ⟨_, List.mem_cons_self, rfl, rfl⟩
      · next hne =>
        refine .inl ⟨hbefore, ?_⟩
        intro load hload
        rcases List.mem_cons.mp hload with rfl | hload
        · exact fun heq => hne (Fin.ext heq)
        · exact hfree load hload
    · exact .inr ⟨load, List.mem_cons_of_mem _ hload, hslot, hkey⟩
  · intro load hload
    rcases List.mem_cons.mp hload with rfl | hload
    · exact ⟨slot, rfl, hspared⟩
    · obtain ⟨target, htarget, hfree⟩ := h.spared load hload
      refine ⟨target, htarget, ?_⟩
      have hne : slot ≠ target := fun heq => hother load hload (by rw [htarget, heq])
      intro resident hresident
      exact hfree resident (by rw [Table.getElem_set, if_neg hne, hresident])
  · intro load hload
    rcases List.mem_cons.mp hload with rfl | hload
    · exact ⟨expert, hrequested, rfl, hmissing⟩
    · obtain ⟨missed, hmem, hkey, hnot⟩ := h.missed load hload
      refine ⟨missed, hmem, hkey, ?_⟩
      rintro ⟨other, hbefore⟩
      refine hnot ⟨other, ?_⟩
      have hne : slot ≠ other := by
        rintro rfl
        exact hspared missed hbefore hmem
      rw [Table.getElem_set, if_neg hne, hbefore]
  · rw [List.map_cons, List.nodup_cons]
    refine ⟨?_, h.apart⟩
    intro hmem
    obtain ⟨load, hload, hslot⟩ := List.mem_map.mp hmem
    exact hother load hload hslot

namespace LayerExpertSlots

/-- Experts with an identity are all placed: the loop has a slot for each of them. -/
theorem placeExperts_spec (layer : Nat) {requested : List Int}
    (hlength : requested.length = layerExpertSlots) (experts : List Int) :
    ∀ (slots : LayerExpertSlots), slots.slotExperts.Valid → (∀ expert ∈ experts, expert ∈ requested) →
      (∀ expert ∈ experts, 0 ≤ expert ∧ expert < 65536) →
      ∃ loads after, placeExperts layer requested experts slots = (.ok loads, after) ∧
        Placed layer requested slots.slotExperts after.slotExperts loads ∧
        (∀ expert ∈ experts, after.slotExperts.Holds expert) ∧ after.tick = slots.tick ∧
        loads.length ≤ experts.length := by
  induction experts with
  | nil => exact fun slots hvalid _ _ => ⟨[], slots, rfl, placed_nil hvalid, nofun, rfl, le_rfl⟩
  | cons expert rest ih =>
    intro slots hvalid hmem hfits
    obtain ⟨hrequested, hrest⟩ := List.forall_mem_cons.mp hmem
    obtain ⟨hexpert, hfitsRest⟩ := List.forall_mem_cons.mp hfits
    simp only [placeExperts, toU16_ok hexpert]
    by_cases hholds : slots.slotExperts.Holds expert
    · rw [if_pos (Table.contains_iff.mpr hholds)]
      obtain ⟨loads, after, heq, hplaced, hheld, htick, hcount⟩ := ih slots hvalid hrest hfitsRest
      refine ⟨loads, after, heq, hplaced, ?_, htick, hcount.trans (Nat.le_succ _)⟩
      exact List.forall_mem_cons.mpr ⟨hplaced.retained expert hrequested hholds, hheld⟩
    · rw [if_neg (fun h => hholds (Table.contains_iff.mp h))]
      obtain ⟨slot, hslot, hspared⟩ := chooseSlot_spec hvalid hlength hrequested hholds
      obtain ⟨evicts, hevicts⟩ := evictedKey_ok hvalid layer slot
      rw [hslot]
      simp only [hevicts]
      obtain ⟨loads, after, heq, hplaced, hheld, htick, hcount⟩ :=
        ih (slots.place slot expert) (hvalid.set hholds hexpert) hrest hfitsRest
      rw [heq]
      refine ⟨_, after, rfl, hplaced.cons hrequested hholds hspared evicts, ?_, htick,
        Nat.succ_le_succ hcount⟩
      refine List.forall_mem_cons.mpr ⟨hplaced.retained expert hrequested ⟨slot, ?_⟩, hheld⟩
      show (slots.slotExperts.set slot (some expert))[slot] = some expert
      rw [Table.getElem_set, if_pos rfl]

/-- The loop answers only for experts that all have an identity. -/
theorem fits_of_placeExperts {layer : Nat} {requested : List Int} (experts : List Int) :
    ∀ {slots : LayerExpertSlots} {loads : List ExpertLoad},
      (placeExperts layer requested experts slots).1 = .ok loads →
      ∀ expert ∈ experts, 0 ≤ expert ∧ expert < 65536 := by
  induction experts with
  | nil => nofun
  | cons expert rest ih =>
    intro slots loads h
    rw [placeExperts] at h
    cases hid : toU16 expert with
    | error e =>
      rw [hid] at h
      cases h
    | ok id =>
      rw [hid] at h
      refine List.forall_mem_cons.mpr ⟨(fits_of_toU16 hid).1, ?_⟩
      simp only at h
      split at h
      · exact ih h
      · split at h
        · cases h
        · split at h
          · cases h
          · next slot _ _ _ _ =>
            cases htail : (placeExperts layer requested rest (slots.place slot expert)).1 with
            | error e =>
              rw [htail] at h
              cases h
            | ok tail => exact ih htail

/-- Where every expert has a slot already, the loop writes nothing. -/
theorem placeExperts_of_held (layer : Nat) (requested : List Int) (experts : List Int)
    {slots : LayerExpertSlots} (h : ∀ expert ∈ experts, slots.slotExperts.Holds expert) :
    (placeExperts layer requested experts slots).2 = slots := by
  induction experts with
  | nil => rfl
  | cons expert rest ih =>
    obtain ⟨hexpert, hrest⟩ := List.forall_mem_cons.mp h
    rw [placeExperts]
    cases toU16 expert with
    | error e => rfl
    | ok id =>
      simp only [if_pos (Table.contains_iff.mpr hexpert)]
      exact ih hrest

/-! ## The whole plan -/

theorem mem_requestedExperts {logical : List Int} {expert : Int} :
    expert ∈ requestedExperts logical ↔ expert ∈ logical := by
  rw [requestedExperts, (List.perm_insertionSort _ _).mem_iff, List.mem_dedup]

theorem touchRouted_slotExperts (logical : List Int) :
    ∀ slots, (touchRouted logical slots).2.slotExperts = slots.slotExperts := by
  induction logical with
  | nil => exact fun _ => rfl
  | cons expert rest ih =>
    intro slots
    rw [touchRouted]
    cases slots.position (· == some expert) with
    | none => rfl
    | some slot => exact ih _

/-- The physical slot answered for an expert is the one the table has it in. -/
def Routes (table : Table) (expert : Int) (physical : Nat) : Prop :=
  ∃ slot : Slot, slot.val = physical ∧ table[slot] = some expert

theorem touchRouted_ok (logical : List Int) :
    ∀ slots : LayerExpertSlots, (∀ expert ∈ logical, slots.slotExperts.Holds expert) →
      ∃ physical, (touchRouted logical slots).1 = .ok physical ∧
        List.Forall₂ (Routes slots.slotExperts) logical physical := by
  induction logical with
  | nil => exact fun _ _ => ⟨[], rfl, .nil⟩
  | cons expert rest ih =>
    intro slots hheld
    obtain ⟨⟨home, hhome⟩, hrest⟩ := List.forall_mem_cons.mp hheld
    rw [touchRouted]
    cases hposition : slots.position (· == some expert) with
    | none =>
      have hnot := List.find?_eq_none.mp hposition home (List.mem_finRange home)
      rw [hhome] at hnot
      exact absurd (beq_self_eq_true (some expert)) hnot
    | some slot =>
      have hslot : slots.slotExperts[slot] = some expert := by simpa using position_some hposition
      obtain ⟨physical, heq, hroutes⟩ :=
        ih { slots with lastUsed := slots.lastUsed.set slot slots.tick } hrest
      refine ⟨slot.val :: physical, ?_, .cons ⟨slot, rfl, hslot⟩ hroutes⟩
      simp only [heq]
      rfl

/-- What a plan that was answered says of the table before and after it. -/
structure Answered (layer : Nat) (logical : List Int) (before after : Table) (plan : LayerExpertPlan) :
    Prop where
  placed : Placed layer (requestedExperts logical) before after plan.loads
  routed : List.Forall₂ (Routes after) logical plan.physical
  count : plan.loads.length ≤ layerExpertSlots

theorem touchRouted_tick (logical : List Int) : ∀ slots, (touchRouted logical slots).2.tick = slots.tick := by
  induction logical with
  | nil => exact fun _ => rfl
  | cons expert rest ih =>
    intro slots
    rw [touchRouted]
    cases slots.position (· == some expert) with
    | none => rfl
    | some slot => exact ih _

/-- Once the loop has placed the routed experts, the plan is answered while the clock runs. -/
theorem plan_eq_ok {slots placed : LayerExpertSlots} {layer : Nat} {logical : List Int} {loads : List ExpertLoad}
    (hlength : (requestedExperts logical).length = layerExpertSlots) (hlayer : layer < 65536)
    (heq : placeExperts layer (requestedExperts logical) (requestedExperts logical) slots = (.ok loads, placed))
    (hheld : ∀ expert ∈ requestedExperts logical, placed.slotExperts.Holds expert)
    (htick : placed.tick + 1 < 2 ^ 64) :
    ∃ physical, slots.plan layer logical =
        (.ok { loads, physical }, (touchRouted logical { placed with tick := placed.tick + 1 }).2) ∧
      List.Forall₂ (Routes placed.slotExperts) logical physical := by
  have hclock : Word.checkedAdd 64 placed.tick 1 = some (placed.tick + 1) :=
    Word.checkedAdd_eq_some.mpr ⟨htick, rfl⟩
  obtain ⟨physical, hphysical, hroutes⟩ :=
    touchRouted_ok logical { placed with tick := placed.tick + 1 }
      (fun expert h => hheld expert (mem_requestedExperts.mpr h))
  refine ⟨physical, ?_, hroutes⟩
  simp only [plan, ne_eq, hlength, not_true_eq_false, if_false, if_neg (Nat.not_le.mpr hlayer), heq, hclock,
    hphysical]
  rfl

/-- A call whose experts all have an identity is answered while the clock runs. -/
theorem plan_answers {slots : LayerExpertSlots} (hvalid : slots.slotExperts.Valid) {layer : Nat}
    {logical : List Int} (hlength : (requestedExperts logical).length = layerExpertSlots)
    (hlayer : layer < 65536) (hfits : ∀ expert ∈ logical, 0 ≤ expert ∧ expert < 65536)
    (htick : slots.tick + 1 < 2 ^ 64) :
    ∃ plan, (slots.plan layer logical).1 = .ok plan ∧
      Answered layer logical slots.slotExperts (slots.plan layer logical).2.slotExperts plan := by
  obtain ⟨loads, placed, heq, hplaced, hheld, hsame, hcount⟩ :=
    placeExperts_spec layer hlength (requestedExperts logical)
      slots hvalid (fun _ h => h) (fun expert h => hfits expert (mem_requestedExperts.mp h))
  obtain ⟨physical, hplan, hroutes⟩ := plan_eq_ok hlength hlayer heq hheld (hsame ▸ htick)
  rw [hplan]
  refine ⟨_, rfl, ?_⟩
  simp only [touchRouted_slotExperts]
  exact ⟨hplaced, hroutes, hcount.trans hlength.le⟩

/-- What must have held for a plan to be answered. -/
theorem of_plan_ok {slots : LayerExpertSlots} {layer : Nat} {logical : List Int} {plan : LayerExpertPlan}
    (h : (slots.plan layer logical).1 = .ok plan) (hvalid : slots.slotExperts.Valid) :
    Answered layer logical slots.slotExperts (slots.plan layer logical).2.slotExperts plan := by
  have hunfolded := h
  rw [LayerExpertSlots.plan] at hunfolded
  split at hunfolded
  · cases hunfolded
  next hlength =>
  split at hunfolded
  · cases hunfolded
  next hlayer =>
  cases hplaced : placeExperts layer (requestedExperts logical) (requestedExperts logical) slots with
  | mk result placed =>
    rw [hplaced] at hunfolded
    cases result with
    | error e => cases hunfolded
    | ok loads =>
      have hfits := fits_of_placeExperts (requestedExperts logical) (congrArg Prod.fst hplaced)
      obtain ⟨_, placed', heq, -, -, hsame, -⟩ :=
        placeExperts_spec layer (not_not.mp hlength)
          (requestedExperts logical) slots hvalid (fun _ h => h) hfits
      have htick : slots.tick + 1 < 2 ^ 64 := by
        cases hclock : Word.checkedAdd 64 placed.tick 1 with
        | none =>
          simp only [hclock] at hunfolded
          cases hunfolded
        | some tick =>
          have hafter : placed = placed' := congrArg Prod.snd (hplaced.symm.trans heq)
          have hbound := (Word.checkedAdd_eq_some.mp hclock).1
          rwa [hafter, hsame] at hbound
      obtain ⟨plan', hplan', hanswered⟩ := plan_answers hvalid (not_not.mp hlength)
        (Nat.not_le.mp hlayer) (fun expert hexpert => hfits expert (mem_requestedExperts.mpr hexpert)) htick
      rw [h] at hplan'
      cases hplan'
      exact hanswered

/-- What `plan` refuses before it writes: not ten experts, a layer without a number, or an expert below
zero, which the ascending walk meets first. -/
def Refused (layer : Nat) (logical : List Int) : Prop :=
  (requestedExperts logical).length ≠ layerExpertSlots ∨ 65536 ≤ layer ∨ ∃ expert ∈ logical, expert < 0

theorem placeExperts_of_negative {layer : Nat} {logical requested : List Int} {slots : LayerExpertSlots}
    (h : ∃ expert ∈ logical, expert < 0) :
    placeExperts layer requested (requestedExperts logical) slots = (.error tryFromIntError, slots) := by
  obtain ⟨expert, hmem, hnegative⟩ := h
  have hsorted : (requestedExperts logical).Pairwise (· ≤ ·) := List.pairwise_insertionSort _ _
  cases hlist : requestedExperts logical with
  | nil =>
    rw [← mem_requestedExperts, hlist] at hmem
    cases hmem
  | cons first rest =>
    have hfirst : first < 0 := by
      rw [hlist, List.pairwise_cons] at hsorted
      rw [← mem_requestedExperts, hlist, List.mem_cons] at hmem
      rcases hmem with rfl | hmem
      · exact hnegative
      · exact lt_of_le_of_lt (hsorted.1 expert hmem) hnegative
    have hid : toU16 first = .error tryFromIntError := if_neg (fun h => absurd h.1 (not_le.mpr hfirst))
    rw [placeExperts, hid]

theorem plan_refused {layer : Nat} {logical : List Int}
    (h : Refused layer logical) (slots : LayerExpertSlots) : ∃ e, slots.plan layer logical = (.error e, slots) := by
  unfold LayerExpertSlots.plan
  by_cases hlength : (requestedExperts logical).length = layerExpertSlots
  case neg => exact ⟨_, if_pos hlength⟩
  rw [if_neg (not_not.mpr hlength)]
  by_cases hlayer : 65536 ≤ layer
  case pos => exact ⟨_, if_pos hlayer⟩
  have hnegative := (h.resolve_left (not_not.mpr hlength)).resolve_left hlayer
  rw [if_neg hlayer, placeExperts_of_negative hnegative]
  exact ⟨_, rfl⟩

/-- Where every expert is in its slot already, the table stays as it is. -/
theorem plan_of_held {slots : LayerExpertSlots} {layer : Nat} {logical : List Int}
    (h : ∀ expert ∈ logical, slots.slotExperts.Holds expert) :
    (slots.plan layer logical).2.slotExperts = slots.slotExperts := by
  have hsame := placeExperts_of_held layer (requestedExperts logical) (requestedExperts logical)
    fun expert hmem => h expert (mem_requestedExperts.mp hmem)
  simp only [LayerExpertSlots.plan]
  split
  · rfl
  split
  · rfl
  split
  · next heq =>
    rw [heq] at hsame
    rw [← hsame]
  · next heq =>
    rw [heq] at hsame
    split
    · rw [← hsame]
    · rw [touchRouted_slotExperts, ← hsame]

/-- The calls that never leave the table written and the loads unasked for: those refused, those that
find every expert in its slot, and those that are answered. -/
def Keeps (slots : LayerExpertSlots) (layer : Nat) (logical : List Int) : Prop :=
  Refused layer logical ∨ (∀ expert ∈ logical, slots.slotExperts.Holds expert) ∨
    (∀ expert ∈ logical, expert < 65536) ∧ slots.tick + 1 < 2 ^ 64

theorem plan_keeps {slots : LayerExpertSlots} (hvalid : slots.slotExperts.Valid) {layer : Nat}
    {logical : List Int} (h : slots.Keeps layer logical) {e : String}
    (herror : (slots.plan layer logical).1 = .error e) :
    (slots.plan layer logical).2.slotExperts = slots.slotExperts := by
  by_cases hrefused : Refused layer logical
  · obtain ⟨_, heq⟩ := plan_refused hrefused slots
    rw [heq]
  · rcases h.resolve_left hrefused with hheld | ⟨hbelow, htick⟩
    · exact plan_of_held hheld
    · rw [Refused, not_or, not_or] at hrefused
      obtain ⟨hlength, hlayer, hnegative⟩ := hrefused
      push Not at hnegative
      obtain ⟨plan, hplan, -⟩ := plan_answers hvalid (not_not.mp hlength) (Nat.not_le.mp hlayer)
        (fun expert hmem => ⟨hnegative expert hmem, hbelow expert hmem⟩) htick
      rw [herror] at hplan
      cases hplan

end LayerExpertSlots

end Spark.Experts
