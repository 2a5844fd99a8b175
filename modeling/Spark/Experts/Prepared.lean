import Mathlib.Data.List.MinMax
import Spark.Fabric.ExpertCache
import Spark.Lib.Traverse

/-!
# The prepared expert cache

`QwenPreparedExpertCache` of `qwen_expert_cache.rs`. `ensure_keys` resolves a list of experts to slots
of one range of the cache: it plans hits and fills first, lets the loader write the fill slots, and
then publishes the fills, or empties their slots when the loader failed on the way.

* **`planFills_spec`** — what a plan says of the cache it was made from (`Planned`).
* **`publishFills_spec`**, **`dropFills_spec`** — the two ways a plan ends.
-/

namespace Spark.Experts

open Fabric SlotMap

/-- `QwenExpertCacheError`, as far as the prepared cache raises it. -/
inductive PreparedError where
  | invalidPreparedCapacity (capacity : Nat)
  | invalidLayerCache (layer slotsPerLayer capacity : Nat)
  | preparedCapacity (requested capacity : Nat)
  | invalidPreparedRange (firstSlot slotCount capacity : Nat)
  | duplicateExpert (key : ExpertKey)
  | residentOutsideRange (key : ExpertKey) (slot firstSlot slotCount : Nat)
  | noPreparedVictim
  | integerOverflow
  | loader
  deriving DecidableEq, Repr

structure PreparedCache where
  capacity : Nat
  residents : ExpertKey → Option Nat
  slotKeys : Nat → Option ExpertKey
  lastUsed : Nat → Nat
  tick : Nat
  hits : Nat
  misses : Nat
  evictions : Nat

/-- An entry of `fills`: the expert, its slot and who is in it. -/
structure Fill where
  key : ExpertKey
  slot : Nat
  evicted : Option ExpertKey
  deriving DecidableEq, Repr

/-- What the planning loop carries. `reserved` of the source is the set of the slots resolved so far. -/
structure FillPlan where
  tick : Nat
  resolved : List Nat := []
  fills : List Fill := []
  usage : List (Nat × Nat) := []
  hits : Nat := 0
  evictions : Nat := 0
  deriving DecidableEq, Repr

/-- The end of the loop body: the slot is reserved, marked as used and answered. -/
def FillPlan.resolve (plan : FillPlan) (tick slot : Nat) : FillPlan :=
  { plan with tick, resolved := plan.resolved ++ [slot], usage := plan.usage ++ [(slot, tick)] }

namespace PreparedCache

def create (capacity : Nat) : Except PreparedError PreparedCache :=
  if capacity = 0 then .error (.invalidPreparedCapacity capacity)
  else .ok
    { capacity, residents := fun _ => none, slotKeys := fun _ => none, lastUsed := fun _ => 0
      tick := 0, hits := 0, misses := 0, evictions := 0 }

/-! ## Planning -/

/-- `is_none_or(|resident| !requested.contains(&resident))`. -/
def unrequested (requested : List ExpertKey) : Option ExpertKey → Bool
  | some resident => !requested.contains resident
  | none => true

def vacantSlot (cache : PreparedCache) (reserved : List Nat) (firstSlot slotCount : Nat) : Option Nat :=
  (List.range' firstSlot slotCount).find? fun slot =>
    (cache.slotKeys slot).isNone && !reserved.contains slot

/-- `min_by_key(|slot| self.last_used[*slot])` over the slots that may be taken. -/
def victimSlot (cache : PreparedCache) (requested : List ExpertKey) (reserved : List Nat)
    (firstSlot slotCount : Nat) : Option Nat :=
  ((List.range' firstSlot slotCount).filter fun slot =>
    !reserved.contains slot && unrequested requested (cache.slotKeys slot)).argmin cache.lastUsed

def chooseSlot (cache : PreparedCache) (requested : List ExpertKey) (reserved : List Nat)
    (firstSlot slotCount : Nat) : Option Nat :=
  (cache.vacantSlot reserved firstSlot slotCount).or
    (cache.victimSlot requested reserved firstSlot slotCount)

/-- One round of the planning loop. -/
def planKey (cache : PreparedCache) (requested : List ExpertKey) (firstSlot slotCount : Nat)
    (plan : FillPlan) (key : ExpertKey) : Except PreparedError FillPlan :=
  match Word.checkedAdd 64 plan.tick 1 with
  | none => .error .integerOverflow
  | some tick =>
    match cache.residents key with
    | some slot =>
      if slot < firstSlot ∨ firstSlot + slotCount ≤ slot then
        .error (.residentOutsideRange key slot firstSlot slotCount)
      else .ok ({ plan with hits := plan.hits + 1 }.resolve tick slot)
    | none =>
      match cache.chooseSlot requested plan.resolved firstSlot slotCount with
      | none => .error .noPreparedVictim
      | some slot =>
        let evicted := cache.slotKeys slot
        let evictions := if evicted.isSome then plan.evictions + 1 else plan.evictions
        .ok ({ plan with fills := plan.fills ++ [Fill.mk key slot evicted], evictions }.resolve tick slot)

def planKeys (cache : PreparedCache) (requested : List ExpertKey) (firstSlot slotCount : Nat) :
    List ExpertKey → FillPlan → Except PreparedError FillPlan
  | [], plan => .ok plan
  | key :: rest, plan =>
    match cache.planKey requested firstSlot slotCount plan key with
    | .error e => .error e
    | .ok plan => planKeys cache requested firstSlot slotCount rest plan

/-- The first key that `requested.insert` finds in the set. -/
def firstDuplicate : List ExpertKey → List ExpertKey → Option ExpertKey
  | _, [] => none
  | seen, key :: rest => if key ∈ seen then some key else firstDuplicate (key :: seen) rest

/-- `ensure_keys` up to the loader. -/
def planFills (cache : PreparedCache) (keys : List ExpertKey) (firstSlot slotCount : Nat) :
    Except PreparedError FillPlan :=
  if slotCount < keys.length then .error (.preparedCapacity keys.length slotCount)
  else
    match Word.checkedAdd 32 firstSlot slotCount with
    | none => .error .integerOverflow
    | some endSlot =>
      if slotCount = 0 ∨ cache.capacity < endSlot then
        .error (.invalidPreparedRange firstSlot slotCount cache.capacity)
      else
        match firstDuplicate [] keys with
        | some key => .error (.duplicateExpert key)
        | none => cache.planKeys keys firstSlot slotCount keys { tick := cache.tick }

/-! ## Ending a plan -/

/-- After a failed fill: whoever was in the slot is dropped. -/
def dropFill (cache : PreparedCache) (fill : Fill) : PreparedCache :=
  { cache with
    slotKeys := Function.update cache.slotKeys fill.slot none
    residents :=
      match cache.slotKeys fill.slot with
      | some old => Function.update cache.residents old none
      | none => cache.residents
    lastUsed := Function.update cache.lastUsed fill.slot 0 }

def publishFill (cache : PreparedCache) (fill : Fill) : PreparedCache :=
  let residents :=
    match fill.evicted with
    | some evicted => Function.update cache.residents evicted none
    | none => cache.residents
  { cache with
    slotKeys := Function.update cache.slotKeys fill.slot (some fill.key)
    residents := Function.update residents fill.key (some fill.slot) }

def touch (lastUsed : Nat → Nat) (usage : List (Nat × Nat)) : Nat → Nat :=
  usage.foldl (fun lastUsed use => Function.update lastUsed use.1 use.2) lastUsed

/-- The counters, which may overflow after everything else is published. -/
def countCall (cache : PreparedCache) (plan : FillPlan) : Except PreparedError (List Nat) × PreparedCache :=
  match Word.checkedAdd 64 cache.hits plan.hits with
  | none => (.error .integerOverflow, cache)
  | some hits =>
    match Word.checkedAdd 64 cache.misses plan.fills.length with
    | none => (.error .integerOverflow, { cache with hits })
    | some misses =>
      match Word.checkedAdd 64 cache.evictions plan.evictions with
      | none => (.error .integerOverflow, { cache with hits, misses })
      | some evictions => (.ok plan.resolved, { cache with hits, misses, evictions })

def publish (cache : PreparedCache) (plan : FillPlan) : PreparedCache :=
  let published := plan.fills.foldl publishFill cache
  { published with lastUsed := touch published.lastUsed plan.usage, tick := plan.tick }

end PreparedCache

/-! ## The loader -/

/-- What the loader does with the fills of one call. -/
inductive LoaderRun (β : Type) where
  /-- `prefetch_experts` or the mapping of the storage fails: nothing is written. -/
  | refuses
  /-- A load fails; this is then in the fill slots, whatever part of it was written. -/
  | fails (left : Nat → β)
  | loads

variable {β : Type} (packed : ExpertKey → β)

def loadFills (bank : Nat → β) (fills : List Fill) : Nat → β :=
  fills.foldl (fun bank fill => Function.update bank fill.slot (packed fill.key)) bank

def scribble (bank left : Nat → β) (fills : List Fill) : Nat → β := fun slot =>
  if slot ∈ fills.map (·.slot) then left slot else bank slot

structure EnsureCall (β : Type) where
  keys : List ExpertKey
  firstSlot : Nat
  slotCount : Nat
  loader : LoaderRun β

/-- The cache and the bytes of its slots. -/
structure Tier (β : Type) where
  cache : PreparedCache
  bank : Nat → β

/-- `QwenPreparedExpertCache::ensure_keys`. -/
def ensureKeys (tier : Tier β) (call : EnsureCall β) : Except PreparedError (List Nat) × Tier β :=
  match tier.cache.planFills call.keys call.firstSlot call.slotCount with
  | .error e => (.error e, tier)
  | .ok plan =>
    match call.loader with
    | .refuses => (.error .loader, tier)
    | .fails left =>
      (.error .loader,
        { cache := plan.fills.foldl .dropFill tier.cache, bank := scribble tier.bank left plan.fills })
    | .loads =>
      let counted := (tier.cache.publish plan).countCall plan
      (counted.1, { cache := counted.2, bank := loadFills packed tier.bank plan.fills })

/-! ## Recency -/

/-- When `slot` was used last, counting the uses from one; zero for a slot never used. -/
def lastUse (uses : List Nat) (slot : Nat) : Nat := uses.length - uses.reverse.idxOf slot

theorem lastUse_concat (uses : List Nat) (used slot : Nat) :
    lastUse (uses ++ [used]) slot = if slot = used then uses.length + 1 else lastUse uses slot := by
  unfold lastUse
  rw [List.reverse_concat, List.idxOf_cons, List.length_append, List.length_singleton]
  by_cases h : slot = used
  · subst h
    simp
  · have hne : (used == slot) = false := beq_false_of_ne (Ne.symm h)
    rw [if_neg h, hne]
    simp

namespace PreparedCache

/-! ## Choosing a slot -/

/-- A slot of the range that no earlier key of the call has and that holds no requested expert. -/
structure Takeable (cache : PreparedCache) (requested : List ExpertKey) (reserved : List Nat)
    (firstSlot slotCount slot : Nat) : Prop where
  range : firstSlot ≤ slot ∧ slot < firstSlot + slotCount
  fresh : slot ∉ reserved
  unwanted : ∀ resident, cache.slotKeys slot = some resident → resident ∉ requested

theorem takeable_of_filter {cache : PreparedCache} {requested : List ExpertKey} {reserved : List Nat}
    {firstSlot slotCount slot : Nat} :
    slot ∈ (List.range' firstSlot slotCount).filter (fun slot =>
        !reserved.contains slot && unrequested requested (cache.slotKeys slot)) ↔
      cache.Takeable requested reserved firstSlot slotCount slot := by
  rw [List.mem_filter, List.mem_range'_1, Bool.and_eq_true]
  have hfresh : (!reserved.contains slot) = true ↔ slot ∉ reserved := by simp
  have hunwanted : unrequested requested (cache.slotKeys slot) = true ↔
      ∀ resident, cache.slotKeys slot = some resident → resident ∉ requested := by
    cases cache.slotKeys slot <;> simp [unrequested]
  rw [hfresh, hunwanted]
  exact ⟨fun h => ⟨h.1, h.2.1, h.2.2⟩, fun h => ⟨h.range, h.fresh, h.unwanted⟩⟩

/-- The slot chosen may be taken; where it holds somebody, nobody else that may be dropped was used
less recently, and no slot that may be taken is vacant. -/
theorem chooseSlot_spec {cache : PreparedCache} {requested : List ExpertKey} {reserved : List Nat}
    {firstSlot slotCount slot : Nat}
    (h : cache.chooseSlot requested reserved firstSlot slotCount = some slot) :
    cache.Takeable requested reserved firstSlot slotCount slot ∧
      ((cache.slotKeys slot).isSome → ∀ other, cache.Takeable requested reserved firstSlot slotCount other →
        (cache.slotKeys other).isSome ∧ cache.lastUsed slot ≤ cache.lastUsed other) := by
  unfold chooseSlot at h
  cases hvacant : cache.vacantSlot reserved firstSlot slotCount with
  | some vacant =>
    rw [hvacant] at h
    obtain rfl : vacant = slot := Option.some.inj h
    have hmem := List.mem_of_find?_eq_some hvacant
    have hfound := List.find?_some hvacant
    simp only [Bool.and_eq_true, Option.isNone_iff_eq_none, Bool.not_eq_true',
      List.contains_eq_mem, decide_eq_false_iff_not] at hfound
    refine ⟨⟨List.mem_range'_1.mp hmem, hfound.2, ?_⟩, ?_⟩
    · simp [hfound.1]
    · simp [hfound.1]
  | none =>
    rw [hvacant] at h
    have hvictim : cache.victimSlot requested reserved firstSlot slotCount = some slot := h
    refine ⟨takeable_of_filter.mp (List.argmin_mem hvictim), ?_⟩
    intro _ other hother
    constructor
    · have hnot := List.find?_eq_none.mp hvacant other (List.mem_range'_1.mpr hother.range)
      have hfresh := hother.fresh
      cases hkey : cache.slotKeys other with
      | some _ => rfl
      | none => simp [hkey, hfresh] at hnot
    · exact List.le_of_mem_argmin (takeable_of_filter.mpr hother) hvictim

theorem chooseSlot_ne_none {cache : PreparedCache} {requested : List ExpertKey} {reserved : List Nat}
    {firstSlot slotCount slot : Nat} (h : cache.Takeable requested reserved firstSlot slotCount slot) :
    ∃ chosen, cache.chooseSlot requested reserved firstSlot slotCount = some chosen := by
  unfold chooseSlot
  cases cache.vacantSlot reserved firstSlot slotCount with
  | some vacant => exact ⟨vacant, rfl⟩
  | none =>
    cases hvictim : cache.victimSlot requested reserved firstSlot slotCount with
    | some victim => exact ⟨victim, rfl⟩
    | none =>
      have hmem := takeable_of_filter.mpr h
      rw [List.argmin_eq_none.mp hvictim] at hmem
      cases hmem

/-! ## What a plan says -/

/-- A key of the call and the slot it is resolved to: the one it is in, or the one it is to be loaded
into. -/
def Resolves (cache : PreparedCache) (fills : List Fill) (key : ExpertKey) (slot : Nat) : Prop :=
  cache.residents key = some slot ∨ ∃ fill ∈ fills, fill.key = key ∧ fill.slot = slot

/-- What one fill says of the cache. -/
structure Fillable (cache : PreparedCache) (requested : List ExpertKey) (fill : Fill) : Prop where
  absent : cache.residents fill.key = none
  occupant : cache.slotKeys fill.slot = fill.evicted
  unwanted : ∀ old, fill.evicted = some old → old ∉ requested

/-- A victim, and the fills planned before it: nobody in the range was used less recently, apart from
those who are requested and those whose slot is taken already. -/
def LeastRecent (cache : PreparedCache) (requested : List ExpertKey) (firstSlot slotCount : Nat)
    (fills : List Fill) : Prop :=
  ∀ earlier fill later, fills = earlier ++ fill :: later → fill.evicted.isSome →
    ∀ slot, firstSlot ≤ slot → slot < firstSlot + slotCount → slot ∉ earlier.map (·.slot) →
      (∀ resident, cache.slotKeys slot = some resident → resident ∉ requested) →
      (cache.slotKeys slot).isSome ∧ cache.lastUsed fill.slot ≤ cache.lastUsed slot

/-- The planning loop after the keys `done`. -/
structure Planned (cache : PreparedCache) (requested : List ExpertKey) (firstSlot slotCount : Nat)
    (done : List ExpertKey) (plan : FillPlan) : Prop where
  resolved : List.Forall₂ (cache.Resolves plan.fills) done plan.resolved
  range : ∀ slot ∈ plan.resolved, firstSlot ≤ slot ∧ slot < firstSlot + slotCount
  apart : plan.resolved.Nodup
  fillable : ∀ fill ∈ plan.fills, cache.Fillable requested fill
  taken : ∀ fill ∈ plan.fills, fill.slot ∈ plan.resolved ∧ fill.key ∈ done
  slots : (plan.fills.map (·.slot)).Nodup
  keys : (plan.fills.map (·.key)).Nodup
  victims : cache.LeastRecent requested firstSlot slotCount plan.fills
  clock : plan.tick = cache.tick + plan.resolved.length
  touched : ∀ (lastUsed : Nat → Nat) (uses : List Nat), uses.length = cache.tick → ∀ slot,
    touch lastUsed plan.usage slot =
      if slot ∈ plan.resolved then lastUse (uses ++ plan.resolved) slot else lastUsed slot

variable {cache : PreparedCache} {requested done : List ExpertKey} {firstSlot slotCount : Nat}
  {plan : FillPlan}

theorem planned_nil (cache : PreparedCache) (requested : List ExpertKey) (firstSlot slotCount : Nat) :
    cache.Planned requested firstSlot slotCount [] { tick := cache.tick } where
  resolved := .nil
  range := nofun
  apart := .nil
  fillable := nofun
  taken := nofun
  slots := .nil
  keys := .nil
  victims := by
    intro earlier fill later h
    exact absurd h.symm (by simp)
  clock := rfl
  touched := fun _ _ _ _ => rfl

theorem LeastRecent.concat {fills : List Fill} {last : Fill}
    (h : cache.LeastRecent requested firstSlot slotCount fills)
    (hlast : last.evicted.isSome → ∀ slot, firstSlot ≤ slot → slot < firstSlot + slotCount →
      slot ∉ fills.map (·.slot) → (∀ resident, cache.slotKeys slot = some resident → resident ∉ requested) →
      (cache.slotKeys slot).isSome ∧ cache.lastUsed last.slot ≤ cache.lastUsed slot) :
    cache.LeastRecent requested firstSlot slotCount (fills ++ [last]) := by
  intro earlier fill later hsplit
  rcases List.eq_nil_or_concat later with rfl | ⟨rest, final, rfl⟩
  · obtain ⟨rfl, heq⟩ := List.append_inj' hsplit rfl
    cases heq
    exact hlast
  · rw [List.concat_eq_append, ← List.cons_append, ← List.append_assoc] at hsplit
    exact h earlier fill rest (List.append_inj' hsplit rfl).1

/-- The clock and the marks of the slots go on with each slot that is resolved. -/
theorem Planned.mark (h : cache.Planned requested firstSlot slotCount done plan) (slot : Nat)
    (lastUsed : Nat → Nat) (uses : List Nat) (huses : uses.length = cache.tick) (other : Nat) :
    touch lastUsed (plan.usage ++ [(slot, plan.tick + 1)]) other =
      if other ∈ plan.resolved ++ [slot] then lastUse (uses ++ (plan.resolved ++ [slot])) other
      else lastUsed other := by
  have hsplit : touch lastUsed (plan.usage ++ [(slot, plan.tick + 1)]) =
      Function.update (touch lastUsed plan.usage) slot (plan.tick + 1) := by
    simp only [touch, List.foldl_append, List.foldl_cons, List.foldl_nil]
  rw [hsplit, ← List.append_assoc, lastUse_concat]
  by_cases heq : other = slot
  · subst heq
    rw [Function.update_self, if_pos (by simp), if_pos rfl, List.length_append, huses, h.clock]
  · rw [Function.update_of_ne heq, h.touched lastUsed uses huses, if_neg heq]
    simp [heq]

/-- A key that is in its slot. -/
theorem Planned.hit (h : cache.Planned requested firstSlot slotCount done plan)
    (hinverse : Inverse cache.slotKeys cache.residents) {key : ExpertKey} {slot : Nat}
    (hfresh : key ∉ done) (hrequested : key ∈ requested) (hslot : cache.residents key = some slot)
    (hrange : firstSlot ≤ slot ∧ slot < firstSlot + slotCount) :
    cache.Planned requested firstSlot slotCount (done ++ [key])
      ({ plan with hits := plan.hits + 1 }.resolve (plan.tick + 1) slot) := by
  have hkey := (hinverse key slot).mp hslot
  have hnew : slot ∉ plan.resolved := by
    intro hmem
    obtain ⟨other, hother, hresident | ⟨fill, hfill, -, hat⟩⟩ := Traverse.forall₂_exists_left h.resolved hmem
    · exact hfresh (hinverse.slot_inj hslot hresident ▸ hother)
    · have hfillable := h.fillable fill hfill
      have hevicted : fill.evicted = some key := by rw [← hfillable.occupant, hat, hkey]
      exact hfillable.unwanted key hevicted hrequested
  exact
    { resolved := List.rel_append h.resolved (.cons (.inl hslot) .nil)
      range := List.forall_mem_append.mpr ⟨h.range, List.forall_mem_singleton.mpr hrange⟩
      apart := List.nodup_append_comm.mp (List.nodup_cons.mpr ⟨hnew, h.apart⟩)
      fillable := h.fillable
      taken := fun fill hfill =>
        ⟨List.mem_append_left _ (h.taken fill hfill).1, List.mem_append_left _ (h.taken fill hfill).2⟩
      slots := h.slots
      keys := h.keys
      victims := h.victims
      clock := by
        show plan.tick + 1 = cache.tick + (plan.resolved ++ [slot]).length
        rw [h.clock, List.length_append, List.length_singleton, Nat.add_assoc]
      touched := h.mark slot }

/-- A key that is not, and the slot chosen for it. -/
theorem Planned.miss (h : cache.Planned requested firstSlot slotCount done plan)
    (hinverse : Inverse cache.slotKeys cache.residents) (hdone : ∀ key ∈ done, key ∈ requested)
    {key : ExpertKey} {slot : Nat} (hfresh : key ∉ done) (habsent : cache.residents key = none)
    (hslot : cache.chooseSlot requested plan.resolved firstSlot slotCount = some slot) (evictions : Nat) :
    cache.Planned requested firstSlot slotCount (done ++ [key])
      ({ plan with
          fills := plan.fills ++ [Fill.mk key slot (cache.slotKeys slot)], evictions }.resolve
        (plan.tick + 1) slot) := by
  obtain ⟨htakeable, hleast⟩ := chooseSlot_spec hslot
  have hslotFresh : slot ∉ plan.fills.map (·.slot) := by
    intro hmem
    obtain ⟨fill, hfill, heq⟩ := List.mem_map.mp hmem
    exact htakeable.fresh (heq ▸ (h.taken fill hfill).1)
  have hkeyFresh : key ∉ plan.fills.map (·.key) := by
    intro hmem
    obtain ⟨fill, hfill, heq⟩ := List.mem_map.mp hmem
    exact hfresh (heq ▸ (h.taken fill hfill).2)
  have hnew : cache.Resolves (plan.fills ++ [Fill.mk key slot (cache.slotKeys slot)]) key slot :=
    .inr ⟨_, List.mem_append_right _ (List.mem_singleton.mpr rfl), rfl, rfl⟩
  have hresolved := h.resolved.imp fun other place hplace =>
    show cache.Resolves (plan.fills ++ [Fill.mk key slot (cache.slotKeys slot)]) other place from
      hplace.imp_right fun ⟨fill, hfill, heq⟩ => ⟨fill, List.mem_append_left _ hfill, heq⟩
  exact
    { resolved := List.rel_append hresolved (.cons hnew .nil)
      range := List.forall_mem_append.mpr ⟨h.range, List.forall_mem_singleton.mpr htakeable.range⟩
      apart := List.nodup_append_comm.mp (List.nodup_cons.mpr ⟨htakeable.fresh, h.apart⟩)
      fillable := List.forall_mem_append.mpr
        ⟨h.fillable, List.forall_mem_singleton.mpr ⟨habsent, rfl, htakeable.unwanted⟩⟩
      taken := by
        intro fill hfill
        rcases List.mem_append.mp hfill with hfill | hfill
        · exact ⟨List.mem_append_left _ (h.taken fill hfill).1,
            List.mem_append_left _ (h.taken fill hfill).2⟩
        · rw [List.mem_singleton.mp hfill]
          exact ⟨List.mem_append_right _ (List.mem_singleton.mpr rfl),
            List.mem_append_right _ (List.mem_singleton.mpr rfl)⟩
      slots := by
        show ((plan.fills ++ [Fill.mk key slot _]).map (·.slot)).Nodup
        rw [List.map_append]
        exact List.nodup_append_comm.mp (List.nodup_cons.mpr ⟨hslotFresh, h.slots⟩)
      keys := by
        show ((plan.fills ++ [Fill.mk key slot _]).map (·.key)).Nodup
        rw [List.map_append]
        exact List.nodup_append_comm.mp (List.nodup_cons.mpr ⟨hkeyFresh, h.keys⟩)
      victims := by
        refine h.victims.concat ?_
        intro hevicted other hlow hhigh hearlier hunwanted
        refine hleast hevicted other ⟨⟨hlow, hhigh⟩, ?_, hunwanted⟩
        intro hmem
        obtain ⟨owner, howner, hresident | ⟨fill, hfill, -, hat⟩⟩ :=
          Traverse.forall₂_exists_left h.resolved hmem
        · exact hunwanted owner ((hinverse owner other).mp hresident) (hdone owner howner)
        · exact hearlier (List.mem_map.mpr ⟨fill, hfill, hat⟩)
      clock := by
        show plan.tick + 1 = cache.tick + (plan.resolved ++ [slot]).length
        rw [h.clock, List.length_append, List.length_singleton, Nat.add_assoc]
      touched := h.mark slot }

/-- Each key has one place: the slot it is in, or the slot it is loaded into. -/
theorem Planned.resolves_unique (h : cache.Planned requested firstSlot slotCount done plan)
    {key : ExpertKey} {slot other : Nat} (hslot : cache.Resolves plan.fills key slot)
    (hother : cache.Resolves plan.fills key other) : slot = other := by
  rcases hslot with hslot | ⟨fill, hfill, hkey, rfl⟩ <;> rcases hother with hother | ⟨fill', hfill', hkey', rfl⟩
  · exact Option.some.inj (hslot.symm.trans hother)
  · rw [← hkey', (h.fillable fill' hfill').absent] at hslot
    cases hslot
  · rw [← hkey, (h.fillable fill hfill).absent] at hother
    cases hother
  · rw [List.inj_on_of_nodup_map h.keys hfill hfill' (hkey.trans hkey'.symm)]

/-- While the keys are no more than the slots, there is a slot for one more. -/
theorem Planned.takeable (h : cache.Planned requested firstSlot slotCount done plan)
    (hinverse : Inverse cache.slotKeys cache.residents) (hdone : ∀ key ∈ done, key ∈ requested)
    (hlength : requested.length ≤ slotCount) {key : ExpertKey} (hfresh : key ∉ done)
    (hrequested : key ∈ requested) (habsent : cache.residents key = none) :
    ∃ slot, cache.Takeable requested plan.resolved firstSlot slotCount slot := by
  have hslots : (List.range' firstSlot slotCount).Nodup := List.nodup_range'
  have hcount : requested.length ≤ (List.range' firstSlot slotCount).length := by
    rw [List.length_range']
    exact hlength
  have hunplaced : ∀ slot, ¬ cache.Resolves plan.fills key slot := by
    rintro slot (hresident | ⟨fill, hfill, hkey, -⟩)
    · rw [habsent] at hresident
      cases hresident
    · exact hfresh (hkey ▸ (h.taken fill hfill).2)
  obtain ⟨slot, hrange, hfree⟩ := exists_unclaimed (fun slot key => cache.Resolves plan.fills key slot)
    hslots hcount h.resolves_unique hrequested hunplaced
  refine ⟨slot, List.mem_range'_1.mp hrange, ?_, ?_⟩
  · intro hmem
    obtain ⟨owner, howner, hresolves⟩ := Traverse.forall₂_exists_left h.resolved hmem
    exact hfree owner (hdone owner howner) hresolves
  · intro resident hresident hmem
    exact hfree resident hmem (.inl ((hinverse resident slot).mpr hresident))

/-- One round of the loop: it goes on as planned, or stops for the clock or for a key of another
range. -/
theorem planKey_spec (h : cache.Planned requested firstSlot slotCount done plan)
    (hinverse : Inverse cache.slotKeys cache.residents) (hdone : ∀ key ∈ done, key ∈ requested)
    (hlength : requested.length ≤ slotCount) {key : ExpertKey} (hfresh : key ∉ done)
    (hrequested : key ∈ requested) :
    (∃ next, cache.planKey requested firstSlot slotCount plan key = .ok next ∧
        cache.Planned requested firstSlot slotCount (done ++ [key]) next) ∨
      ∃ e, cache.planKey requested firstSlot slotCount plan key = .error e ∧ e ≠ .noPreparedVictim := by
  unfold planKey
  cases hclock : Word.checkedAdd 64 plan.tick 1 with
  | none => exact .inr ⟨_, rfl, nofun⟩
  | some tick =>
    obtain rfl := (Word.checkedAdd_eq_some.mp hclock).2
    cases hresident : cache.residents key with
    | some slot =>
      by_cases hrange : slot < firstSlot ∨ firstSlot + slotCount ≤ slot
      · exact .inr ⟨_, if_pos hrange, nofun⟩
      · refine .inl ⟨_, if_neg hrange, h.hit hinverse hfresh hrequested hresident ?_⟩
        omega
    | none =>
      obtain ⟨_, htakeable⟩ := h.takeable hinverse hdone hlength hfresh hrequested hresident
      obtain ⟨slot, hslot⟩ := chooseSlot_ne_none htakeable
      rw [hslot]
      exact .inl ⟨_, rfl, h.miss hinverse hdone hfresh hresident hslot _⟩

theorem planKeys_spec (hinverse : Inverse cache.slotKeys cache.residents) (hnodup : requested.Nodup)
    (hlength : requested.length ≤ slotCount) (rest : List ExpertKey) :
    ∀ {done : List ExpertKey} {plan : FillPlan}, done ++ rest = requested →
      cache.Planned requested firstSlot slotCount done plan →
      (∃ final, cache.planKeys requested firstSlot slotCount rest plan = .ok final ∧
          cache.Planned requested firstSlot slotCount requested final) ∨
        ∃ e, cache.planKeys requested firstSlot slotCount rest plan = .error e ∧ e ≠ .noPreparedVictim := by
  induction rest with
  | nil =>
    intro done plan hsplit h
    rw [List.append_nil] at hsplit
    exact .inl ⟨plan, rfl, hsplit ▸ h⟩
  | cons key rest ih =>
    intro done plan hsplit h
    have hdone : ∀ other ∈ done, other ∈ requested := fun other hother =>
      hsplit ▸ List.mem_append_left _ hother
    have hrequested : key ∈ requested := hsplit ▸ List.mem_append_right _ List.mem_cons_self
    have hfresh : key ∉ done := fun hmem =>
      (List.nodup_append.mp (hsplit ▸ hnodup)).2.2 key hmem key List.mem_cons_self rfl
    rw [planKeys]
    rcases planKey_spec h hinverse hdone hlength hfresh hrequested with ⟨next, hnext, hplanned⟩ | ⟨e, he, hne⟩
    · rw [hnext]
      exact ih (by rw [List.append_assoc]; exact hsplit) hplanned
    · rw [he]
      exact .inr ⟨e, rfl, hne⟩

theorem nodup_of_firstDuplicate (keys : List ExpertKey) :
    ∀ {seen : List ExpertKey}, firstDuplicate seen keys = none →
      keys.Nodup ∧ ∀ key ∈ keys, key ∉ seen := by
  induction keys with
  | nil => exact fun _ => ⟨.nil, nofun⟩
  | cons key rest ih =>
    intro seen h
    rw [firstDuplicate] at h
    split at h
    · cases h
    · next hkey =>
      obtain ⟨hnodup, hseen⟩ := ih h
      refine ⟨List.nodup_cons.mpr ⟨fun hmem => hseen key hmem List.mem_cons_self, hnodup⟩, ?_⟩
      refine List.forall_mem_cons.mpr ⟨hkey, ?_⟩
      exact fun other hother hmem => hseen other hother (List.mem_cons_of_mem _ hmem)

/-- **What planning comes to.** A plan that fits the cache and a range within it, or an error that is
not the missing victim. -/
theorem planFills_spec (hinverse : Inverse cache.slotKeys cache.residents) (keys : List ExpertKey)
    (firstSlot slotCount : Nat) :
    (∃ plan, cache.planFills keys firstSlot slotCount = .ok plan ∧ keys.Nodup ∧
        firstSlot + slotCount ≤ cache.capacity ∧ cache.Planned keys firstSlot slotCount keys plan) ∨
      ∃ e, cache.planFills keys firstSlot slotCount = .error e ∧ e ≠ .noPreparedVictim := by
  unfold planFills
  by_cases hlength : slotCount < keys.length
  · exact .inr ⟨_, if_pos hlength, nofun⟩
  rw [if_neg hlength]
  cases hend : Word.checkedAdd 32 firstSlot slotCount with
  | none => exact .inr ⟨_, rfl, nofun⟩
  | some endSlot =>
    obtain rfl := (Word.checkedAdd_eq_some.mp hend).2
    by_cases hrange : slotCount = 0 ∨ cache.capacity < firstSlot + slotCount
    · exact .inr ⟨_, if_pos hrange, nofun⟩
    simp only [if_neg hrange]
    cases hduplicate : firstDuplicate [] keys with
    | some key => exact .inr ⟨_, rfl, nofun⟩
    | none =>
      have hnodup := (nodup_of_firstDuplicate keys hduplicate).1
      rcases planKeys_spec hinverse hnodup (Nat.not_lt.mp hlength) keys rfl
        (planned_nil cache keys firstSlot slotCount) with ⟨plan, hplan, hplanned⟩ | herror
      · exact .inl ⟨plan, hplan, hnodup, Nat.not_lt.mp fun h => hrange (.inr h), hplanned⟩
      · exact .inr herror

/-! ## The two ends -/

/-- Emptying a slot, whoever is in it. -/
theorem dropFill_inverse (h : Inverse cache.slotKeys cache.residents) (fill : Fill) :
    Inverse (cache.dropFill fill).slotKeys (cache.dropFill fill).residents := by
  unfold dropFill
  cases hkey : cache.slotKeys fill.slot with
  | some old => exact h.evict hkey
  | none =>
    have hsame : Function.update cache.slotKeys fill.slot none = cache.slotKeys := by
      rw [← hkey, Function.update_eq_self]
    simp only [hsame]
    exact h

/-- After a failed fill the slots of the fills are empty, and nothing else is touched. -/
theorem dropFills_spec (fills : List Fill) :
    ∀ {cache : PreparedCache}, Inverse cache.slotKeys cache.residents →
      Inverse (fills.foldl dropFill cache).slotKeys (fills.foldl dropFill cache).residents ∧
      (∀ slot, (fills.foldl dropFill cache).slotKeys slot =
        if slot ∈ fills.map (·.slot) then none else cache.slotKeys slot) ∧
      (∀ slot ∉ fills.map (·.slot), (fills.foldl dropFill cache).lastUsed slot = cache.lastUsed slot) ∧
      (fills.foldl dropFill cache).tick = cache.tick ∧
      (fills.foldl dropFill cache).capacity = cache.capacity := by
  induction fills with
  | nil =>
    intro cache h
    exact ⟨h, fun _ => by simp, fun _ _ => rfl, rfl, rfl⟩
  | cons fill rest ih =>
    intro cache h
    obtain ⟨hinverse, hkeys, hused, htick, hcapacity⟩ := ih (dropFill_inverse h fill)
    refine ⟨hinverse, ?_, ?_, htick, hcapacity⟩
    · intro slot
      rw [List.foldl_cons, hkeys]
      simp only [List.map_cons, List.mem_cons]
      by_cases hrest : slot ∈ rest.map (·.slot)
      · rw [if_pos hrest, if_pos (.inr hrest)]
      · rw [if_neg hrest]
        show Function.update cache.slotKeys fill.slot none slot = _
        by_cases heq : slot = fill.slot
        · rw [heq, Function.update_self, if_pos (.inl rfl)]
        · rw [Function.update_of_ne heq, if_neg (fun h => h.elim heq hrest)]
    · intro slot hslot
      simp only [List.map_cons, List.mem_cons, not_or] at hslot
      rw [List.foldl_cons, hused slot hslot.2]
      exact Function.update_of_ne hslot.1 _ _

theorem publishFill_inverse (h : Inverse cache.slotKeys cache.residents) {fill : Fill}
    (habsent : cache.residents fill.key = none) (hoccupant : cache.slotKeys fill.slot = fill.evicted) :
    Inverse (cache.publishFill fill).slotKeys (cache.publishFill fill).residents := by
  unfold publishFill
  cases hevicted : fill.evicted with
  | none =>
    rw [hevicted] at hoccupant
    exact h.insert hoccupant habsent
  | some old =>
    rw [hevicted] at hoccupant
    have hvacant := (h.evict hoccupant).insert (k := fill.key) (s := fill.slot) (Function.update_self ..) ?_
    · rwa [Function.update_idem] at hvacant
    · by_cases heq : fill.key = old
      · rw [heq, Function.update_self]
      · rw [Function.update_of_ne heq, habsent]

/-- After a good fill the slots of the fills hold their experts, and nothing else is touched. -/
theorem publishFills_spec (fills : List Fill) :
    ∀ {cache : PreparedCache}, Inverse cache.slotKeys cache.residents →
      (fills.map (·.slot)).Nodup → (fills.map (·.key)).Nodup →
      (∀ fill ∈ fills, cache.residents fill.key = none ∧ cache.slotKeys fill.slot = fill.evicted) →
      Inverse (fills.foldl publishFill cache).slotKeys (fills.foldl publishFill cache).residents ∧
      (∀ fill ∈ fills, (fills.foldl publishFill cache).slotKeys fill.slot = some fill.key) ∧
      (∀ slot ∉ fills.map (·.slot),
        (fills.foldl publishFill cache).slotKeys slot = cache.slotKeys slot) ∧
      (fills.foldl publishFill cache).lastUsed = cache.lastUsed ∧
      (fills.foldl publishFill cache).capacity = cache.capacity := by
  induction fills with
  | nil => exact fun h _ _ _ => ⟨h, nofun, fun _ _ => rfl, rfl, rfl⟩
  | cons fill rest ih =>
    intro cache h hslots hkeys hfills
    rw [List.map_cons, List.nodup_cons] at hslots hkeys
    obtain ⟨⟨habsent, hoccupant⟩, hrest⟩ := List.forall_mem_cons.mp hfills
    -- The fills still to come keep their slots and their keys out of the one published now.
    have hlater : ∀ other ∈ rest, (cache.publishFill fill).residents other.key = none ∧
        (cache.publishFill fill).slotKeys other.slot = other.evicted := by
      intro other hother
      have hkey : other.key ≠ fill.key := fun heq =>
        hkeys.1 (List.mem_map.mpr ⟨other, hother, heq⟩)
      have hslot : other.slot ≠ fill.slot := fun heq =>
        hslots.1 (List.mem_map.mpr ⟨other, hother, heq⟩)
      obtain ⟨hnone, hkept⟩ := hrest other hother
      constructor
      · show Function.update
          (match fill.evicted with
            | some evicted => Function.update cache.residents evicted none
            | none => cache.residents) fill.key (some fill.slot) other.key = none
        rw [Function.update_of_ne hkey]
        cases fill.evicted with
        | none => exact hnone
        | some old =>
          show Function.update cache.residents old none other.key = none
          by_cases heq : other.key = old
          · rw [heq, Function.update_self]
          · rw [Function.update_of_ne heq, hnone]
      · show Function.update cache.slotKeys fill.slot (some fill.key) other.slot = other.evicted
        rw [Function.update_of_ne hslot, hkept]
    obtain ⟨hinverse, hplaced, hkept, hused, hcapacity⟩ :=
      ih (publishFill_inverse h habsent hoccupant) hslots.2 hkeys.2 hlater
    refine ⟨hinverse, List.forall_mem_cons.mpr ⟨?_, hplaced⟩, ?_, hused, hcapacity⟩
    · rw [List.foldl_cons, hkept fill.slot hslots.1]
      exact Function.update_self ..
    · intro slot hslot
      rw [List.map_cons, List.mem_cons, not_or] at hslot
      rw [List.foldl_cons, hkept slot hslot.2]
      exact Function.update_of_ne hslot.1 _ _

end PreparedCache

section Loader

variable {packed}

theorem loadFills_of_not_mem (fills : List Fill) :
    ∀ {bank : Nat → β} {slot : Nat}, slot ∉ fills.map (·.slot) → loadFills packed bank fills slot = bank slot := by
  induction fills with
  | nil => exact fun _ => rfl
  | cons fill rest ih =>
    intro bank slot h
    rw [List.map_cons, List.mem_cons, not_or] at h
    show loadFills packed (Function.update bank fill.slot (packed fill.key)) rest slot = bank slot
    rw [ih h.2, Function.update_of_ne h.1]

theorem loadFills_of_mem (fills : List Fill) :
    ∀ {bank : Nat → β}, (fills.map (·.slot)).Nodup → ∀ fill ∈ fills,
      loadFills packed bank fills fill.slot = packed fill.key := by
  induction fills with
  | nil => nofun
  | cons first rest ih =>
    intro bank hslots
    rw [List.map_cons, List.nodup_cons] at hslots
    refine List.forall_mem_cons.mpr ⟨?_, ih hslots.2⟩
    show loadFills packed (Function.update bank first.slot (packed first.key)) rest first.slot = _
    rw [loadFills_of_not_mem rest hslots.1, Function.update_self]

end Loader

end Spark.Experts
