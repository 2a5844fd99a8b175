import Mathlib.Data.List.Dedup
import Mathlib.Data.List.MinMax
import Mathlib.Data.List.Sort
import Spark.Lib.SlotMap
import Spark.Lib.Traverse
import Spark.Lib.Word

/-!
# The fixed expert cache: two-phase residency plans

`FixedExpertCache` of `fabric.rs`. `prepare` chooses a slot for every requested expert
without touching the cache; the I/O layer then fills the chosen slots, and `commit` publishes
the plan. A plan carries the cache's identity and version, and `commit` refuses any other.

* **`prepare_spec`** — what a plan made from a cache says about that cache (`PlanFits`).
* **`commit_spec`** — committing a plan that still fits publishes every load and keeps slot
  table and location map mutually inverse; every other commit changes nothing.
-/

namespace Spark.Fabric

/-- `FabricError`, as far as the expert cache raises it. -/
inductive FabricError where
  | integerOverflow
  | invalidCache
  | stalePlan
  | workingSet (requested slots : Nat)
  deriving DecidableEq, Repr

structure ExpertKey where
  layer : Nat
  expert : Nat
  deriving DecidableEq, Repr

/-- The derived order of `ExpertKey`: by layer, then by expert. -/
def ExpertKey.le (a b : ExpertKey) : Prop :=
  a.layer < b.layer ∨ (a.layer = b.layer ∧ a.expert ≤ b.expert)

instance : DecidableRel ExpertKey.le := fun a b =>
  inferInstanceAs (Decidable (a.layer < b.layer ∨ (a.layer = b.layer ∧ a.expert ≤ b.expert)))

structure ExpertSlotAddress where
  slot : Nat
  byteOffset : Nat
  deriving DecidableEq, Repr

structure ExpertLoad where
  key : ExpertKey
  address : ExpertSlotAddress
  evicts : Option ExpertKey
  deriving DecidableEq, Repr

structure ExpertResidencyPlan where
  cacheId : Nat
  baseVersion : Nat
  step : Nat
  requestedUnique : List ExpertKey
  residentHits : Nat
  addresses : List ExpertSlotAddress
  loads : List ExpertLoad
  deriving DecidableEq, Repr

structure ExpertCacheStats where
  hits : Nat := 0
  misses : Nat := 0
  evictions : Nat := 0
  bytesLoaded : Nat := 0
  deriving DecidableEq, Repr

structure ExpertSlot where
  key : Option ExpertKey
  lastUsedStep : Nat
  deriving DecidableEq, Repr

structure FixedExpertCache where
  cacheId : Nat
  version : Nat
  slotBytes : Nat
  slots : List ExpertSlot
  locations : ExpertKey → Option Nat
  step : Nat
  stats : ExpertCacheStats

namespace FixedExpertCache

/-- `FixedExpertCache::new`, given the identity the global counter handed out. -/
def new (cacheId slotCount slotBytes : Nat) : Except FabricError FixedExpertCache :=
  if slotCount = 0 ∨ slotBytes = 0 then .error .invalidCache
  else if cacheId = 0 then .error .integerOverflow
  else .ok
    { cacheId, version := 0, slotBytes, slots := List.replicate slotCount ⟨none, 0⟩
      locations := fun _ => none, step := 0, stats := {} }

/-- `self.slots[slot]`. -/
def slotAt (cache : FixedExpertCache) (slot : Nat) : ExpertSlot :=
  cache.slots.getD slot ⟨none, 0⟩

def slotKey (cache : FixedExpertCache) (slot : Nat) : Option ExpertKey := (cache.slotAt slot).key

def address (cache : FixedExpertCache) (slotIndex : Nat) :
    Except FabricError ExpertSlotAddress :=
  match Word.checkedMul 64 cache.slotBytes slotIndex with
  | none => .error .integerOverflow
  | some byteOffset =>
    if slotIndex < 2 ^ 32 then .ok { slot := slotIndex, byteOffset }
    else .error .integerOverflow

/-- The requested keys as a `BTreeSet`: ascending, without repetition. -/
def requestedSet (requested : List ExpertKey) : List ExpertKey :=
  requested.dedup.insertionSort ExpertKey.le

/-! ## Planning -/

/-- The first vacant slot the plan has not reserved yet. -/
def vacantSlot (cache : FixedExpertCache) (reserved : List Nat) : Option Nat :=
  (List.range cache.slots.length).find? fun slot =>
    (cache.slotKey slot).isNone && !reserved.contains slot

/-- A slot the plan may evict: not reserved, and not holding a requested expert. -/
def evictable (cache : FixedExpertCache) (requested : List ExpertKey) (reserved : List Nat)
    (slot : Nat) : Bool :=
  !reserved.contains slot &&
    match cache.slotKey slot with
    | some resident => !requested.contains resident
    | none => true

/-- `min_by_key(|(index, slot)| (slot.last_used_step, *index))` over the evictable slots. -/
def leastRecentSlot (cache : FixedExpertCache) (requested : List ExpertKey)
    (reserved : List Nat) : Option Nat :=
  ((List.range cache.slots.length).filter (cache.evictable requested reserved)).foldl
    (fun best slot =>
      match best with
      | none => some slot
      | some b =>
        if (cache.slotAt slot).lastUsedStep < (cache.slotAt b).lastUsedStep then some slot
        else some b)
    none

def chooseSlot (cache : FixedExpertCache) (requested : List ExpertKey) (reserved : List Nat) :
    Option Nat :=
  (cache.vacantSlot reserved).or (cache.leastRecentSlot requested reserved)

/-- The load loop of `prepare` over the remaining keys of the requested set. -/
def planLoads (cache : FixedExpertCache) (requested : List ExpertKey) :
    (keys : List ExpertKey) → (placements : ExpertKey → Option Nat) → (reserved : List Nat) →
      Except FabricError ((ExpertKey → Option Nat) × List ExpertLoad)
  | [], placements, _ => .ok (placements, [])
  | key :: keys, placements, reserved =>
    if (placements key).isSome then planLoads cache requested keys placements reserved
    else
      match cache.chooseSlot requested reserved with
      | none => .error (.workingSet requested.length cache.slots.length)
      | some slot =>
        match cache.address slot with
        | .error e => .error e
        | .ok address =>
          match planLoads cache requested keys (Function.update placements key (some slot))
              (slot :: reserved) with
          | .error e => .error e
          | .ok (placements, loads) =>
            .ok (placements, { key, address, evicts := cache.slotKey slot } :: loads)

def placedAddress (cache : FixedExpertCache) (placements : ExpertKey → Option Nat)
    (key : ExpertKey) : Except FabricError ExpertSlotAddress :=
  match placements key with
  | none => .error .invalidCache
  | some slot => cache.address slot

/-- `FixedExpertCache::prepare`. -/
def prepare (cache : FixedExpertCache) (requested : List ExpertKey) :
    Except FabricError ExpertResidencyPlan :=
  let set := requestedSet requested
  if set.isEmpty then .error .invalidCache
  else if set.length > cache.slots.length then
    .error (.workingSet set.length cache.slots.length)
  else
    match Word.checkedAdd 64 cache.step 1 with
    | none => .error .integerOverflow
    | some step =>
      match cache.planLoads set set (fun key => if key ∈ set then cache.locations key else none) []
      with
      | .error e => .error e
      | .ok (placements, loads) =>
        match requested.mapM (cache.placedAddress placements) with
        | .error e => .error e
        | .ok addresses =>
          .ok { cacheId := cache.cacheId, baseVersion := cache.version, step
                requestedUnique := set
                residentHits := (set.filter fun key => (cache.locations key).isSome).length
                addresses, loads }

/-! ## Committing -/

/-- The validation loop of `commit`. -/
def checkLoads (cache : FixedExpertCache) : List ExpertLoad → Except FabricError Unit
  | [] => .ok ()
  | load :: loads =>
    match cache.slots[load.address.slot]? with
    | none => .error .invalidCache
    | some slot => if slot.key = load.evicts then checkLoads cache loads else .error .stalePlan

/-- Publish one load: evict the occupant, seat the new expert. -/
def publishLoad (planStep : Nat) (cache : FixedExpertCache) (load : ExpertLoad) :
    FixedExpertCache :=
  let slot := load.address.slot
  let seated :=
    match cache.slotKey slot with
    | some evicted =>
      { cache with
        locations := Function.update cache.locations evicted none
        stats := { cache.stats with
          evictions := Word.saturatingAdd 64 cache.stats.evictions 1 } }
    | none => cache
  { seated with
    slots := cache.slots.set slot ⟨some load.key, planStep⟩
    locations := Function.update seated.locations load.key (some slot) }

/-- The touch loop of `commit`; a requested key that is not resident aborts it midway. -/
def touchRequested (planStep : Nat) :
    List ExpertKey → FixedExpertCache → FixedExpertCache × Except FabricError Unit
  | [], cache => (cache, .ok ())
  | key :: keys, cache =>
    match cache.locations key with
    | none => (cache, .error .invalidCache)
    | some slot =>
      touchRequested planStep keys
        { cache with
          slots := cache.slots.modify slot fun state => { state with lastUsedStep := planStep } }

def countCommit (cache : FixedExpertCache) (plan : ExpertResidencyPlan) : FixedExpertCache :=
  { cache with
    stats :=
      { cache.stats with
        hits := Word.saturatingAdd 64 cache.stats.hits plan.residentHits
        misses := Word.saturatingAdd 64 cache.stats.misses plan.loads.length
        bytesLoaded := Word.saturatingAdd 64 cache.stats.bytesLoaded
          (min (cache.slotBytes * plan.loads.length) (2 ^ 64 - 1)) } }

/-- `FixedExpertCache::commit`. -/
def commit (cache : FixedExpertCache) (plan : ExpertResidencyPlan) :
    FixedExpertCache × Except FabricError (List ExpertSlotAddress) :=
  if plan.cacheId ≠ cache.cacheId ∨ plan.baseVersion ≠ cache.version then
    (cache, .error .stalePlan)
  else
    match Word.checkedAdd 64 cache.version 1 with
    | none => (cache, .error .integerOverflow)
    | some nextVersion =>
      match cache.checkLoads plan.loads with
      | .error e => (cache, .error e)
      | .ok () =>
        match touchRequested plan.step plan.requestedUnique
            (plan.loads.foldl (publishLoad plan.step) cache) with
        | (cache, .error e) => (cache, .error e)
        | (cache, .ok ()) =>
          ({ cache.countCommit plan with step := plan.step, version := nextVersion },
            .ok plan.addresses)

/-! ## What a plan says about the cache it was made from -/

theorem mem_requestedSet {requested : List ExpertKey} {key : ExpertKey} :
    key ∈ requestedSet requested ↔ key ∈ requested := by
  rw [requestedSet, List.mem_insertionSort, List.mem_dedup]

theorem nodup_requestedSet (requested : List ExpertKey) : (requestedSet requested).Nodup := by
  rw [requestedSet, (List.perm_insertionSort ExpertKey.le _).nodup_iff]
  exact List.nodup_dedup requested

theorem address_slot {cache : FixedExpertCache} {slot : Nat} {address : ExpertSlotAddress}
    (h : cache.address slot = .ok address) : address.slot = slot := by
  unfold FixedExpertCache.address at h
  split at h
  · cases h
  · split at h
    · cases h; rfl
    · cases h

/-- A slot that `chooseSlot` may answer with. -/
structure Choosable (cache : FixedExpertCache) (requested : List ExpertKey) (reserved : List Nat)
    (slot : Nat) : Prop where
  lt : slot < cache.slots.length
  fresh : slot ∉ reserved
  unrequested : ∀ key, cache.slotKey slot = some key → key ∉ requested

theorem choosable_of_vacant {cache : FixedExpertCache} {requested : List ExpertKey}
    {reserved : List Nat} {slot : Nat} (h : cache.vacantSlot reserved = some slot) :
    Choosable cache requested reserved slot := by
  have hfound := List.find?_some h
  have hmem := List.mem_of_find?_eq_some h
  simp only [Bool.and_eq_true, Option.isNone_iff_eq_none, Bool.not_eq_true',
    List.contains_eq_mem, decide_eq_false_iff_not] at hfound
  refine ⟨List.mem_range.mp hmem, hfound.2, fun key hkey => ?_⟩
  rw [hfound.1] at hkey
  cases hkey

/-- The candidates of `leastRecentSlot` are the choosable slots. -/
theorem mem_evictable {cache : FixedExpertCache} {requested : List ExpertKey} {reserved : List Nat}
    {slot : Nat} :
    slot ∈ (List.range cache.slots.length).filter (cache.evictable requested reserved) ↔
      Choosable cache requested reserved slot := by
  have hunrequested : (match cache.slotKey slot with
      | some resident => !requested.contains resident
      | none => true) = true ↔ ∀ key, cache.slotKey slot = some key → key ∉ requested := by
    cases cache.slotKey slot <;> simp
  rw [List.mem_filter, List.mem_range, evictable, Bool.and_eq_true, hunrequested]
  simp only [Bool.not_eq_true', List.contains_eq_mem, decide_eq_false_iff_not]
  exact ⟨fun h => ⟨h.1, h.2.1, h.2.2⟩, fun h => ⟨h.lt, h.fresh, h.unrequested⟩⟩

theorem leastRecentSlot_eq_argmin (cache : FixedExpertCache) (requested : List ExpertKey)
    (reserved : List Nat) :
    cache.leastRecentSlot requested reserved =
      ((List.range cache.slots.length).filter (cache.evictable requested reserved)).argmin
        fun slot => (cache.slotAt slot).lastUsedStep := by
  unfold leastRecentSlot List.argmin
  congr 1
  funext best slot
  cases best <;> rfl

theorem choosable_of_leastRecent {cache : FixedExpertCache} {requested : List ExpertKey}
    {reserved : List Nat} {slot : Nat} (h : cache.leastRecentSlot requested reserved = some slot) :
    Choosable cache requested reserved slot := by
  rw [leastRecentSlot_eq_argmin] at h
  exact mem_evictable.mp (List.argmin_mem h)

theorem chooseSlot_spec {cache : FixedExpertCache} {requested : List ExpertKey}
    {reserved : List Nat} {slot : Nat} (h : cache.chooseSlot requested reserved = some slot) :
    Choosable cache requested reserved slot := by
  unfold chooseSlot at h
  rcases Option.or_eq_some_iff.mp h with hvacant | ⟨-, hleast⟩
  · exact choosable_of_vacant hvacant
  · exact choosable_of_leastRecent hleast

/-- What the load loop adds to the placements it starts from. -/
structure Planned (cache : FixedExpertCache) (requested keys : List ExpertKey)
    (placements : ExpertKey → Option Nat) (reserved : List Nat)
    (placed : ExpertKey → Option Nat) (loads : List ExpertLoad) : Prop where
  keys_sublist : (loads.map (·.key)).Sublist keys
  unplaced : ∀ load ∈ loads, placements load.key = none
  slots_nodup : (loads.map (·.address.slot)).Nodup
  slots_fresh : ∀ load ∈ loads, Choosable cache requested reserved load.address.slot
  evicts : ∀ load ∈ loads, load.evicts = cache.slotKey load.address.slot
  placed_load : ∀ load ∈ loads, placed load.key = some load.address.slot
  placed_other : ∀ key, key ∉ loads.map (·.key) → placed key = placements key
  covered : ∀ key ∈ keys, (placements key).isSome ∨ key ∈ loads.map (·.key)

/-- Induction on the keys still to place; each round reserves one more slot. -/
theorem planLoads_spec {cache : FixedExpertCache} {requested : List ExpertKey} :
    ∀ {keys : List ExpertKey} {placements placed : ExpertKey → Option Nat} {reserved : List Nat}
      {loads : List ExpertLoad}, keys.Nodup →
      cache.planLoads requested keys placements reserved = .ok (placed, loads) →
      Planned cache requested keys placements reserved placed loads := by
  intro keys
  induction keys with
  | nil =>
    intro placements placed reserved loads _ h
    cases h
    exact ⟨by simp, by simp, by simp, by simp, by simp, by simp, fun _ _ => rfl, by simp⟩
  | cons key keys ih =>
    intro placements placed reserved loads hnodup h
    rw [List.nodup_cons] at hnodup
    simp only [planLoads] at h
    split at h
    · next hhit =>
      have hp := ih hnodup.2 h
      refine ⟨hp.keys_sublist.cons key, hp.unplaced, hp.slots_nodup, hp.slots_fresh, hp.evicts,
        hp.placed_load, hp.placed_other, fun k hk => ?_⟩
      rcases List.mem_cons.mp hk with rfl | hk
      · exact .inl hhit
      · exact hp.covered k hk
    · next hmiss =>
      split at h
      · cases h
      · next slot hchoose =>
        split at h
        · cases h
        · next address haddress =>
          split at h
          · cases h
          · next placed' rest hrest =>
            cases h
            have hp := ih hnodup.2 hrest
            have hslot := chooseSlot_spec hchoose
            have haddr := address_slot haddress
            -- the later loads are for later keys, in slots reserved after this one
            have hkey : key ∉ rest.map (·.key) := fun hmem =>
              hnodup.1 (hp.keys_sublist.subset hmem)
            have hslotRest : slot ∉ rest.map (·.address.slot) := by
              intro hmem
              obtain ⟨load, hload, hload'⟩ := List.mem_map.mp hmem
              exact (hp.slots_fresh load hload).fresh (by simp [hload'])
            have hne : ∀ load ∈ rest, load.key ≠ key := fun load hload heq =>
              hkey (heq ▸ List.mem_map_of_mem hload)
            refine ⟨?_, ?_, ?_, ?_, ?_, ?_, ?_, ?_⟩
            · rw [List.map_cons]
              exact hp.keys_sublist.cons_cons key
            · intro load hload
              rcases List.mem_cons.mp hload with rfl | hload
              · simpa using hmiss
              · have := hp.unplaced load hload
                rwa [Function.update_of_ne (hne load hload)] at this
            · rw [List.map_cons, List.nodup_cons, haddr]
              exact ⟨hslotRest, hp.slots_nodup⟩
            · intro load hload
              rcases List.mem_cons.mp hload with rfl | hload
              · rw [haddr]; exact hslot
              · have hc := hp.slots_fresh load hload
                exact ⟨hc.lt, fun hmem => hc.fresh (List.mem_cons_of_mem _ hmem), hc.unrequested⟩
            · intro load hload
              rcases List.mem_cons.mp hload with rfl | hload
              · rw [haddr]
              · exact hp.evicts load hload
            · intro load hload
              rcases List.mem_cons.mp hload with rfl | hload
              · rw [hp.placed_other key hkey, Function.update_self, haddr]
              · exact hp.placed_load load hload
            · intro k hk
              rw [List.map_cons, List.mem_cons, not_or] at hk
              rw [hp.placed_other k hk.2, Function.update_of_ne hk.1]
            · intro k hk
              rcases List.mem_cons.mp hk with rfl | hk
              · exact .inr (by simp)
              · rcases hp.covered k hk with hsome | hmem
                · by_cases hkk : k = key
                  · exact .inr (by simp [hkk])
                  · rw [Function.update_of_ne hkk] at hsome
                    exact .inl hsome
                · exact .inr (List.mem_cons_of_mem _ hmem)

/-- A plan fits a cache when committing it to that cache is sound: its loads are for absent
experts, go to distinct slots, name the occupants they evict, and spare every requested expert
that is resident already. -/
structure PlanFits (cache : FixedExpertCache) (plan : ExpertResidencyPlan) : Prop where
  keys_nodup : (plan.loads.map (·.key)).Nodup
  slots_nodup : (plan.loads.map (·.address.slot)).Nodup
  absent : ∀ load ∈ plan.loads, cache.locations load.key = none
  slot_lt : ∀ load ∈ plan.loads, load.address.slot < cache.slots.length
  evicts : ∀ load ∈ plan.loads, load.evicts = cache.slotKey load.address.slot
  requested : ∀ key ∈ plan.requestedUnique, key ∈ plan.loads.map (·.key) ∨
    ∃ slot, cache.locations key = some slot ∧ slot ∉ plan.loads.map (·.address.slot)

/-- What `prepare` promises about the plan it returns. -/
structure Prepared (cache : FixedExpertCache) (requested : List ExpertKey)
    (plan : ExpertResidencyPlan) : Prop where
  cacheId : plan.cacheId = cache.cacheId
  baseVersion : plan.baseVersion = cache.version
  fits : PlanFits cache plan
  unique : plan.requestedUnique = requestedSet requested
  addresses : List.Forall₂
    (fun key address => key ∉ plan.loads.map (·.key) →
      cache.locations key = some address.slot) requested plan.addresses

theorem prepare_spec {cache : FixedExpertCache}
    (hinv : SlotMap.Inverse cache.slotKey cache.locations) {requested : List ExpertKey}
    {plan : ExpertResidencyPlan} (h : cache.prepare requested = .ok plan) :
    Prepared cache requested plan := by
  unfold prepare at h
  simp only at h
  split at h
  · cases h
  split at h
  · cases h
  split at h
  · cases h
  split at h
  · cases h
  · next placed loads hplan =>
    split at h
    · cases h
    · next addresses haddr =>
      cases h
      have hp := planLoads_spec (nodup_requestedSet requested) hplan
      have hloadMem : ∀ load ∈ loads, load.key ∈ requestedSet requested := fun load hload =>
        hp.keys_sublist.subset (List.mem_map_of_mem hload)
      refine ⟨rfl, rfl, ⟨?_, hp.slots_nodup, ?_, ?_, hp.evicts, ?_⟩, rfl, ?_⟩
      · exact (nodup_requestedSet requested).sublist hp.keys_sublist
      · intro load hload
        have := hp.unplaced load hload
        rwa [if_pos (hloadMem load hload)] at this
      · exact fun load hload => (hp.slots_fresh load hload).lt
      · intro key hkey
        rcases hp.covered key hkey with hsome | hmem
        · -- a resident requested expert: no load may take its slot
          rw [if_pos hkey] at hsome
          obtain ⟨slot, hslot⟩ := Option.isSome_iff_exists.mp hsome
          refine .inr ⟨slot, hslot, fun hmem => ?_⟩
          obtain ⟨load, hload, rfl⟩ := List.mem_map.mp hmem
          exact (hp.slots_fresh load hload).unrequested key ((hinv key _).mp hslot) hkey
        · exact .inl hmem
      · rw [Traverse.mapM_ok_iff] at haddr
        refine haddr.imp fun key address hkey hnot => ?_
        unfold placedAddress at hkey
        rw [hp.placed_other key hnot] at hkey
        split at hkey
        · cases hkey
        · next slot hslot =>
          rw [address_slot hkey, ← hslot]
          split at hslot
          · next hin => rw [if_pos hin]
          · cases hslot

/-! ## What a commit does -/

theorem slotKey_set {cache : FixedExpertCache} {slot : Nat} (hlt : slot < cache.slots.length)
    (state : ExpertSlot) :
    (fun s => ((cache.slots.set slot state).getD s ⟨none, 0⟩).key) =
      Function.update cache.slotKey slot state.key := by
  funext s
  rw [List.getD_eq_getElem?_getD]
  by_cases h : s = slot
  · subst h
    rw [Function.update_self, List.getElem?_set_self hlt]
    rfl
  · rw [Function.update_of_ne h, List.getElem?_set_ne (Ne.symm h), slotKey, slotAt,
      List.getD_eq_getElem?_getD]

/-- Publishing one load, on the two views of residency. -/
theorem publishLoad_spec {cache : FixedExpertCache} {load : ExpertLoad}
    (hinv : SlotMap.Inverse cache.slotKey cache.locations)
    (hlt : load.address.slot < cache.slots.length) (habsent : cache.locations load.key = none)
    (planStep : Nat) :
    SlotMap.Inverse (publishLoad planStep cache load).slotKey
        (publishLoad planStep cache load).locations ∧
      (publishLoad planStep cache load).slotKey =
        Function.update cache.slotKey load.address.slot (some load.key) ∧
      (publishLoad planStep cache load).slots.length = cache.slots.length := by
  have hkey : (publishLoad planStep cache load).slotKey =
      Function.update cache.slotKey load.address.slot (some load.key) := by
    rw [← slotKey_set hlt ⟨some load.key, planStep⟩]
    unfold publishLoad
    rfl
  have hlen : (publishLoad planStep cache load).slots.length = cache.slots.length := by
    unfold publishLoad
    simp
  refine ⟨?_, hkey, hlen⟩
  rw [hkey]
  cases hocc : cache.slotKey load.address.slot with
  | none =>
    rw [show (publishLoad planStep cache load).locations =
      Function.update cache.locations load.key (some load.address.slot) from by
        simp [publishLoad, hocc]]
    exact hinv.insert hocc habsent
  | some evicted =>
    rw [show (publishLoad planStep cache load).locations =
      Function.update (Function.update cache.locations evicted none) load.key
        (some load.address.slot) from by simp [publishLoad, hocc]]
    have hne : load.key ≠ evicted := by
      rintro heq
      rw [heq, (hinv evicted _).mpr hocc] at habsent
      cases habsent
    have hevicted := (hinv.evict hocc).insert (s := load.address.slot) (k := load.key)
      (by simp) (by rw [Function.update_of_ne hne]; exact habsent)
    rwa [Function.update_idem] at hevicted

/-- A cache whose residency is that of `cache` with the loads seated. -/
structure Seated (cache after : FixedExpertCache) (loads : List ExpertLoad) : Prop where
  inverse : SlotMap.Inverse after.slotKey after.locations
  length : after.slots.length = cache.slots.length
  cacheId : after.cacheId = cache.cacheId
  load_slot : ∀ load ∈ loads, after.slotKey load.address.slot = some load.key
  other_slot : ∀ slot, slot ∉ loads.map (·.address.slot) →
    after.slotKey slot = cache.slotKey slot

theorem Seated.load_location {cache after : FixedExpertCache} {loads : List ExpertLoad}
    (h : Seated cache after loads) {load : ExpertLoad} (hload : load ∈ loads) :
    after.locations load.key = some load.address.slot :=
  (h.inverse _ _).mpr (h.load_slot load hload)

theorem Seated.resident_location {cache after : FixedExpertCache} {loads : List ExpertLoad}
    (h : Seated cache after loads) (hinv : SlotMap.Inverse cache.slotKey cache.locations)
    {key : ExpertKey} {slot : Nat} (hkey : cache.locations key = some slot)
    (hslot : slot ∉ loads.map (·.address.slot)) : after.locations key = some slot := by
  rw [h.inverse, h.other_slot slot hslot]
  exact (hinv key slot).mp hkey

/-- Publishing the loads of a fitting plan seats them all. Induction on the loads: seating one
leaves the others absent, in range and aimed at other slots. -/
theorem publishLoads_spec (planStep : Nat) (loads : List ExpertLoad) :
    ∀ {cache : FixedExpertCache}, SlotMap.Inverse cache.slotKey cache.locations →
      (loads.map (·.key)).Nodup → (loads.map (·.address.slot)).Nodup →
      (∀ load ∈ loads, cache.locations load.key = none) →
      (∀ load ∈ loads, load.address.slot < cache.slots.length) →
      Seated cache (loads.foldl (publishLoad planStep) cache) loads := by
  induction loads with
  | nil => exact fun hinv _ _ _ _ => ⟨hinv, rfl, rfl, by simp, fun _ _ => rfl⟩
  | cons load loads ih =>
    intro cache hinv hkeys hslots habsent hlt
    rw [List.map_cons, List.nodup_cons] at hkeys hslots
    obtain ⟨hinv', hkey', hlen'⟩ := publishLoad_spec hinv (hlt load (by simp))
      (habsent load (by simp)) planStep
    have hid : (publishLoad planStep cache load).cacheId = cache.cacheId := by
      cases hocc : cache.slotKey load.address.slot with
      | none => simp [publishLoad, hocc]
      | some evicted => simp [publishLoad, hocc]
    have habsent' : ∀ l ∈ loads, (publishLoad planStep cache load).locations l.key = none := by
      intro l hl
      cases hloc : (publishLoad planStep cache load).locations l.key with
      | none => rfl
      | some slot =>
        -- whoever sits in a slot now was seated just now or sat there before
        have hsit := (hinv' _ _).mp hloc
        rw [hkey'] at hsit
        by_cases hs : slot = load.address.slot
        · subst hs
          rw [Function.update_self] at hsit
          have hkk : load.key = l.key := Option.some.inj hsit
          exact absurd (hkk ▸ List.mem_map_of_mem hl) hkeys.1
        · rw [Function.update_of_ne hs, ← hinv _ _,
            habsent l (List.mem_cons_of_mem _ hl)] at hsit
          cases hsit
    have hseat := ih hinv' hkeys.2 hslots.2 habsent' fun l hl => by
      rw [hlen']
      exact hlt l (List.mem_cons_of_mem _ hl)
    rw [List.foldl_cons]
    refine ⟨hseat.inverse, hseat.length.trans hlen', hseat.cacheId.trans hid, ?_, ?_⟩
    · intro l hl
      rcases List.mem_cons.mp hl with rfl | hl
      · rw [hseat.other_slot _ hslots.1, hkey', Function.update_self]
      · exact hseat.load_slot l hl
    · intro slot hslot
      rw [List.map_cons, List.mem_cons, not_or] at hslot
      rw [hseat.other_slot slot hslot.2, hkey', Function.update_of_ne hslot.1]

/-- Touching resident experts succeeds and keeps residency. -/
theorem touchRequested_spec (planStep : Nat) (keys : List ExpertKey) :
    ∀ cache : FixedExpertCache, (∀ key ∈ keys, (cache.locations key).isSome) →
      ∃ after, touchRequested planStep keys cache = (after, .ok ()) ∧
        after.slotKey = cache.slotKey ∧ after.locations = cache.locations ∧
        after.slots.length = cache.slots.length ∧ after.cacheId = cache.cacheId := by
  induction keys with
  | nil => exact fun cache _ => ⟨cache, rfl, rfl, rfl, rfl, rfl⟩
  | cons key keys ih =>
    intro cache hall
    obtain ⟨slot, hslot⟩ := Option.isSome_iff_exists.mp (hall key (by simp))
    set touched : FixedExpertCache := { cache with
      slots := cache.slots.modify slot fun state => { state with lastUsedStep := planStep } }
      with htouched
    have hkey : touched.slotKey = cache.slotKey := by
      funext s
      simp only [htouched, slotKey, slotAt, List.getD_eq_getElem?_getD, List.getElem?_modify]
      cases cache.slots[s]? with
      | none => rfl
      | some state =>
        by_cases hs : slot = s
        · simp [hs]
        · simp [hs]
    obtain ⟨after, hafter, hkeys, hloc, hlen, hid⟩ := ih touched fun k hk =>
      hall k (List.mem_cons_of_mem _ hk)
    refine ⟨after, ?_, hkeys.trans hkey, hloc, ?_, hid⟩
    · simpa [touchRequested, hslot] using hafter
    · rw [hlen, htouched]
      simp

/-- The validation loop compares each load with the slot it names. -/
theorem checkLoads_ok {cache : FixedExpertCache} {loads : List ExpertLoad}
    (hlt : ∀ load ∈ loads, load.address.slot < cache.slots.length)
    (hevicts : ∀ load ∈ loads, load.evicts = cache.slotKey load.address.slot) :
    cache.checkLoads loads = .ok () := by
  induction loads with
  | nil => rfl
  | cons load loads ih =>
    have hload := hlt load (by simp)
    have hkey := hevicts load (by simp)
    rw [slotKey, slotAt, List.getD_eq_getElem?_getD, List.getElem?_eq_getElem hload] at hkey
    simp only [checkLoads, List.getElem?_eq_getElem hload]
    rw [if_pos (by rw [hkey]; rfl)]
    exact ih (fun l hl => hlt l (List.mem_cons_of_mem _ hl))
      (fun l hl => hevicts l (List.mem_cons_of_mem _ hl))

/-- The plan was made by this cache in its current version. -/
def Current (cache : FixedExpertCache) (plan : ExpertResidencyPlan) : Prop :=
  plan.cacheId = cache.cacheId ∧ plan.baseVersion = cache.version

instance (cache : FixedExpertCache) (plan : ExpertResidencyPlan) :
    Decidable (Current cache plan) :=
  inferInstanceAs (Decidable (plan.cacheId = cache.cacheId ∧ plan.baseVersion = cache.version))

theorem commit_stale {cache : FixedExpertCache} {plan : ExpertResidencyPlan}
    (h : ¬ Current cache plan) : cache.commit plan = (cache, .error .stalePlan) := by
  unfold commit
  rw [if_pos]
  unfold Current at h
  rcases Classical.em (plan.cacheId = cache.cacheId) with hid | hid
  · exact .inr fun hver => h ⟨hid, hver⟩
  · exact .inl hid

/-- **Committing a current plan that fits** seats every load in the next version; only a
version counter at its maximum refuses it, without any change. -/
theorem commit_spec {cache : FixedExpertCache} {plan : ExpertResidencyPlan}
    (hinv : SlotMap.Inverse cache.slotKey cache.locations) (hcurrent : Current cache plan)
    (hfits : PlanFits cache plan) :
    cache.commit plan = (cache, .error .integerOverflow) ∨
      ∃ after, cache.commit plan = (after, .ok plan.addresses) ∧
        Seated cache after plan.loads ∧ after.version = cache.version + 1 := by
  unfold commit
  rw [if_neg (not_or.mpr ⟨not_not.mpr hcurrent.1, not_not.mpr hcurrent.2⟩)]
  cases hnext : Word.checkedAdd 64 cache.version 1 with
  | none => exact .inl rfl
  | some nextVersion =>
    obtain ⟨-, rfl⟩ := Word.checkedAdd_eq_some.mp hnext
    right
    rw [checkLoads_ok hfits.slot_lt hfits.evicts]
    have hseat := publishLoads_spec plan.step plan.loads hinv hfits.keys_nodup
      hfits.slots_nodup hfits.absent hfits.slot_lt
    have hall : ∀ key ∈ plan.requestedUnique,
        ((plan.loads.foldl (publishLoad plan.step) cache).locations key).isSome := by
      intro key hkey
      rcases hfits.requested key hkey with hmem | ⟨slot, hslot, hnot⟩
      · obtain ⟨load, hload, rfl⟩ := List.mem_map.mp hmem
        rw [hseat.load_location hload]
        rfl
      · rw [hseat.resident_location hinv hslot hnot]
        rfl
    obtain ⟨touched, htouch, hkey, hloc, hlen, hid⟩ :=
      touchRequested_spec plan.step plan.requestedUnique _ hall
    simp only [htouch]
    refine ⟨_, rfl, ⟨?_, hlen.trans hseat.length, hid.trans hseat.cacheId, ?_, ?_⟩, rfl⟩
    · show SlotMap.Inverse touched.slotKey touched.locations
      rw [hkey, hloc]
      exact hseat.inverse
    · intro load hload
      show touched.slotKey _ = _
      rw [hkey]
      exact hseat.load_slot load hload
    · intro slot hslot
      show touched.slotKey _ = _
      rw [hkey]
      exact hseat.other_slot slot hslot

end FixedExpertCache

end Spark.Fabric
