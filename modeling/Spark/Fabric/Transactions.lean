import Spark.Fabric.ExpertCache

/-!
# Outstanding plans over several caches

What `FixedExpertCache` promises whatever is prepared, committed and dropped in which order, on one
cache or on several: a plan is a transaction on the residency metadata, refused as stale once another
plan of the cache was committed, and else applied as a whole.

* **`prepare_victims`** — a plan evicts the least recently used slots it may.
* **`prepare_workingSet_iff`** — when a request is too large.
* **`Desk.Inv`** — what holds of the caches and of every plan in every reachable state.
* **`plans_transactional`** — the promises, over all runs.
-/

namespace Spark.Fabric

namespace FixedExpertCache

variable {cache : FixedExpertCache} {requested : List ExpertKey} {reserved : List Nat} {slot : Nat}

/-! ## Victims -/

/-- `(last_used_step, index)`, compared from left to right. -/
def LessRecent (cache : FixedExpertCache) (slot other : Nat) : Prop :=
  (cache.slotAt slot).lastUsedStep < (cache.slotAt other).lastUsedStep ∨
    (cache.slotAt slot).lastUsedStep = (cache.slotAt other).lastUsedStep ∧ slot ≤ other

/-- In an ascending list the first of two elements is the smaller one. -/
theorem le_of_idxOf_le {l : List Nat} (hsorted : l.Pairwise (· < ·)) {a b : Nat} (ha : a ∈ l) (hb : b ∈ l)
    (h : l.idxOf a ≤ l.idxOf b) : a ≤ b := by
  have hla := List.idxOf_lt_length_of_mem ha
  have hlb := List.idxOf_lt_length_of_mem hb
  rcases Nat.lt_or_eq_of_le h with hlt | heq
  · have := List.pairwise_iff_getElem.mp hsorted _ _ hla hlb hlt
    rw [List.getElem_idxOf, List.getElem_idxOf] at this
    exact Nat.le_of_lt this
  · have : l[l.idxOf a] = l[l.idxOf b] := by simp only [heq]
    rw [List.getElem_idxOf, List.getElem_idxOf] at this
    exact Nat.le_of_eq this

theorem leastRecentSlot_le (h : cache.leastRecentSlot requested reserved = some slot) {other : Nat}
    (hother : Choosable cache requested reserved other) : cache.LessRecent slot other := by
  rw [leastRecentSlot_eq_argmin] at h
  have hmem := mem_evictable.mpr hother
  have hle := List.le_of_mem_argmin hmem h
  rcases Nat.lt_or_eq_of_le hle with hlt | heq
  · exact .inl hlt
  · refine .inr ⟨heq, ?_⟩
    have hsorted : ((List.range cache.slots.length).filter
        (cache.evictable requested reserved)).Pairwise (· < ·) := List.pairwise_lt_range.filter _
    exact le_of_idxOf_le hsorted (List.argmin_mem h) hmem (List.index_of_argmin h hmem heq.ge)

/-- A slot that is occupied is chosen only if every choosable slot is, and none was used less
recently. -/
theorem chooseSlot_least (h : cache.chooseSlot requested reserved = some slot)
    (hoccupied : (cache.slotKey slot).isSome) {other : Nat}
    (hother : Choosable cache requested reserved other) :
    (cache.slotKey other).isSome ∧ cache.LessRecent slot other := by
  unfold chooseSlot at h
  rcases Option.or_eq_some_iff.mp h with hvacant | ⟨hnone, hleast⟩
  · have hfound := List.find?_some hvacant
    rw [Bool.and_eq_true, Option.isNone_iff_eq_none] at hfound
    rw [hfound.1] at hoccupied
    cases hoccupied
  · refine ⟨?_, leastRecentSlot_le hleast hother⟩
    have hnot := List.find?_eq_none.mp hnone other (List.mem_range.mpr hother.lt)
    have hfresh := hother.fresh
    cases hkey : cache.slotKey other with
    | some _ => rfl
    | none => simp [hkey, hfresh] at hnot

theorem chooseSlot_isSome (h : Choosable cache requested reserved slot) :
    ∃ chosen, cache.chooseSlot requested reserved = some chosen := by
  unfold chooseSlot
  cases cache.vacantSlot reserved with
  | some vacant => exact ⟨vacant, rfl⟩
  | none =>
    cases hleast : cache.leastRecentSlot requested reserved with
    | some least => exact ⟨least, rfl⟩
    | none =>
      have hmem := mem_evictable.mpr h
      rw [leastRecentSlot_eq_argmin] at hleast
      rw [List.argmin_eq_none.mp hleast] at hmem
      cases hmem

/-- Every load that evicts somebody evicts the least recently used of those it may evict, the slots of
the loads before it set aside. -/
def VictimsLeast (cache : FixedExpertCache) (requested : List ExpertKey) (reserved : List Nat)
    (loads : List ExpertLoad) : Prop :=
  ∀ earlier load later, loads = earlier ++ load :: later → load.evicts.isSome →
    ∀ slot, Choosable cache requested (earlier.map (·.address.slot) ++ reserved) slot →
      (cache.slotKey slot).isSome ∧ cache.LessRecent load.address.slot slot

theorem planLoads_victims (keys : List ExpertKey) :
    ∀ {placements placed : ExpertKey → Option Nat} {reserved : List Nat} {loads : List ExpertLoad},
      cache.planLoads requested keys placements reserved = .ok (placed, loads) →
      VictimsLeast cache requested reserved loads := by
  induction keys with
  | nil =>
    intro placements placed reserved loads h earlier load later hsplit
    cases h
    exact absurd hsplit.symm (by simp)
  | cons key keys ih =>
    intro placements placed reserved loads h
    simp only [planLoads] at h
    split at h
    · exact ih h
    · split at h
      · cases h
      · next slot hchoose =>
        split at h
        · cases h
        · next address haddress =>
          split at h
          · cases h
          · next rest hrest =>
            cases h
            intro earlier load later hsplit hevicts other hother
            cases earlier with
            | nil =>
              obtain ⟨rfl, -⟩ := List.cons.inj hsplit
              rw [address_slot haddress]
              exact chooseSlot_least hchoose hevicts hother
            | cons first earlier =>
              obtain ⟨rfl, htail⟩ := List.cons.inj hsplit
              refine ih hrest earlier load later htail hevicts other ⟨hother.lt, ?_, hother.unrequested⟩
              have hfresh := hother.fresh
              simp only [List.map_cons, List.cons_append, List.mem_cons, List.mem_append, not_or,
                address_slot haddress] at hfresh ⊢
              exact ⟨hfresh.2.1, hfresh.1, hfresh.2.2⟩

/-! ## The keys a plan loads -/

theorem planLoads_keys (keys : List ExpertKey) :
    ∀ {placements placed : ExpertKey → Option Nat} {reserved : List Nat} {loads : List ExpertLoad},
      keys.Nodup → cache.planLoads requested keys placements reserved = .ok (placed, loads) →
      loads.map (·.key) = keys.filter fun key => (placements key).isNone := by
  induction keys with
  | nil =>
    intro placements placed reserved loads _ h
    cases h
    rfl
  | cons key keys ih =>
    intro placements placed reserved loads hnodup h
    rw [List.nodup_cons] at hnodup
    simp only [planLoads] at h
    split at h
    · next hplaced =>
      rw [ih hnodup.2 h, List.filter_cons_of_neg]
      rw [Option.isNone_iff_eq_none]
      exact Option.isSome_iff_ne_none.mp hplaced
    · next hplaced =>
      split at h
      · cases h
      · split at h
        · cases h
        · split at h
          · cases h
          · next rest hrest =>
            cases h
            rw [List.map_cons, ih hnodup.2 hrest, List.filter_cons_of_pos (by simpa using hplaced)]
            congr 1
            refine List.filter_congr fun other hother => ?_
            have hne : other ≠ key := fun heq => hnodup.1 (heq ▸ hother)
            rw [Function.update_of_ne hne]

theorem address_error {e : FabricError} (h : cache.address slot = .error e) : e = .integerOverflow := by
  unfold FixedExpertCache.address at h
  split at h
  · exact (Except.error.inj h).symm
  · split at h
    · cases h
    · exact (Except.error.inj h).symm

/-- While a request is no larger than the cache, each of its keys finds a slot. -/
theorem planLoads_ne_workingSet (hinv : SlotMap.Inverse cache.slotKey cache.locations)
    (hlength : requested.length ≤ cache.slots.length) (keys : List ExpertKey) :
    ∀ {placements : ExpertKey → Option Nat} {reserved : List Nat}, (∀ key ∈ keys, key ∈ requested) →
      (∀ slot ∈ reserved, ∃ key ∈ requested, placements key = some slot) →
      (∀ key ∈ requested, ∀ slot, cache.locations key = some slot → placements key = some slot) →
      ∀ n m, cache.planLoads requested keys placements reserved ≠ .error (.workingSet n m) := by
  induction keys with
  | nil => exact fun _ _ _ => nofun
  | cons key keys ih =>
    intro placements reserved hkeys hreserved hresident n m h
    obtain ⟨hkey, hrest⟩ := List.forall_mem_cons.mp hkeys
    simp only [planLoads] at h
    split at h
    · exact ih hrest hreserved hresident n m h
    next hplaced =>
    have hnone : placements key = none := by simpa using hplaced
    -- Each placed key claims its slot, and the one to place claims none yet.
    obtain ⟨free, hrange, hfree⟩ :=
      SlotMap.exists_unclaimed (fun slot key => placements key = some slot)
        (List.nodup_range (n := cache.slots.length)) (by rwa [List.length_range])
        (fun hs ht => Option.some.inj (hs.symm.trans ht)) hkey (fun slot => by rw [hnone]; nofun)
    have hchoosable : Choosable cache requested reserved free := by
      refine ⟨List.mem_range.mp hrange, ?_, ?_⟩
      · intro hmem
        obtain ⟨owner, howner, hplace⟩ := hreserved free hmem
        exact hfree owner howner hplace
      · intro resident hslot hmem
        exact hfree resident hmem (hresident resident hmem free ((hinv resident free).mpr hslot))
    obtain ⟨slot, hslot⟩ := chooseSlot_isSome hchoosable
    rw [hslot] at h
    simp only at h
    split at h
    · next e he =>
      cases h
      cases address_error he
    · split at h
      · next e he =>
        cases h
        refine ih hrest ?_ ?_ n m he
        · refine List.forall_mem_cons.mpr ⟨⟨key, hkey, Function.update_self ..⟩, ?_⟩
          intro slot hmem
          obtain ⟨owner, howner, hplace⟩ := hreserved slot hmem
          refine ⟨owner, howner, ?_⟩
          rw [Function.update_of_ne (fun heq => by rw [heq, hnone] at hplace; cases hplace), hplace]
        · intro owner howner slot hat
          have hplace := hresident owner howner slot hat
          rw [Function.update_of_ne (fun heq => by rw [heq, hnone] at hplace; cases hplace), hplace]
      · cases h

/-! ## What `prepare` answers -/

/-- The placements `prepare` starts from: the requested keys that are resident. -/
def residentPlacements (cache : FixedExpertCache) (requested : List ExpertKey) (key : ExpertKey) : Option Nat :=
  if key ∈ requestedSet requested then cache.locations key else none

/-- A plan, taken apart. -/
theorem prepare_cases {plan : ExpertResidencyPlan} (h : cache.prepare requested = .ok plan) :
    ∃ placed, cache.planLoads (requestedSet requested) (requestedSet requested)
        (cache.residentPlacements requested) [] = .ok (placed, plan.loads) ∧
      requested.mapM (cache.placedAddress placed) = .ok plan.addresses ∧
      plan.residentHits = ((requestedSet requested).filter fun key => (cache.locations key).isSome).length := by
  unfold prepare at h
  simp only at h
  split at h
  · cases h
  split at h
  · cases h
  split at h
  · cases h
  split at h
  · cases h
  next placed loads hplan =>
  split at h
  · cases h
  next addresses haddresses =>
  cases h
  exact ⟨placed, hplan, haddresses, rfl⟩

theorem prepare_victims {plan : ExpertResidencyPlan} (h : cache.prepare requested = .ok plan) :
    VictimsLeast cache (requestedSet requested) [] plan.loads := by
  obtain ⟨placed, hplan, -⟩ := prepare_cases h
  exact planLoads_victims _ hplan

theorem residentPlacements_of_mem {key : ExpertKey} (h : key ∈ requestedSet requested) :
    cache.residentPlacements requested key = cache.locations key := if_pos h

theorem length_requestedSet (requested : List ExpertKey) :
    (requestedSet requested).length = requested.dedup.length :=
  (List.perm_insertionSort ExpertKey.le _).length_eq

/-- Hits and loads make up the distinct keys of the request. -/
theorem prepare_counts {plan : ExpertResidencyPlan} (h : cache.prepare requested = .ok plan) :
    plan.residentHits + plan.loads.length = requested.dedup.length := by
  obtain ⟨placed, hplan, -, hhits⟩ := prepare_cases h
  have hkeys := planLoads_keys _ (nodup_requestedSet requested) hplan
  have hmisses : plan.loads.length =
      ((requestedSet requested).filter fun key => !(cache.locations key).isSome).length := by
    rw [← List.length_map (·.key), hkeys]
    congr 1
    refine List.filter_congr fun key hkey => ?_
    rw [residentPlacements_of_mem hkey]
    cases cache.locations key <;> rfl
  rw [hhits, hmisses, ← length_requestedSet]
  exact (List.length_eq_length_filter_add _).symm

/-- The addresses of a plan are those of the slots its keys are placed in. -/
theorem prepare_places {plan : ExpertResidencyPlan} (h : cache.prepare requested = .ok plan) :
    List.Forall₂ (fun key address => ∃ slot, cache.address slot = .ok address ∧
        ((∃ load ∈ plan.loads, load.key = key ∧ load.address.slot = slot) ∨
          key ∉ plan.loads.map (·.key) ∧ cache.locations key = some slot)) requested plan.addresses := by
  obtain ⟨placed, hplan, haddresses, -⟩ := prepare_cases h
  have hp := planLoads_spec (nodup_requestedSet requested) hplan
  rw [Traverse.mapM_ok_iff] at haddresses
  rw [List.forall₂_iff_zip] at haddresses ⊢
  refine ⟨haddresses.1, ?_⟩
  intro key address hmem
  have haddress := haddresses.2 hmem
  have hkey : key ∈ requestedSet requested := mem_requestedSet.mpr (List.of_mem_zip hmem).1
  unfold placedAddress at haddress
  split at haddress
  · cases haddress
  next slot hslot =>
  refine ⟨slot, haddress, ?_⟩
  by_cases hload : key ∈ plan.loads.map (·.key)
  · obtain ⟨load, hloads, rfl⟩ := List.mem_map.mp hload
    rw [hp.placed_load load hloads] at hslot
    exact .inl ⟨load, hloads, rfl, Option.some.inj hslot⟩
  · rw [hp.placed_other key hload, residentPlacements_of_mem hkey] at hslot
    exact .inr ⟨hload, hslot⟩

/-- A request is refused for its size exactly when it names more experts than there are slots. -/
theorem prepare_workingSet_iff (hinv : SlotMap.Inverse cache.slotKey cache.locations) :
    (∃ n m, cache.prepare requested = .error (.workingSet n m)) ↔
      cache.slots.length < requested.dedup.length := by
  rw [← length_requestedSet]
  constructor
  · rintro ⟨n, m, h⟩
    by_contra hfits
    unfold prepare at h
    simp only [if_neg hfits] at h
    split at h
    · cases h
    split at h
    · cases h
    split at h
    · next e hplan =>
      cases h
      refine planLoads_ne_workingSet hinv (Nat.not_lt.mp hfits) (requestedSet requested)
        (fun _ h => h) ?_ ?_ n m hplan
      · intro slot hslot
        cases hslot
      · intro key hkey slot hslot
        rw [if_pos hkey, hslot]
    split at h
    · next e haddress =>
      cases h
      obtain ⟨key, -, hkey⟩ := Traverse.exists_of_mapM_error haddress
      unfold placedAddress at hkey
      split at hkey
      · cases hkey
      · cases address_error hkey
    · cases h
  · intro hlarge
    refine ⟨(requestedSet requested).length, cache.slots.length, ?_⟩
    unfold prepare
    have hnonempty : ¬ (requestedSet requested).isEmpty = true := by
      intro hempty
      rw [List.isEmpty_iff] at hempty
      rw [hempty] at hlarge
      exact absurd hlarge (Nat.not_lt_zero _)
    simp only [if_neg hnonempty, if_pos hlarge]

/-! ## What a commit counts -/

theorem publishLoads_counts (planStep : Nat) (loads : List ExpertLoad) :
    ∀ cache : FixedExpertCache, (loads.foldl (publishLoad planStep) cache).stats.hits = cache.stats.hits ∧
      (loads.foldl (publishLoad planStep) cache).stats.misses = cache.stats.misses := by
  induction loads with
  | nil => exact fun _ => ⟨rfl, rfl⟩
  | cons load loads ih =>
    intro cache
    obtain ⟨hhits, hmisses⟩ := ih (publishLoad planStep cache load)
    rw [List.foldl_cons, hhits, hmisses]
    cases hoccupant : cache.slotKey load.address.slot with
    | none => simp [publishLoad, hoccupant]
    | some evicted => simp [publishLoad, hoccupant]

theorem touchRequested_stats (planStep : Nat) (keys : List ExpertKey) :
    ∀ cache : FixedExpertCache, (touchRequested planStep keys cache).1.stats = cache.stats := by
  induction keys with
  | nil => exact fun _ => rfl
  | cons key keys ih =>
    intro cache
    rw [touchRequested]
    cases cache.locations key with
    | none => rfl
    | some slot => exact ih _

theorem commit_counts {plan : ExpertResidencyPlan} {after : FixedExpertCache}
    {addresses : List ExpertSlotAddress} (h : cache.commit plan = (after, .ok addresses)) :
    after.stats.hits = Word.saturatingAdd 64 cache.stats.hits plan.residentHits ∧
      after.stats.misses = Word.saturatingAdd 64 cache.stats.misses plan.loads.length := by
  obtain ⟨hhits, hmisses⟩ := publishLoads_counts plan.step plan.loads cache
  have htouched := touchRequested_stats plan.step plan.requestedUnique
    (plan.loads.foldl (publishLoad plan.step) cache)
  unfold commit at h
  split at h
  · cases h
  split at h
  · cases h
  split at h
  · cases h
  split at h
  · cases h
  next touched htouch =>
  cases h
  rw [htouch] at htouched
  show Word.saturatingAdd 64 touched.stats.hits _ = _ ∧ Word.saturatingAdd 64 touched.stats.misses _ = _
  rw [htouched, hhits, hmisses]
  exact ⟨rfl, rfl⟩

end FixedExpertCache

/-! ## Desks

A desk is where the caches and the plans made on them lie. A committed plan stays on the desk until it is
dropped: plans can be cloned, so nothing keeps a caller from committing one twice. -/

/-- A plan, the cache it was made on and, for the record, the request, the number of commits the cache
had seen and the cache as it was. -/
structure Ticket where
  cache : Nat
  requested : List ExpertKey
  plan : ExpertResidencyPlan
  seen : Nat
  base : FixedExpertCache

structure Desk where
  caches : List FixedExpertCache
  tickets : List Ticket
  committed : List (Nat × Ticket)

inductive DeskAction where
  | prepare (cache : Nat) (requested : List ExpertKey)
  | commit (cache ticket : Nat)
  | drop (ticket : Nat)

namespace Desk

/-- The plans committed to a cache, in their order. -/
def commitsOf (d : Desk) (cache : Nat) : List Ticket :=
  (d.committed.filter fun entry => entry.1 == cache).map (·.2)

def step (d : Desk) : DeskAction → Desk
  | .prepare i requested =>
    match d.caches[i]? with
    | none => d
    | some cache =>
      match cache.prepare requested with
      | .error _ => d
      | .ok plan =>
        let ticket := { cache := i, requested, plan, seen := (d.commitsOf i).length, base := cache }
        { d with tickets := d.tickets ++ [ticket] }
  | .commit i t =>
    match d.caches[i]?, d.tickets[t]? with
    | some cache, some ticket =>
      match cache.commit ticket.plan with
      | (after, .error _) => { d with caches := d.caches.set i after }
      | (after, .ok _) => { d with caches := d.caches.set i after, committed := d.committed ++ [(i, ticket)] }
    | _, _ => d
  | .drop t => { d with tickets := d.tickets.eraseIdx t }

def run (d : Desk) (actions : List DeskAction) : Desk := actions.foldl step d

/-- Caches made one after the other, each with the next number of `NEXT_EXPERT_CACHE_ID`. -/
def createAll : Nat → List (Nat × Nat) → Except FabricError (List FixedExpertCache)
  | _, [] => .ok []
  | id, (slotCount, slotBytes) :: rest =>
    match FixedExpertCache.new id slotCount slotBytes with
    | .error e => .error e
    | .ok cache =>
      match createAll (Word.wrappingAdd 64 id 1) rest with
      | .error e => .error e
      | .ok caches => .ok (cache :: caches)

/-- A plan as its ticket has it: made from the cache of the record, which the cache still is while it
has seen no other commit. -/
structure Held (d : Desk) (ticket : Ticket) (cache : FixedExpertCache) : Prop where
  made : ticket.base.prepare ticket.requested = .ok ticket.plan
  inverse : SlotMap.Inverse ticket.base.slotKey ticket.base.locations
  id : ticket.base.cacheId = cache.cacheId
  version : ticket.base.version = ticket.seen
  seen : ticket.seen ≤ (d.commitsOf ticket.cache).length
  same : ticket.seen = (d.commitsOf ticket.cache).length → cache = ticket.base

/-- The counters of a cache are those of the plans committed to it, clamped. -/
structure Counted (cache : FixedExpertCache) (commits : List Ticket) : Prop where
  hits : cache.stats.hits = min (commits.map (·.plan.residentHits)).sum (2 ^ 64 - 1)
  misses : cache.stats.misses = min (commits.map (·.plan.loads.length)).sum (2 ^ 64 - 1)

structure Inv (d : Desk) : Prop where
  inverse : ∀ {i : Nat} {cache : FixedExpertCache}, d.caches[i]? = some cache →
    SlotMap.Inverse cache.slotKey cache.locations
  ids : ∀ {i j : Nat} {a b : FixedExpertCache}, d.caches[i]? = some a → d.caches[j]? = some b →
    a.cacheId = b.cacheId → i = j
  version : ∀ {i : Nat} {cache : FixedExpertCache}, d.caches[i]? = some cache →
    cache.version = (d.commitsOf i).length
  tickets : ∀ ticket ∈ d.tickets, ∃ cache, d.caches[ticket.cache]? = some cache ∧ d.Held ticket cache
  counted : ∀ {i : Nat} {cache : FixedExpertCache}, d.caches[i]? = some cache →
    Counted cache (d.commitsOf i)
  distinct : ∀ entry ∈ d.committed,
    entry.2.plan.residentHits + entry.2.plan.loads.length = entry.2.requested.dedup.length

variable {d : Desk}

open FixedExpertCache

/-- A plan is current on a cache exactly when it was made there and nothing was committed since. -/
theorem Inv.current_iff (h : d.Inv) {ticket : Ticket} (hticket : ticket ∈ d.tickets) {i : Nat}
    {cache : FixedExpertCache} (hcache : d.caches[i]? = some cache) :
    Current cache ticket.plan ↔ ticket.cache = i ∧ ticket.seen = (d.commitsOf i).length := by
  obtain ⟨home, hhome, hheld⟩ := h.tickets ticket hticket
  have hprepared := prepare_spec hheld.inverse hheld.made
  constructor
  · rintro ⟨hid, hversion⟩
    have hi : ticket.cache = i :=
      h.ids hhome hcache (by rw [← hheld.id, ← hprepared.cacheId, hid])
    rw [hprepared.baseVersion, hheld.version, h.version hcache] at hversion
    exact ⟨hi, hversion⟩
  · rintro ⟨rfl, hseen⟩
    obtain rfl : home = cache := Option.some.inj (hhome.symm.trans hcache)
    refine ⟨hprepared.cacheId.trans hheld.id, ?_⟩
    rw [hprepared.baseVersion, hheld.version, h.version hcache, hseen]

/-- What a committed plan did: `cache` before, `after` after. -/
structure Applied (cache after : FixedExpertCache) (ticket : Ticket) : Prop where
  inverse : SlotMap.Inverse after.slotKey after.locations
  /-- Every requested key is resident at the address the plan returned for it. -/
  resident : List.Forall₂ (fun key address =>
      after.locations key = some address.slot ∧ cache.address address.slot = .ok address)
    ticket.requested ticket.plan.addresses
  apart : ∀ {key other : ExpertKey} {slot : Nat}, after.locations key = some slot →
    after.locations other = some slot → key = other
  /-- No requested key is evicted, and nobody loses a slot but by being evicted. -/
  spared : ∀ load ∈ ticket.plan.loads, ∀ old, load.evicts = some old → old ∉ ticket.requested
  kept : ∀ {key : ExpertKey} {slot : Nat}, cache.locations key = some slot →
    after.locations key = some slot ∨
      ∃ load ∈ ticket.plan.loads, load.evicts = some key ∧ load.address.slot = slot
  /-- Whoever is evicted was the least recently used among the slots that hold no requested key and
  that no earlier load of the plan has taken. -/
  victims : ∀ earlier load later, ticket.plan.loads = earlier ++ load :: later → load.evicts.isSome →
    cache.slotKey load.address.slot = load.evicts ∧
    ∀ slot, slot < cache.slots.length → slot ∉ earlier.map (·.address.slot) →
      (∀ key, cache.slotKey slot = some key → key ∉ ticket.requested) →
      cache.LessRecent load.address.slot slot

theorem applied_of_seated {cache after : FixedExpertCache} {ticket : Ticket}
    (hinv : SlotMap.Inverse cache.slotKey cache.locations)
    (hmade : cache.prepare ticket.requested = .ok ticket.plan)
    (hseated : Seated cache after ticket.plan.loads) : Applied cache after ticket := by
  have hprepared := prepare_spec hinv hmade
  have hvictims := prepare_victims hmade
  obtain ⟨placed, hplan, -⟩ := prepare_cases hmade
  have hplanned := planLoads_spec (nodup_requestedSet ticket.requested) hplan
  have hspared : ∀ load ∈ ticket.plan.loads, ∀ old, load.evicts = some old → old ∉ ticket.requested := by
    intro load hload old hold hmem
    rw [hplanned.evicts load hload] at hold
    exact (hplanned.slots_fresh load hload).unrequested old hold (mem_requestedSet.mpr hmem)
  refine ⟨hseated.inverse, ?_, fun hkey hother => hseated.inverse.slot_inj hkey hother, hspared, ?_, ?_⟩
  · rw [List.forall₂_iff_zip]
    have hplaces := List.forall₂_iff_zip.mp (prepare_places hmade)
    refine ⟨hplaces.1, ?_⟩
    intro key address hmem
    obtain ⟨slot, haddress, hplace⟩ := hplaces.2 hmem
    have hslot := address_slot haddress
    refine ⟨?_, by rw [hslot, haddress]⟩
    rw [hslot]
    rcases hplace with ⟨load, hload, rfl, rfl⟩ | ⟨hnot, hresident⟩
    · exact hseated.load_location hload
    · have hkey : key ∈ ticket.plan.requestedUnique := by
        rw [hprepared.unique]
        exact mem_requestedSet.mpr (List.of_mem_zip hmem).1
      rcases hprepared.fits.requested key hkey with hload | ⟨place, hplace, hfree⟩
      · exact absurd hload hnot
      · obtain rfl : place = slot := Option.some.inj (hplace.symm.trans hresident)
        exact hseated.resident_location hinv hresident hfree
  · intro key slot hkey
    by_cases hmem : slot ∈ ticket.plan.loads.map (·.address.slot)
    · obtain ⟨load, hload, rfl⟩ := List.mem_map.mp hmem
      refine .inr ⟨load, hload, ?_, rfl⟩
      rw [hplanned.evicts load hload]
      exact (hinv key _).mp hkey
    · exact .inl (hseated.resident_location hinv hkey hmem)
  · intro earlier load later hsplit hevicts
    have hload : load ∈ ticket.plan.loads := by
      rw [hsplit]
      exact List.mem_append_right _ List.mem_cons_self
    refine ⟨(hplanned.evicts load hload).symm, ?_⟩
    intro slot hlt hearlier hunrequested
    refine (hvictims earlier load later hsplit hevicts slot ⟨hlt, ?_, ?_⟩).2
    · rwa [List.append_nil]
    · exact fun key hkey hmem => hunrequested key hkey (mem_requestedSet.mp hmem)

/-- A plan on its own cache, with nothing committed since, is applied as a whole, or refused by the
version counter without any change. -/
theorem Inv.applied (h : d.Inv) {ticket : Ticket} (hticket : ticket ∈ d.tickets)
    {cache : FixedExpertCache} (hcache : d.caches[ticket.cache]? = some cache)
    (hseen : ticket.seen = (d.commitsOf ticket.cache).length) :
    cache.commit ticket.plan = (cache, .error .integerOverflow) ∨
      ∃ after, cache.commit ticket.plan = (after, .ok ticket.plan.addresses) ∧
        Applied cache after ticket ∧ after.version = cache.version + 1 ∧ after.cacheId = cache.cacheId := by
  obtain ⟨home, hhome, hheld⟩ := h.tickets ticket hticket
  obtain rfl : home = cache := Option.some.inj (hhome.symm.trans hcache)
  have hmade : home.prepare ticket.requested = .ok ticket.plan := by
    rw [hheld.same hseen]
    exact hheld.made
  have hcurrent := (h.current_iff hticket hcache).mpr ⟨rfl, hseen⟩
  have hinv := h.inverse hcache
  rcases commit_spec hinv hcurrent (prepare_spec hinv hmade).fits with hfull | ⟨after, hok, hseated, hversion⟩
  · exact .inl hfull
  · exact .inr ⟨after, hok, applied_of_seated hinv hmade hseated, hversion, hseated.cacheId⟩

/-! ## Runs -/

theorem commitsOf_append (d : Desk) (i j : Nat) (ticket : Ticket) :
    ({ d with committed := d.committed ++ [(i, ticket)] } : Desk).commitsOf j =
      if i = j then d.commitsOf j ++ [ticket] else d.commitsOf j := by
  unfold commitsOf
  simp only [List.filter_append, List.map_append]
  by_cases hij : i = j
  · simp [hij]
  · simp [hij]

theorem Inv.prepare (h : d.Inv) (i : Nat) (requested : List ExpertKey) :
    (d.step (.prepare i requested)).Inv := by
  cases hcache : d.caches[i]? with
  | none =>
    simp only [step, hcache]
    exact h
  | some cache =>
    cases hplan : cache.prepare requested with
    | error e =>
      simp only [step, hcache, hplan]
      exact h
    | ok plan =>
      simp only [step, hcache, hplan]
      refine ⟨h.inverse, h.ids, h.version, ?_, h.counted, h.distinct⟩
      refine List.forall_mem_append.mpr ⟨?_, List.forall_mem_singleton.mpr ?_⟩
      · intro ticket hticket
        obtain ⟨home, hhome, hheld⟩ := h.tickets ticket hticket
        exact ⟨home, hhome, hheld.made, hheld.inverse, hheld.id, hheld.version, hheld.seen, hheld.same⟩
      · exact ⟨cache, hcache, hplan, h.inverse hcache, rfl, h.version hcache, le_rfl, fun _ => rfl⟩

theorem Inv.drop (h : d.Inv) (t : Nat) : (d.step (.drop t)).Inv := by
  refine ⟨h.inverse, h.ids, h.version, ?_, h.counted, h.distinct⟩
  intro ticket hticket
  obtain ⟨home, hhome, hheld⟩ := h.tickets ticket (List.mem_of_mem_eraseIdx hticket)
  exact ⟨home, hhome, hheld.made, hheld.inverse, hheld.id, hheld.version, hheld.seen, hheld.same⟩

/-- The desk after plan `ticket` was committed to cache `i`. -/
def publish (d : Desk) (i : Nat) (after : FixedExpertCache) (ticket : Ticket) : Desk :=
  { d with caches := d.caches.set i after, committed := d.committed ++ [(i, ticket)] }

theorem publish_caches {i j : Nat} {cache after other : FixedExpertCache} {ticket : Ticket}
    (hcache : d.caches[i]? = some cache) (h : (d.publish i after ticket).caches[j]? = some other) :
    (j = i ∧ other = after) ∨ (j ≠ i ∧ d.caches[j]? = some other) := by
  have hlt : i < d.caches.length := (List.getElem?_eq_some_iff.mp hcache).1
  by_cases hj : j = i
  · subst hj
    rw [publish, List.getElem?_set_self hlt] at h
    exact .inl ⟨rfl, (Option.some.inj h).symm⟩
  · rw [publish, List.getElem?_set_ne (Ne.symm hj)] at h
    exact .inr ⟨hj, h⟩

theorem publish_commits (d : Desk) (i j : Nat) (after : FixedExpertCache) (ticket : Ticket) :
    (d.publish i after ticket).commitsOf j =
      if i = j then d.commitsOf j ++ [ticket] else d.commitsOf j :=
  commitsOf_append d i j ticket

theorem Counted.commit {cache after : FixedExpertCache} {commits : List Ticket} {ticket : Ticket}
    {addresses : List ExpertSlotAddress} (h : Counted cache commits)
    (hok : cache.commit ticket.plan = (after, .ok addresses)) : Counted after (commits ++ [ticket]) := by
  obtain ⟨hhits, hmisses⟩ := commit_counts hok
  constructor
  · rw [hhits, h.hits, Word.saturatingAdd, List.map_append, List.sum_append, List.map_singleton,
      List.sum_singleton]
    omega
  · rw [hmisses, h.misses, Word.saturatingAdd, List.map_append, List.sum_append, List.map_singleton,
      List.sum_singleton]
    omega

theorem Inv.publish (h : d.Inv) {ticket : Ticket} (hticket : ticket ∈ d.tickets)
    {cache after : FixedExpertCache} (hcache : d.caches[ticket.cache]? = some cache)
    (hok : cache.commit ticket.plan = (after, .ok ticket.plan.addresses))
    (happlied : Applied cache after ticket) (hversion : after.version = cache.version + 1)
    (hid : after.cacheId = cache.cacheId) : (d.publish ticket.cache after ticket).Inv := by
  refine ⟨?_, ?_, ?_, ?_, ?_, ?_⟩
  · intro j other hother
    rcases publish_caches hcache hother with ⟨rfl, rfl⟩ | ⟨-, hbefore⟩
    · exact happlied.inverse
    · exact h.inverse hbefore
  · intro j k a b ha hb hsame
    rcases publish_caches hcache ha with ⟨rfl, rfl⟩ | ⟨-, hbeforeA⟩ <;>
      rcases publish_caches hcache hb with ⟨rfl, rfl⟩ | ⟨-, hbeforeB⟩
    · rfl
    · exact h.ids hcache hbeforeB (hid.symm.trans hsame)
    · exact h.ids hbeforeA hcache (hsame.trans hid)
    · exact h.ids hbeforeA hbeforeB hsame
  · intro j other hother
    rw [publish_commits]
    rcases publish_caches hcache hother with ⟨rfl, rfl⟩ | ⟨hj, hbefore⟩
    · rw [if_pos rfl, List.length_append, List.length_singleton, hversion, h.version hcache]
    · rw [if_neg (Ne.symm hj), h.version hbefore]
  · intro held hmem
    obtain ⟨home, hhome, hheld⟩ := h.tickets held hmem
    have hlt : ticket.cache < d.caches.length := (List.getElem?_eq_some_iff.mp hcache).1
    by_cases heq : held.cache = ticket.cache
    · -- Whatever was planned on this cache before is out of date now.
      have hhome' : home = cache := by
        rw [heq, hcache] at hhome
        exact (Option.some.inj hhome).symm
      have hcommits : ((d.publish ticket.cache after ticket).commitsOf held.cache).length =
          (d.commitsOf held.cache).length + 1 := by
        rw [publish_commits, if_pos heq.symm, List.length_append, List.length_singleton]
      refine ⟨after, ?_, hheld.made, hheld.inverse, ?_, hheld.version, ?_, ?_⟩
      · rw [heq]
        exact List.getElem?_set_self hlt
      · rw [hheld.id, hhome', hid]
      · rw [hcommits]
        exact hheld.seen.trans (Nat.le_succ _)
      · intro hseen
        have := hheld.seen
        omega
    · have hcommits : (d.publish ticket.cache after ticket).commitsOf held.cache =
          d.commitsOf held.cache := by
        rw [publish_commits, if_neg (Ne.symm heq)]
      refine ⟨home, ?_, hheld.made, hheld.inverse, hheld.id, hheld.version, ?_, ?_⟩
      · rw [← hhome]
        exact List.getElem?_set_ne (Ne.symm heq)
      · rw [hcommits]
        exact hheld.seen
      · rw [hcommits]
        exact hheld.same
  · intro j other hother
    rw [publish_commits]
    rcases publish_caches hcache hother with ⟨rfl, rfl⟩ | ⟨hj, hbefore⟩
    · rw [if_pos rfl]
      exact (h.counted hcache).commit hok
    · rw [if_neg (Ne.symm hj)]
      exact h.counted hbefore
  · refine List.forall_mem_append.mpr ⟨h.distinct, List.forall_mem_singleton.mpr ?_⟩
    obtain ⟨home, hhome, hheld⟩ := h.tickets ticket hticket
    exact prepare_counts hheld.made

theorem set_same {i : Nat} {cache : FixedExpertCache} (hcache : d.caches[i]? = some cache) :
    ({ d with caches := d.caches.set i cache } : Desk) = d := by
  obtain ⟨hlt, rfl⟩ := List.getElem?_eq_some_iff.mp hcache
  rw [List.set_getElem_self]

theorem Inv.commit (h : d.Inv) (i t : Nat) : (d.step (.commit i t)).Inv := by
  cases hcache : d.caches[i]? with
  | none =>
    simp only [step, hcache]
    exact h
  | some cache =>
    cases hticket : d.tickets[t]? with
    | none =>
      simp only [step, hcache, hticket]
      exact h
    | some ticket =>
      have hmem := List.mem_of_getElem? hticket
      by_cases hcurrent : Current cache ticket.plan
      · obtain ⟨rfl, hseen⟩ := (h.current_iff hmem hcache).mp hcurrent
        rcases h.applied hmem hcache hseen with hfull | ⟨after, hok, happlied, hversion, hid⟩
        · simp only [step, hcache, hticket, hfull, set_same hcache]
          exact h
        · simp only [step, hcache, hticket, hok]
          exact h.publish hmem hcache hok happlied hversion hid
      · simp only [step, hcache, hticket, commit_stale hcurrent, set_same hcache]
        exact h

theorem Inv.step (h : d.Inv) (action : DeskAction) : (d.step action).Inv := by
  cases action with
  | prepare i requested => exact h.prepare i requested
  | commit i t => exact h.commit i t
  | drop t => exact h.drop t

theorem Inv.run (actions : List DeskAction) : ∀ {d : Desk}, d.Inv → (d.run actions).Inv := by
  induction actions with
  | nil => exact fun h => h
  | cons action rest ih => exact fun h => ih (h.step action)

theorem createAll_zero {specs : List (Nat × Nat)} {caches : List FixedExpertCache}
    (h : createAll 0 specs = .ok caches) : caches = [] := by
  cases specs with
  | nil => exact (Except.ok.inj h).symm
  | cons spec rest =>
    obtain ⟨slotCount, slotBytes⟩ := spec
    have hnew : ∃ e, FixedExpertCache.new 0 slotCount slotBytes = .error e := by
      unfold FixedExpertCache.new
      split
      · exact ⟨_, rfl⟩
      · exact ⟨_, rfl⟩
    obtain ⟨e, he⟩ := hnew
    rw [createAll, he] at h
    cases h

/-- New caches are empty, and their numbers follow one another without reaching zero. -/
theorem createAll_spec (specs : List (Nat × Nat)) :
    ∀ {id : Nat} {caches : List FixedExpertCache}, id < 2 ^ 64 → createAll id specs = .ok caches →
      ∀ {i : Nat} {cache : FixedExpertCache}, caches[i]? = some cache →
        cache.cacheId = id + i ∧ cache.version = 0 ∧ cache.stats = {} ∧
          (∀ slot, cache.slotKey slot = none) ∧ ∀ key, cache.locations key = none := by
  induction specs with
  | nil =>
    intro id caches _ h i cache hcache
    cases h
    cases hcache
  | cons spec rest ih =>
    intro id caches hid h i cache hcache
    obtain ⟨slotCount, slotBytes⟩ := spec
    rw [createAll] at h
    cases hnew : FixedExpertCache.new id slotCount slotBytes with
    | error e =>
      rw [hnew] at h
      cases h
    | ok first =>
      rw [hnew] at h
      cases hrest : createAll (Word.wrappingAdd 64 id 1) rest with
      | error e =>
        simp only [hrest] at h
        cases h
      | ok others =>
        simp only [hrest] at h
        cases h
        cases i with
        | zero =>
          obtain rfl : first = cache := Option.some.inj hcache
          unfold FixedExpertCache.new at hnew
          split at hnew
          · cases hnew
          split at hnew
          · cases hnew
          · cases hnew
            refine ⟨rfl, rfl, rfl, ?_, fun _ => rfl⟩
            intro slot
            simp only [slotKey, slotAt, List.getD_eq_getElem?_getD, List.getElem?_replicate]
            split <;> rfl
        | succ i =>
          have hbound : Word.wrappingAdd 64 id 1 < 2 ^ 64 := Nat.mod_lt _ (by decide)
          obtain ⟨hnumber, hempty⟩ := ih hbound hrest hcache
          refine ⟨?_, hempty⟩
          rw [hnumber]
          -- A number that wrapped would be zero, which `new` refuses.
          by_cases hwrap : id + 1 < 2 ^ 64
          · rw [Word.wrappingAdd, Nat.mod_eq_of_lt hwrap]
            omega
          · have hzero : Word.wrappingAdd 64 id 1 = 0 := by
              rw [Word.wrappingAdd, show id + 1 = 2 ^ 64 by omega, Nat.mod_self]
            rw [hzero] at hrest
            rw [createAll_zero hrest] at hcache
            cases hcache

theorem inv_created {specs : List (Nat × Nat)} {caches : List FixedExpertCache}
    (h : createAll 1 specs = .ok caches) : Inv { caches, tickets := [], committed := [] } := by
  have hspec := fun {i : Nat} {cache : FixedExpertCache} (hcache : caches[i]? = some cache) =>
    createAll_spec specs (by decide) h hcache
  refine ⟨?_, ?_, ?_, nofun, ?_, nofun⟩
  · intro i cache hcache
    obtain ⟨-, -, -, hslots, hlocations⟩ := hspec hcache
    intro key slot
    rw [hslots, hlocations]
    simp
  · intro i j a b ha hb hsame
    have hi := (hspec ha).1
    have hj := (hspec hb).1
    omega
  · intro i cache hcache
    exact (hspec hcache).2.1
  · intro i cache hcache
    obtain ⟨-, -, hstats, -⟩ := hspec hcache
    constructor
    · rw [hstats]
      rfl
    · rw [hstats]
      rfl

end Desk

/-! ## The promises -/

/-- What holds of a desk at any time. -/
structure Transactional (d : Desk) : Prop where
  inverse : ∀ cache ∈ d.caches, SlotMap.Inverse cache.slotKey cache.locations
  /-- A plan made by another cache, or before another plan was committed, is stale. -/
  stale : ∀ ticket ∈ d.tickets, ∀ {i : Nat} {cache : FixedExpertCache}, d.caches[i]? = some cache →
    ticket.cache ≠ i ∨ ticket.seen ≠ (d.commitsOf i).length →
    cache.commit ticket.plan = (cache, .error .stalePlan)
  /-- Any other is applied as a whole; only a version counter at its end refuses it, unchanged. -/
  applied : ∀ ticket ∈ d.tickets, ∀ {cache : FixedExpertCache}, d.caches[ticket.cache]? = some cache →
    ticket.seen = (d.commitsOf ticket.cache).length →
    cache.commit ticket.plan = (cache, .error .integerOverflow) ∨
      ∃ after, cache.commit ticket.plan = (after, .ok ticket.plan.addresses) ∧
        Desk.Applied cache after ticket
  /-- Hits and misses are sums over the committed plans, clamped at the largest word; each plan adds
  every distinct key of its request to one of the two. -/
  counted : ∀ {i : Nat} {cache : FixedExpertCache}, d.caches[i]? = some cache →
    Desk.Counted cache (d.commitsOf i) ∧
      ∀ ticket ∈ d.commitsOf i,
        ticket.plan.residentHits + ticket.plan.loads.length = ticket.requested.dedup.length
  workingSet : ∀ cache ∈ d.caches, ∀ requested,
    (∃ n m, cache.prepare requested = .error (.workingSet n m)) ↔
      cache.slots.length < requested.dedup.length
  /-- No commit ends in the middle: an error leaves the cache as it was, and is never the one for a
  requested key that is not there. -/
  whole : ∀ ticket ∈ d.tickets, ∀ cache ∈ d.caches, ∀ e, (cache.commit ticket.plan).2 = .error e →
    (cache.commit ticket.plan).1 = cache ∧ e ≠ .invalidCache

theorem Desk.Inv.transactional {d : Desk} (h : d.Inv) : Transactional d := by
  have hstale : ∀ ticket ∈ d.tickets, ∀ {i : Nat} {cache : FixedExpertCache}, d.caches[i]? = some cache →
      ticket.cache ≠ i ∨ ticket.seen ≠ (d.commitsOf i).length →
      cache.commit ticket.plan = (cache, .error .stalePlan) := by
    intro ticket hticket i cache hcache hold
    refine FixedExpertCache.commit_stale fun hcurrent => ?_
    obtain ⟨hi, hseen⟩ := (h.current_iff hticket hcache).mp hcurrent
    exact hold.elim (fun hne => hne hi) (fun hne => hne hseen)
  refine ⟨?_, hstale, ?_, ?_, ?_, ?_⟩
  · intro cache hmem
    obtain ⟨i, hi⟩ := List.getElem?_of_mem hmem
    exact h.inverse hi
  · intro ticket hticket cache hcache hseen
    rcases h.applied hticket hcache hseen with hfull | ⟨after, hok, happlied, -, -⟩
    · exact .inl hfull
    · exact .inr ⟨after, hok, happlied⟩
  · intro i cache hcache
    refine ⟨h.counted hcache, ?_⟩
    intro ticket hticket
    obtain ⟨entry, hentry, rfl⟩ := List.mem_map.mp hticket
    exact h.distinct entry (List.mem_filter.mp hentry).1
  · intro cache hmem requested
    obtain ⟨i, hi⟩ := List.getElem?_of_mem hmem
    exact FixedExpertCache.prepare_workingSet_iff (h.inverse hi)
  · intro ticket hticket cache hmem e he
    obtain ⟨i, hi⟩ := List.getElem?_of_mem hmem
    by_cases hcurrent : ticket.cache = i ∧ ticket.seen = (d.commitsOf i).length
    · obtain ⟨rfl, hseen⟩ := hcurrent
      rcases h.applied hticket hi hseen with hfull | ⟨after, hok, -⟩
      · rw [hfull] at he ⊢
        cases he
        exact ⟨rfl, nofun⟩
      · rw [hok] at he
        cases he
    · rw [hstale ticket hticket hi (not_and_or.mp hcurrent)] at he ⊢
      cases he
      exact ⟨rfl, nofun⟩

/-- **Plans are transactions.** Whatever is prepared, committed and dropped on caches made one after the
other, in whatever order, the desk is transactional. -/
theorem plans_transactional {specs : List (Nat × Nat)} {caches : List FixedExpertCache}
    (h : Desk.createAll 1 specs = .ok caches) (actions : List DeskAction) :
    Transactional (Desk.run { caches, tickets := [], committed := [] } actions) :=
  ((Desk.inv_created h).run actions).transactional

/-! ## Counting past the largest word

Two slots, and the same two experts requested again and again: after the first commit every commit counts
two hits. -/

def twinKeys : List ExpertKey := [⟨0, 1⟩, ⟨0, 2⟩]

def twinRound : List DeskAction := [.prepare 0 twinKeys, .commit 0 0, .drop 0]

def twinRounds : Nat → List DeskAction
  | 0 => []
  | n + 1 => twinRounds n ++ twinRound

def twinNew : FixedExpertCache where
  cacheId := 1
  version := 0
  slotBytes := 1
  slots := [⟨none, 0⟩, ⟨none, 0⟩]
  locations := fun _ => none
  step := 0
  stats := {}

/-- The cache after `n + 1` commits. -/
def twinCache (n : Nat) : FixedExpertCache where
  cacheId := 1
  version := n + 1
  slotBytes := 1
  slots := [⟨some ⟨0, 1⟩, n + 1⟩, ⟨some ⟨0, 2⟩, n + 1⟩]
  locations := Function.update (Function.update (fun _ => none) ⟨0, 1⟩ (some 0)) ⟨0, 2⟩ (some 1)
  step := n + 1
  stats := { hits := min (2 * n) (2 ^ 64 - 1), misses := 2, evictions := 0, bytesLoaded := 2 }

def twinPlan (n : Nat) : ExpertResidencyPlan where
  cacheId := 1
  baseVersion := n + 1
  step := n + 2
  requestedUnique := twinKeys
  residentHits := 2
  addresses := [⟨0, 0⟩, ⟨1, 1⟩]
  loads := []

theorem twin_requestedSet : FixedExpertCache.requestedSet twinKeys = twinKeys := by decide

theorem twin_prepare {n : Nat} (h : n + 2 < 2 ^ 64) : (twinCache n).prepare twinKeys = .ok (twinPlan n) := by
  have hclock : Word.checkedAdd 64 (twinCache n).step 1 = some (n + 2) :=
    Word.checkedAdd_eq_some.mpr ⟨h, rfl⟩
  unfold FixedExpertCache.prepare
  simp only [twin_requestedSet, hclock]
  rfl

theorem twin_commit {n : Nat} (h : n + 2 < 2 ^ 64) :
    (twinCache n).commit (twinPlan n) = (twinCache (n + 1), .ok [⟨0, 0⟩, ⟨1, 1⟩]) := by
  have hclock : Word.checkedAdd 64 (twinCache n).version 1 = some (n + 2) :=
    Word.checkedAdd_eq_some.mpr ⟨h, rfl⟩
  have hhits : Word.saturatingAdd 64 (min (2 * n) (2 ^ 64 - 1)) 2 = min (2 * (n + 1)) (2 ^ 64 - 1) := by
    unfold Word.saturatingAdd
    omega
  have hcurrent : ¬ ((twinPlan n).cacheId ≠ (twinCache n).cacheId ∨
      (twinPlan n).baseVersion ≠ (twinCache n).version) := by
    simp [twinPlan, twinCache]
  unfold FixedExpertCache.commit
  simp only [if_neg hcurrent, hclock]
  show ({ (twinCache (n + 1)) with
      stats := { hits := Word.saturatingAdd 64 (min (2 * n) (2 ^ 64 - 1)) 2, misses := 2, evictions := 0,
                 bytesLoaded := 2 } }, _) = (twinCache (n + 1), _)
  rw [hhits]
  rfl

structure Twins (n : Nat) (d : Desk) : Prop where
  caches : d.caches = [twinCache n]
  tickets : d.tickets = []
  count : d.committed.length = n + 1
  requests : ∀ entry ∈ d.committed, entry.1 = 0 ∧ entry.2.requested = twinKeys

theorem Twins.round {n : Nat} {d : Desk} (h : Twins n d) (hn : n + 2 < 2 ^ 64) :
    Twins (n + 1) (d.run twinRound) := by
  have hprepare := twin_prepare hn
  have hcommit := twin_commit hn
  obtain ⟨caches, tickets, committed⟩ := d
  obtain rfl : caches = [twinCache n] := h.caches
  obtain rfl : tickets = [] := h.tickets
  have hrun : Desk.run ⟨[twinCache n], [], committed⟩ twinRound =
      ⟨[twinCache (n + 1)], [], committed ++ [(0,
        ⟨0, twinKeys, twinPlan n, (Desk.commitsOf ⟨[twinCache n], [], committed⟩ 0).length, twinCache n⟩)]⟩ := by
    simp [Desk.run, twinRound, Desk.step, hprepare, hcommit]
  rw [hrun]
  refine ⟨rfl, rfl, ?_, ?_⟩
  · show (committed ++ _).length = _
    rw [List.length_append, List.length_singleton, h.count]
  · exact List.forall_mem_append.mpr ⟨h.requests, List.forall_mem_singleton.mpr ⟨rfl, rfl⟩⟩

theorem twins_rounds (n : Nat) :
    n + 1 < 2 ^ 64 → Twins n (Desk.run ⟨[twinNew], [], []⟩ (twinRounds (n + 1))) := by
  induction n with
  | zero =>
    intro _
    exact ⟨rfl, rfl, rfl, List.forall_mem_singleton.mpr ⟨rfl, rfl⟩⟩
  | succ n ih =>
    intro hn
    have hbefore := ih (by omega)
    have hsplit : Desk.run ⟨[twinNew], [], []⟩ (twinRounds (n + 1 + 1)) =
        (Desk.run ⟨[twinNew], [], []⟩ (twinRounds (n + 1))).run twinRound := by
      simp only [Desk.run, twinRounds, List.foldl_append]
    rw [hsplit]
    exact hbefore.round hn

theorem Twins.requested {n : Nat} {d : Desk} (h : Twins n d) :
    ((d.commitsOf 0).map fun ticket => ticket.requested.dedup.length).sum = 2 * (n + 1) := by
  have hall : d.committed.filter (fun entry => entry.1 == 0) = d.committed := by
    refine List.filter_eq_self.mpr fun entry hentry => ?_
    rw [(h.requests entry hentry).1]
    rfl
  have htwo : (d.commitsOf 0).map (fun ticket => ticket.requested.dedup.length) =
      List.replicate (n + 1) 2 := by
    rw [Desk.commitsOf, hall, List.map_map, ← h.count]
    refine List.eq_replicate_iff.mpr ⟨List.length_map _, ?_⟩
    intro size hsize
    obtain ⟨entry, hentry, rfl⟩ := List.mem_map.mp hsize
    show entry.2.requested.dedup.length = 2
    rw [(h.requests entry hentry).2]
    decide
  rw [htwo, List.sum_replicate_nat, Nat.mul_comm]

/-- After `2 ^ 63 + 1` commits of two keys the hits have reached the largest word, and hits and misses
together no longer count every key. -/
theorem twin_counts_saturate :
    Desk.createAll 1 [(2, 1)] = .ok [twinNew] ∧
    ¬ ∀ (i : Nat) (cache : FixedExpertCache),
      (Desk.run ⟨[twinNew], [], []⟩ (twinRounds (2 ^ 63 + 1))).caches[i]? = some cache →
      cache.stats.hits + cache.stats.misses =
        (((Desk.run ⟨[twinNew], [], []⟩ (twinRounds (2 ^ 63 + 1))).commitsOf i).map
          fun ticket => ticket.requested.dedup.length).sum := by
  refine ⟨rfl, fun hcounts => ?_⟩
  have htwins := twins_rounds (2 ^ 63) (by decide)
  have hat : (Desk.run ⟨[twinNew], [], []⟩ (twinRounds (2 ^ 63 + 1))).caches[0]? =
      some (twinCache (2 ^ 63)) := by
    rw [htwins.caches]
    rfl
  have hsum := hcounts 0 _ hat
  rw [htwins.requested] at hsum
  have hhits : (twinCache (2 ^ 63)).stats.hits = 2 ^ 64 - 1 := by decide
  have hmisses : (twinCache (2 ^ 63)).stats.misses = 2 := rfl
  rw [hhits, hmisses] at hsum
  exact absurd hsum (by decide)

theorem plans_transactional_twins :
    Transactional (Desk.run ⟨[twinNew], [], []⟩ (twinRounds 2)) :=
  plans_transactional (show Desk.createAll 1 [(2, 1)] = .ok [twinNew] from rfl) (twinRounds 2)

end Spark.Fabric
