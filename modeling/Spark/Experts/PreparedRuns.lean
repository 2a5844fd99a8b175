import Spark.Experts.Prepared

/-!
# Runs of the prepared cache

Any number of `ensure_keys` calls from a new cache, over any ranges, with a loader that refuses, fails
with the fill slots in any state, or loads. The world carries the bytes of the slots and, beside the
code's own marks, the slots used so far in their order.

* **`TierWorld.Inv`** — table and index are mutually inverse, every resident slot holds its expert, and the
  marks of resident slots say when they were used last.
* **`prepared_residency`** — so it is after every run, and what one more call then does.
-/

namespace Spark.Experts

open Fabric SlotMap

variable {β : Type}

structure TierWorld (β : Type) where
  tier : Tier β
  uses : List Nat

/-- The slots a call uses: those it resolved, if its fills were loaded. -/
def EnsureCall.used (call : EnsureCall β) (cache : PreparedCache) : List Nat :=
  match cache.planFills call.keys call.firstSlot call.slotCount, call.loader with
  | .ok plan, .loads => plan.resolved
  | _, _ => []

variable (packed : ExpertKey → β)

def TierWorld.step (w : TierWorld β) (call : EnsureCall β) : TierWorld β where
  tier := (ensureKeys packed w.tier call).2
  uses := w.uses ++ call.used w.tier.cache

def TierWorld.run (w : TierWorld β) (calls : List (EnsureCall β)) : TierWorld β := calls.foldl (TierWorld.step packed) w

structure TierWorld.Inv (w : TierWorld β) : Prop where
  inverse : Inverse w.tier.cache.slotKeys w.tier.cache.residents
  bounded : ∀ {slot : Nat} {key : ExpertKey}, w.tier.cache.slotKeys slot = some key →
    slot < w.tier.cache.capacity
  bytes : ∀ {slot : Nat} {key : ExpertKey}, w.tier.cache.slotKeys slot = some key →
    w.tier.bank slot = packed key
  recency : ∀ {slot : Nat}, (w.tier.cache.slotKeys slot).isSome →
    w.tier.cache.lastUsed slot = lastUse w.uses slot
  clock : w.tier.cache.tick = w.uses.length

variable {packed} {w : TierWorld β} {call : EnsureCall β}

theorem countCall_frame (cache : PreparedCache) (plan : FillPlan) :
    (cache.countCall plan).2.slotKeys = cache.slotKeys ∧
      (cache.countCall plan).2.residents = cache.residents ∧
      (cache.countCall plan).2.lastUsed = cache.lastUsed ∧ (cache.countCall plan).2.tick = cache.tick ∧
      (cache.countCall plan).2.capacity = cache.capacity ∧
      ∀ e, (cache.countCall plan).1 = .error e → e = .integerOverflow := by
  unfold PreparedCache.countCall
  cases Word.checkedAdd 64 cache.hits plan.hits with
  | none => exact ⟨rfl, rfl, rfl, rfl, rfl, fun _ h => (Except.error.inj h).symm⟩
  | some hits =>
    cases Word.checkedAdd 64 cache.misses plan.fills.length with
    | none => exact ⟨rfl, rfl, rfl, rfl, rfl, fun _ h => (Except.error.inj h).symm⟩
    | some misses =>
      cases Word.checkedAdd 64 cache.evictions plan.evictions with
      | none => exact ⟨rfl, rfl, rfl, rfl, rfl, fun _ h => (Except.error.inj h).symm⟩
      | some evictions => exact ⟨rfl, rfl, rfl, rfl, rfl, nofun⟩

theorem resolved_of_countCall {cache : PreparedCache} {plan : FillPlan} {slots : List Nat}
    (h : (cache.countCall plan).1 = .ok slots) : plan.resolved = slots := by
  unfold PreparedCache.countCall at h
  split at h
  · cases h
  split at h
  · cases h
  split at h
  · cases h
  · exact Except.ok.inj h

theorem lastUse_append_of_not_mem (later : List Nat) :
    ∀ {uses : List Nat} {slot : Nat}, slot ∉ later → lastUse (uses ++ later) slot = lastUse uses slot := by
  induction later with
  | nil => exact fun _ => by rw [List.append_nil]
  | cons used rest ih =>
    intro uses slot h
    rw [List.mem_cons, not_or] at h
    rw [List.append_cons uses used rest, ih h.2, lastUse_concat, if_neg h.1]

variable {plan : FillPlan} {keys : List ExpertKey} {firstSlot slotCount : Nat}

/-- A key that is in its slot keeps it: no fill goes there. -/
theorem hit_not_filled {cache : PreparedCache} (hinverse : Inverse cache.slotKeys cache.residents)
    (hplanned : cache.Planned keys firstSlot slotCount keys plan) {key : ExpertKey} {slot : Nat}
    (hkey : key ∈ keys) (hslot : cache.residents key = some slot) : slot ∉ plan.fills.map (·.slot) := by
  intro hmem
  obtain ⟨fill, hfill, rfl⟩ := List.mem_map.mp hmem
  have hfillable := hplanned.fillable fill hfill
  refine hfillable.unwanted key ?_ hkey
  rw [← hfillable.occupant, (hinverse key fill.slot).mp hslot]

/-- The cache and the bytes after the fills of a plan are loaded and published. -/
def loadedTier (packed : ExpertKey → β) (tier : Tier β) (plan : FillPlan) : Tier β where
  cache := ((tier.cache.publish plan).countCall plan).2
  bank := loadFills packed tier.bank plan.fills

theorem TierWorld.Inv.loaded (h : w.Inv packed)
    (hplanned : w.tier.cache.Planned keys firstSlot slotCount keys plan)
    (hrange : firstSlot + slotCount ≤ w.tier.cache.capacity) :
    TierWorld.Inv packed { tier := loadedTier packed w.tier plan, uses := w.uses ++ plan.resolved } ∧
      ∀ key ∈ keys, ∀ slot, w.tier.cache.Resolves plan.fills key slot →
        (loadedTier packed w.tier plan).cache.residents key = some slot := by
  obtain ⟨hslotKeys, hresidents, hlastUsed, htick, hcapacity, -⟩ :=
    countCall_frame (w.tier.cache.publish plan) plan
  obtain ⟨hinverse, hplaced, hkept, hmarks, hsize⟩ :=
    PreparedCache.publishFills_spec plan.fills h.inverse hplanned.slots hplanned.keys
      fun fill hfill => ⟨(hplanned.fillable fill hfill).absent, (hplanned.fillable fill hfill).occupant⟩
  -- The published table, in terms of the one before.
  have htable : ∀ slot, (loadedTier packed w.tier plan).cache.slotKeys slot =
      (plan.fills.foldl PreparedCache.publishFill w.tier.cache).slotKeys slot := fun slot =>
    congrFun hslotKeys slot
  have hbound : (loadedTier packed w.tier plan).cache.capacity = w.tier.cache.capacity :=
    hcapacity.trans hsize
  have hused : ∀ slot, (loadedTier packed w.tier plan).cache.lastUsed slot =
      if slot ∈ plan.resolved then lastUse (w.uses ++ plan.resolved) slot
      else w.tier.cache.lastUsed slot := by
    intro slot
    have hmark := hplanned.touched w.tier.cache.lastUsed w.uses h.clock.symm slot
    rw [← hmark, ← hmarks]
    exact congrFun hlastUsed slot
  have hindex : Inverse (loadedTier packed w.tier plan).cache.slotKeys
      (loadedTier packed w.tier plan).cache.residents := by
    show Inverse ((w.tier.cache.publish plan).countCall plan).2.slotKeys
      ((w.tier.cache.publish plan).countCall plan).2.residents
    rw [hslotKeys, hresidents]
    exact hinverse
  refine ⟨⟨hindex, ?_, ?_, ?_, ?_⟩, ?_⟩
  · intro slot key hkey
    show slot < (loadedTier packed w.tier plan).cache.capacity
    rw [hbound]
    by_cases hfilled : slot ∈ plan.fills.map (·.slot)
    · obtain ⟨fill, hfill, rfl⟩ := List.mem_map.mp hfilled
      have := hplanned.range fill.slot (hplanned.taken fill hfill).1
      omega
    · have hbefore := (hkept slot hfilled).symm.trans ((htable slot).symm.trans hkey)
      exact h.bounded hbefore
  · intro slot key hkey
    show loadFills packed w.tier.bank plan.fills slot = packed key
    by_cases hfilled : slot ∈ plan.fills.map (·.slot)
    · obtain ⟨fill, hfill, rfl⟩ := List.mem_map.mp hfilled
      have hsame : some fill.key = some key :=
        (hplaced fill hfill).symm.trans ((htable fill.slot).symm.trans hkey)
      rw [loadFills_of_mem _ hplanned.slots fill hfill, Option.some.inj hsame]
    · have hbefore := (hkept slot hfilled).symm.trans ((htable slot).symm.trans hkey)
      rw [loadFills_of_not_mem _ hfilled, h.bytes hbefore]
  · intro slot hslot
    show (loadedTier packed w.tier plan).cache.lastUsed slot = lastUse (w.uses ++ plan.resolved) slot
    rw [hused slot]
    by_cases hresolved : slot ∈ plan.resolved
    · rw [if_pos hresolved]
    · have hfilled : slot ∉ plan.fills.map (·.slot) := by
        intro hmem
        obtain ⟨fill, hfill, rfl⟩ := List.mem_map.mp hmem
        exact hresolved (hplanned.taken fill hfill).1
      have hbefore : (w.tier.cache.slotKeys slot).isSome := by
        rw [← hkept slot hfilled, ← htable slot]
        exact hslot
      rw [if_neg hresolved, h.recency hbefore, lastUse_append_of_not_mem _ hresolved]
  · show ((w.tier.cache.publish plan).countCall plan).2.tick = (w.uses ++ plan.resolved).length
    rw [htick, List.length_append, ← h.clock]
    exact hplanned.clock
  · intro key hkey slot hresolves
    refine (hindex key slot).mpr ?_
    rw [htable]
    rcases hresolves with hresident | ⟨fill, hfill, rfl, rfl⟩
    · rw [hkept slot (hit_not_filled h.inverse hplanned hkey hresident)]
      exact (h.inverse key slot).mp hresident
    · exact hplaced fill hfill

theorem TierWorld.Inv.failed (h : w.Inv packed) (left : Nat → β) (plan : FillPlan) :
    TierWorld.Inv packed
      { tier :=
          { cache := plan.fills.foldl .dropFill w.tier.cache, bank := scribble w.tier.bank left plan.fills }
        uses := w.uses } := by
  obtain ⟨hinverse, hkeys, hused, htick, hcapacity⟩ := PreparedCache.dropFills_spec plan.fills h.inverse
  -- Whoever is resident now was so before, in a slot that was not filled.
  have hbefore : ∀ slot, ((plan.fills.foldl PreparedCache.dropFill w.tier.cache).slotKeys slot).isSome →
      slot ∉ plan.fills.map (·.slot) ∧
        (plan.fills.foldl PreparedCache.dropFill w.tier.cache).slotKeys slot = w.tier.cache.slotKeys slot := by
    intro slot hslot
    rw [hkeys] at hslot ⊢
    by_cases hmem : slot ∈ plan.fills.map (·.slot)
    · rw [if_pos hmem] at hslot
      cases hslot
    · exact ⟨hmem, if_neg hmem⟩
  refine ⟨hinverse, ?_, ?_, ?_, ?_⟩
  · intro slot key hkey
    obtain ⟨-, hsame⟩ := hbefore slot (Option.isSome_of_eq_some hkey)
    show slot < (plan.fills.foldl PreparedCache.dropFill w.tier.cache).capacity
    rw [hcapacity]
    exact h.bounded (hsame.symm.trans hkey)
  · intro slot key hkey
    obtain ⟨hmem, hsame⟩ := hbefore slot (Option.isSome_of_eq_some hkey)
    show scribble w.tier.bank left plan.fills slot = packed key
    rw [scribble, if_neg hmem, h.bytes (hsame.symm.trans hkey)]
  · intro slot hslot
    obtain ⟨hmem, hsame⟩ := hbefore slot hslot
    show (plan.fills.foldl PreparedCache.dropFill w.tier.cache).lastUsed slot = lastUse w.uses slot
    rw [hused slot hmem]
    refine h.recency ?_
    rw [← hsame]
    exact hslot
  · exact htick.trans h.clock

theorem TierWorld.Inv.step (h : w.Inv packed) (call : EnsureCall β) : (w.step packed call).Inv packed := by
  unfold TierWorld.step ensureKeys EnsureCall.used
  rcases PreparedCache.planFills_spec h.inverse call.keys call.firstSlot call.slotCount with
    ⟨plan, hplan, -, hrange, hplanned⟩ | ⟨e, he, -⟩
  · rw [hplan]
    cases call.loader with
    | refuses =>
      simp only [List.append_nil]
      exact h
    | fails left =>
      simp only [List.append_nil]
      exact h.failed left plan
    | loads => exact (h.loaded hplanned hrange).1
  · rw [he]
    simp only [List.append_nil]
    exact h

theorem TierWorld.Inv.run (calls : List (EnsureCall β)) :
    ∀ {w : TierWorld β}, w.Inv packed → (w.run packed calls).Inv packed := by
  induction calls with
  | nil => exact fun h => h
  | cons call rest ih => exact fun h => ih (h.step call)

/-! ## What one more call does -/

/-- What a call does to a world, by the way it ends. -/
structure Ensures (packed : ExpertKey → β) (w : TierWorld β) (call : EnsureCall β) : Prop where
  /-- On `Ok` each key is in the slot answered for it, in the order of the request, with its bytes. -/
  answered : ∀ slots, (ensureKeys packed w.tier call).1 = .ok slots →
    List.Forall₂
      (fun key slot => call.firstSlot ≤ slot ∧ slot < call.firstSlot + call.slotCount ∧
        slot < w.tier.cache.capacity ∧ (ensureKeys packed w.tier call).2.cache.residents key = some slot ∧
        (ensureKeys packed w.tier call).2.bank slot = packed key) call.keys slots ∧
      call.keys.Nodup ∧ slots.Nodup
  victim : (ensureKeys packed w.tier call).1 ≠ .error .noPreparedVictim
  /-- A failed fill empties the slots reserved for the fills, and those only; every hit stays. -/
  failed : ∀ plan left, w.tier.cache.planFills call.keys call.firstSlot call.slotCount = .ok plan →
    call.loader = .fails left →
    (∀ slot, (ensureKeys packed w.tier call).2.cache.slotKeys slot =
      if slot ∈ plan.fills.map (·.slot) then none else w.tier.cache.slotKeys slot) ∧
    ∀ key ∈ call.keys, ∀ slot, w.tier.cache.residents key = some slot →
      (ensureKeys packed w.tier call).2.cache.residents key = some slot
  /-- Whoever is dropped for a fill was used least recently of all the slots of the range that neither
  hold a requested key nor are taken by an earlier fill of the call. -/
  leastRecent : ∀ plan, w.tier.cache.planFills call.keys call.firstSlot call.slotCount = .ok plan →
    ∀ earlier fill later, plan.fills = earlier ++ fill :: later → fill.evicted.isSome →
      w.tier.cache.slotKeys fill.slot = fill.evicted ∧
      ∀ slot, call.firstSlot ≤ slot → slot < call.firstSlot + call.slotCount →
        slot ∉ earlier.map (·.slot) →
        (∀ resident, w.tier.cache.slotKeys slot = some resident → resident ∉ call.keys) →
        lastUse w.uses fill.slot ≤ lastUse w.uses slot
  /-- A call that plans nothing, or whose loader does nothing, changes nothing. -/
  unchanged : (∀ plan, w.tier.cache.planFills call.keys call.firstSlot call.slotCount ≠ .ok plan) ∨
    call.loader = .refuses → (ensureKeys packed w.tier call).2 = w.tier

/-- The victims of a plan were used least recently. -/
theorem TierWorld.Inv.leastRecent (h : w.Inv packed)
    (hplanned : w.tier.cache.Planned keys firstSlot slotCount keys plan) {earlier later : List Fill}
    {fill : Fill} (hsplit : plan.fills = earlier ++ fill :: later) (hevicted : fill.evicted.isSome) :
    w.tier.cache.slotKeys fill.slot = fill.evicted ∧
      ∀ slot, firstSlot ≤ slot → slot < firstSlot + slotCount → slot ∉ earlier.map (·.slot) →
        (∀ resident, w.tier.cache.slotKeys slot = some resident → resident ∉ keys) →
        lastUse w.uses fill.slot ≤ lastUse w.uses slot := by
  have hfill : fill ∈ plan.fills := by
    rw [hsplit]
    exact List.mem_append_right _ List.mem_cons_self
  have hoccupant := (hplanned.fillable fill hfill).occupant
  refine ⟨hoccupant, ?_⟩
  intro slot hlow hhigh hearlier hunwanted
  obtain ⟨hresident, hle⟩ := hplanned.victims earlier fill later hsplit hevicted slot hlow hhigh hearlier
    hunwanted
  rwa [h.recency hresident, h.recency (by rw [hoccupant]; exact hevicted)] at hle

theorem TierWorld.Inv.ensures (h : w.Inv packed) (call : EnsureCall β) : Ensures packed w call := by
  rcases PreparedCache.planFills_spec h.inverse call.keys call.firstSlot call.slotCount with
    ⟨plan, hplan, hnodup, hrange, hplanned⟩ | ⟨e, he, hne⟩
  · -- Where the loader loads, the call ends with the counters of the published plan.
    have hloads : call.loader = .loads → ensureKeys packed w.tier call =
        (((w.tier.cache.publish plan).countCall plan).1, loadedTier packed w.tier plan) := by
      intro hloader
      simp only [ensureKeys, hplan, hloader, loadedTier]
    refine ⟨?_, ?_, ?_, ?_, ?_⟩
    · intro slots hslots
      cases hloader : call.loader with
      | refuses => simp [ensureKeys, hplan, hloader] at hslots
      | fails left => simp [ensureKeys, hplan, hloader] at hslots
      | loads =>
        obtain ⟨hinv, hresidents⟩ := h.loaded hplanned hrange
        rw [hloads hloader] at hslots ⊢
        obtain rfl := resolved_of_countCall hslots
        refine ⟨?_, hnodup, hplanned.apart⟩
        rw [List.forall₂_iff_zip]
        refine ⟨hplanned.resolved.length_eq, ?_⟩
        intro key slot hmem
        have hslot := hplanned.range slot (List.of_mem_zip hmem).2
        have hat := hresidents key (List.of_mem_zip hmem).1 slot
          ((List.forall₂_iff_zip.mp hplanned.resolved).2 hmem)
        have hkey := (hinv.inverse key slot).mp hat
        exact ⟨hslot.1, hslot.2, by omega, hat, hinv.bytes hkey⟩
    · intro hvictim
      cases hloader : call.loader with
      | refuses => simp [ensureKeys, hplan, hloader] at hvictim
      | fails left => simp [ensureKeys, hplan, hloader] at hvictim
      | loads =>
        rw [hloads hloader] at hvictim
        have := (countCall_frame (w.tier.cache.publish plan) plan).2.2.2.2.2 _ hvictim
        cases this
    · intro plan' left hplan' hloader
      rw [hplan] at hplan'
      cases hplan'
      have hfails : (ensureKeys packed w.tier call).2.cache =
          plan.fills.foldl .dropFill w.tier.cache := by
        simp only [ensureKeys, hplan, hloader]
      obtain ⟨hinverse, hkeys, -⟩ := PreparedCache.dropFills_spec plan.fills h.inverse
      rw [hfails]
      refine ⟨hkeys, ?_⟩
      intro key hkey slot hslot
      refine (hinverse key slot).mpr ?_
      rw [hkeys, if_neg (hit_not_filled h.inverse hplanned hkey hslot)]
      exact (h.inverse key slot).mp hslot
    · intro plan' hplan' earlier fill later hsplit hevicted
      rw [hplan] at hplan'
      cases hplan'
      exact h.leastRecent hplanned hsplit hevicted
    · rintro (hnone | hloader)
      · exact absurd hplan (hnone plan)
      · simp only [ensureKeys, hplan, hloader]
  · have hensured : ensureKeys packed w.tier call = (.error e, w.tier) := by simp only [ensureKeys, he]
    refine ⟨?_, ?_, ?_, ?_, ?_⟩
    · rw [hensured]
      nofun
    · rw [hensured]
      exact fun hvictim => hne (Except.error.inj hvictim)
    · intro plan left hplan
      rw [he] at hplan
      cases hplan
    · intro plan hplan
      rw [he] at hplan
      cases hplan
    · intro _
      rw [hensured]

/-- **Residency of the prepared cache.** After every run from a new cache, slot table and index are
mutually inverse and every resident slot holds the packed bytes of its key; and every further call ends
as `Ensures` says. -/
theorem prepared_residency (packed : ExpertKey → β) {capacity : Nat} {cache : PreparedCache}
    (hcreate : PreparedCache.create capacity = .ok cache) (bank : Nat → β) (calls : List (EnsureCall β)) :
    Inverse (TierWorld.run packed ⟨⟨cache, bank⟩, []⟩ calls).tier.cache.slotKeys
        (TierWorld.run packed ⟨⟨cache, bank⟩, []⟩ calls).tier.cache.residents ∧
      (∀ slot key, (TierWorld.run packed ⟨⟨cache, bank⟩, []⟩ calls).tier.cache.slotKeys slot = some key →
        (TierWorld.run packed ⟨⟨cache, bank⟩, []⟩ calls).tier.bank slot = packed key) ∧
      ∀ call, Ensures packed (TierWorld.run packed ⟨⟨cache, bank⟩, []⟩ calls) call := by
  have hnew : TierWorld.Inv packed ⟨⟨cache, bank⟩, []⟩ := by
    unfold PreparedCache.create at hcreate
    split at hcreate
    · cases hcreate
    · cases hcreate
      exact ⟨inverse_empty, nofun, nofun, nofun, rfl⟩
  have hinv := hnew.run calls
  exact ⟨hinv.inverse, fun _ _ hkey => hinv.bytes hkey, hinv.ensures⟩

/-- A new cache of two slots. -/
def pairCache : PreparedCache where
  capacity := 2
  residents := fun _ => none
  slotKeys := fun _ => none
  lastUsed := fun _ => 0
  tick := 0
  hits := 0
  misses := 0
  evictions := 0

/-- Two experts are loaded, and a load over one of them fails; the next call finds the other, and has the slot back. -/
theorem prepared_residency_sample :
    (ensureKeys (fun key => key.expert)
      (TierWorld.run (fun key => key.expert) ⟨⟨pairCache, fun _ => 0⟩, []⟩
        [⟨[⟨0, 7⟩, ⟨0, 8⟩], 0, 2, .loads⟩, ⟨[⟨0, 9⟩], 0, 2, .fails fun _ => 0⟩]).tier
      ⟨[⟨0, 8⟩, ⟨0, 9⟩], 0, 2, .loads⟩).1 = .ok [1, 0] ∧
    Ensures (fun key => key.expert)
      (TierWorld.run (fun key => key.expert) ⟨⟨pairCache, fun _ => 0⟩, []⟩
        [⟨[⟨0, 7⟩, ⟨0, 8⟩], 0, 2, .loads⟩, ⟨[⟨0, 9⟩], 0, 2, .fails fun _ => 0⟩])
      ⟨[⟨0, 8⟩, ⟨0, 9⟩], 0, 2, .loads⟩ :=
  ⟨by decide +kernel, (prepared_residency (fun key => key.expert)
    (show PreparedCache.create 2 = .ok pairCache from rfl) (fun _ => 0)
    [⟨[⟨0, 7⟩, ⟨0, 8⟩], 0, 2, .loads⟩, ⟨[⟨0, 9⟩], 0, 2, .fails fun _ => 0⟩]).2.2 _⟩

end Spark.Experts
