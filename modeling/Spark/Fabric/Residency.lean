import Spark.Fabric.ExpertCache

/-!
# Expert bytes and the residency map

The protocol around `FixedExpertCache`: any number of plans may be outstanding on one cache;
the I/O layer writes the experts of a plan's loads into their slots one after the other; a
fully written plan may be committed, and any plan may be dropped. `World` pairs the cache with
the bytes of its slots, and `ResidentBytes` says that every expert a later `prepare` reports
as a hit has its own bytes at the address it is given.

Fills happen before the metadata moves, so the property is not kept by every interleaving:
`abandoned_fill_corrupts_resident` is a run that loses it. `fillAllowed` names the fills that are
harmless, and `resident_bytes_of_allowedRun` shows that runs of such fills keep the property.
-/

namespace Spark.Fabric

open FixedExpertCache

/-- A plan that is neither committed nor dropped, with the number of loads already written. -/
structure Outstanding where
  plan : ExpertResidencyPlan
  filled : Nat

/-- The cache, the contents of each slot, and the outstanding plans. -/
structure World (β : Type) where
  cache : FixedExpertCache
  bytes : Nat → β
  plans : List Outstanding

inductive Action where
  | prepare (requested : List ExpertKey)
  | fill (plan : Nat)
  | commit (plan : Nat)
  | drop (plan : Nat)

variable {β : Type} (content : ExpertKey → β)

/-- One step of the protocol; `content` gives the bytes of each expert. -/
def step (w : World β) : Action → World β
  | .prepare requested =>
    match w.cache.prepare requested with
    | .error _ => w
    | .ok plan => { w with plans := w.plans ++ [⟨plan, 0⟩] }
  | .fill i =>
    match w.plans[i]? with
    | none => w
    | some o =>
      match o.plan.loads[o.filled]? with
      | none => w
      | some load =>
        { w with
          bytes := Function.update w.bytes load.address.slot (content load.key)
          plans := w.plans.set i { o with filled := o.filled + 1 } }
  | .commit i =>
    match w.plans[i]? with
    | none => w
    | some o =>
      -- committed only after every load was written
      if o.filled = o.plan.loads.length then
        { w with cache := (w.cache.commit o.plan).1, plans := w.plans.eraseIdx i }
      else w
  | .drop i => { w with plans := w.plans.eraseIdx i }

def run (w : World β) (actions : List Action) : World β := actions.foldl (step content) w

/-- Every requested expert that `prepare` serves without a load has its own bytes at the
address it returns. -/
def ResidentBytes (w : World β) : Prop :=
  ∀ requested plan, w.cache.prepare requested = .ok plan →
    ∀ (i : Nat) key address, requested[i]? = some key → plan.addresses[i]? = some address →
      key ∉ plan.loads.map (·.key) → w.bytes address.slot = content key

/-! ## The run that loses an expert

One slot, expert `⟨0, 1⟩` resident. A plan for `⟨0, 2⟩` is filled and then dropped, as after a
failed checksum; the cache still reports the first expert as a hit in the overwritten slot. -/

def abandonedFill : List Action :=
  [.prepare [⟨0, 1⟩], .fill 0, .commit 0, .prepare [⟨0, 2⟩], .fill 0, .drop 0]

def singleSlot : FixedExpertCache where
  cacheId := 1
  version := 0
  slotBytes := 4096
  slots := [⟨none, 0⟩]
  locations := fun _ => none
  step := 0
  stats := {}

theorem abandoned_fill_corrupts_resident :
    FixedExpertCache.new 1 1 4096 = .ok singleSlot ∧
    ¬ ResidentBytes id (run id ⟨singleSlot, fun _ => ⟨9, 9⟩, []⟩ abandonedFill) := by
  refine ⟨rfl, fun h => ?_⟩
  have hhit := h [⟨0, 1⟩]
    { cacheId := 1, baseVersion := 1, step := 2, requestedUnique := [⟨0, 1⟩], residentHits := 1
      addresses := [⟨0, 0⟩], loads := [] }
    (by decide +kernel) 0 ⟨0, 1⟩ ⟨0, 0⟩ rfl rfl (by simp)
  exact absurd hhit (by decide +kernel)

/-! ## Harmless fills -/

/-- The load about to be written may go to its slot: no other expert is resident there, and no
other plan that can still be committed has written another expert into it. -/
def fillAllowed (w : World β) (i : Nat) : Bool :=
  match w.plans[i]? with
  | none => true
  | some o =>
    match o.plan.loads[o.filled]? with
    | none => true
    | some load =>
      (match w.cache.slotKey load.address.slot with
        | none => true
        | some resident => resident == load.key) &&
      (List.range w.plans.length).all fun j =>
        j == i ||
          match w.plans[j]? with
          | none => true
          | some other =>
            !decide (Current w.cache other.plan) ||
              (other.plan.loads.take other.filled).all fun written =>
                written.address.slot != load.address.slot || written.key == load.key

def stepAllowed (w : World β) : Action → Bool
  | .fill i => fillAllowed w i
  | _ => true

/-- Every step of the run is allowed in the state it is taken from. -/
def allowedRun (w : World β) : List Action → Bool
  | [] => true
  | action :: actions => stepAllowed w action && allowedRun (step content w action) actions

/-- The invariant: residency is a partial bijection, resident experts have their bytes, and a
plan that can still be committed fits the cache and has its written loads in place. -/
structure Inv (w : World β) : Prop where
  inverse : SlotMap.Inverse w.cache.slotKey w.cache.locations
  resident : ∀ slot key, w.cache.slotKey slot = some key → w.bytes slot = content key
  version_le : ∀ o ∈ w.plans, o.plan.baseVersion ≤ w.cache.version
  fits : ∀ o ∈ w.plans, Current w.cache o.plan → PlanFits w.cache o.plan
  written : ∀ o ∈ w.plans, Current w.cache o.plan →
    ∀ load ∈ o.plan.loads.take o.filled, w.bytes load.address.slot = content load.key

variable {content}

theorem Inv.residentBytes {w : World β} (h : Inv content w) : ResidentBytes content w := by
  intro requested plan hplan i key address hkey haddress hnot
  have hprepared := prepare_spec h.inverse hplan
  have hloc : w.cache.locations key = some address.slot := by
    obtain ⟨hi, rfl⟩ := List.getElem?_eq_some_iff.mp hkey
    obtain ⟨hi', rfl⟩ := List.getElem?_eq_some_iff.mp haddress
    exact hprepared.addresses.get hi hi' hnot
  exact h.resident _ _ ((h.inverse _ _).mp hloc)

theorem Inv.prepare {w : World β} (h : Inv content w) (requested : List ExpertKey) :
    Inv content (step content w (.prepare requested)) := by
  unfold step
  simp only
  split
  · exact h
  · next plan hplan =>
    have hprepared := prepare_spec h.inverse hplan
    refine ⟨h.inverse, h.resident, ?_, ?_, ?_⟩
    · intro o ho
      rcases List.mem_append.mp ho with ho | ho
      · exact h.version_le o ho
      · rw [List.mem_singleton.mp ho]
        exact le_of_eq hprepared.baseVersion
    · intro o ho hcurrent
      rcases List.mem_append.mp ho with ho | ho
      · exact h.fits o ho hcurrent
      · rw [List.mem_singleton.mp ho]
        exact hprepared.fits
    · intro o ho hcurrent load hload
      rcases List.mem_append.mp ho with ho | ho
      · exact h.written o ho hcurrent load hload
      · rw [List.mem_singleton.mp ho] at hload
        simp at hload

/-- Forgetting a plan keeps the invariant. -/
theorem Inv.eraseIdx {w : World β} (h : Inv content w) (i : Nat) :
    Inv content { w with plans := w.plans.eraseIdx i } where
  inverse := h.inverse
  resident := h.resident
  version_le o ho := h.version_le o (List.mem_of_mem_eraseIdx ho)
  fits o ho := h.fits o (List.mem_of_mem_eraseIdx ho)
  written o ho := h.written o (List.mem_of_mem_eraseIdx ho)

/-- What `fillAllowed` checks, for the load that is about to be written. -/
theorem fillAllowed_spec {w : World β} {i : Nat} {o : Outstanding} {load : ExpertLoad}
    (ho : w.plans[i]? = some o) (hload : o.plan.loads[o.filled]? = some load)
    (h : fillAllowed w i = true) :
    (∀ resident, w.cache.slotKey load.address.slot = some resident → resident = load.key) ∧
      ∀ j other, j ≠ i → w.plans[j]? = some other → Current w.cache other.plan →
        ∀ written ∈ other.plan.loads.take other.filled,
          written.address.slot = load.address.slot → written.key = load.key := by
  unfold fillAllowed at h
  rw [ho] at h
  simp only [hload, Bool.and_eq_true, List.all_eq_true, List.mem_range] at h
  obtain ⟨hslot, hothers⟩ := h
  constructor
  · intro resident hres
    rw [hres] at hslot
    simpa using hslot
  · intro j other hne hj hcurrent written hwritten hsame
    have hlt : j < w.plans.length := (List.getElem?_eq_some_iff.mp hj).1
    have hcheck := hothers j hlt
    rw [hj] at hcheck
    simp only [Bool.or_eq_true, beq_iff_eq, hne, false_or, Bool.not_eq_true',
      decide_eq_false_iff_not, not_true_eq_false, hcurrent, List.all_eq_true, bne_iff_ne] at hcheck
    rcases hcheck written hwritten with hdiff | hkey
    · exact absurd hsame hdiff
    · exact hkey

/-- An allowed fill keeps the invariant: it overwrites neither a resident expert nor a load
that another committable plan has written. -/
theorem Inv.fill {w : World β} (h : Inv content w) {i : Nat} (hallowed : fillAllowed w i = true) :
    Inv content (step content w (.fill i)) := by
  unfold step
  simp only
  split
  · exact h
  · next o ho =>
    split
    · exact h
    · next load hload =>
      obtain ⟨hresident, hothers⟩ := fillAllowed_spec ho hload hallowed
      have hmemo : o ∈ w.plans := List.mem_of_getElem? ho
      -- the plans after the step: the filling one, advanced by a load, and the others
      have hplans : ∀ o' ∈ w.plans.set i { o with filled := o.filled + 1 },
          o' = { o with filled := o.filled + 1 } ∨ ∃ j, j ≠ i ∧ w.plans[j]? = some o' := by
        intro o' ho'
        obtain ⟨j, hj⟩ := List.mem_iff_getElem?.mp ho'
        rw [List.getElem?_set] at hj
        by_cases hij : i = j
        · subst hij
          rw [if_pos rfl] at hj
          split at hj
          · exact .inl (Option.some.inj hj).symm
          · cases hj
        · rw [if_neg hij] at hj
          exact .inr ⟨j, Ne.symm hij, hj⟩
      refine ⟨h.inverse, ?_, ?_, ?_, ?_⟩
      · intro slot key hkey
        simp only
        by_cases hs : slot = load.address.slot
        · subst hs
          rw [Function.update_self, hresident key hkey]
        · rw [Function.update_of_ne hs]
          exact h.resident slot key hkey
      · intro o' ho'
        rcases hplans o' ho' with rfl | ⟨j, -, hj⟩
        · exact h.version_le o hmemo
        · exact h.version_le o' (List.mem_of_getElem? hj)
      · intro o' ho' hcurrent
        rcases hplans o' ho' with rfl | ⟨j, -, hj⟩
        · exact h.fits o hmemo hcurrent
        · exact h.fits o' (List.mem_of_getElem? hj) hcurrent
      · intro o' ho' hcurrent written hwritten
        simp only
        rcases hplans o' ho' with rfl | ⟨j, hne, hj⟩
        · -- the filling plan: its loads go to distinct slots
          have hnodup := (h.fits o hmemo hcurrent).slots_nodup
          obtain ⟨hlt, hget⟩ := List.getElem?_eq_some_iff.mp hload
          rw [List.take_add_one, List.getElem?_eq_getElem hlt, hget] at hwritten
          rcases List.mem_append.mp hwritten with hold | hnew
          · have hne : written.address.slot ≠ load.address.slot := by
              intro heq
              obtain ⟨k, hk, hget'⟩ := List.mem_take_iff_getElem.mp hold
              have hkk : k = o.filled := by
                refine (List.nodup_iff_injective_get.mp hnodup |>.eq_iff
                  (a := ⟨k, ?_⟩) (b := ⟨o.filled, ?_⟩)).mp ?_ |> Fin.mk.inj
                all_goals simp
                · omega
                · omega
                · rw [hget', hget]; exact heq
              omega
            rw [Function.update_of_ne hne]
            exact h.written o hmemo hcurrent written hold
          · have heq : written = load := by simpa using hnew
            rw [heq, Function.update_self]
        · by_cases hs : written.address.slot = load.address.slot
          · rw [hs, Function.update_self,
              hothers j o' hne hj hcurrent written hwritten hs]
          · rw [Function.update_of_ne hs]
            exact h.written o' (List.mem_of_getElem? hj) hcurrent written hwritten

/-- Committing a written plan keeps the invariant: every other plan is stale afterwards. -/
theorem Inv.commit {w : World β} (h : Inv content w) (i : Nat) :
    Inv content (step content w (.commit i)) := by
  unfold step
  simp only
  split
  · exact h
  · next o ho =>
    split
    · next hfull =>
      have hmemo : o ∈ w.plans := List.mem_of_getElem? ho
      by_cases hcurrent : Current w.cache o.plan
      · have hfits := h.fits o hmemo hcurrent
        have hwritten := h.written o hmemo hcurrent
        rw [hfull, List.take_length] at hwritten
        rcases commit_spec h.inverse hcurrent hfits with hover | ⟨after, hafter, hseat, hver⟩
        · rw [hover]
          exact h.eraseIdx i
        · rw [hafter]
          have hstale : ∀ o' ∈ w.plans.eraseIdx i, ¬ Current after o'.plan := by
            intro o' ho' hcur
            have hle := h.version_le o' (List.mem_of_mem_eraseIdx ho')
            have heq : o'.plan.baseVersion = after.version := hcur.2
            rw [hver] at heq
            omega
          refine ⟨hseat.inverse, ?_, ?_, ?_, ?_⟩
          · intro slot key hkey
            by_cases hs : slot ∈ o.plan.loads.map (·.address.slot)
            · obtain ⟨load, hload, rfl⟩ := List.mem_map.mp hs
              have hseated := hseat.load_slot load hload
              have hkk : load.key = key := Option.some.inj (hseated.symm.trans hkey)
              rw [← hkk]
              exact hwritten load hload
            · refine h.resident slot key ?_
              rw [← hseat.other_slot slot hs]
              exact hkey
          · intro o' ho'
            have hle := h.version_le o' (List.mem_of_mem_eraseIdx ho')
            show o'.plan.baseVersion ≤ after.version
            rw [hver]
            omega
          · exact fun o' ho' hcur => absurd hcur (hstale o' ho')
          · exact fun o' ho' hcur => absurd hcur (hstale o' ho')
      · rw [commit_stale hcurrent]
        exact h.eraseIdx i
    · exact h

theorem Inv.step {w : World β} (h : Inv content w) {action : Action}
    (hallowed : stepAllowed w action = true) : Inv content (Fabric.step content w action) := by
  cases action with
  | prepare requested => exact h.prepare requested
  | fill i => exact h.fill hallowed
  | commit i => exact h.commit i
  | drop i => exact h.eraseIdx i

/-- The invariant along an allowed run, at every prefix of it. -/
theorem Inv.allowedRun {actions : List Action} :
    ∀ {w : World β}, Inv content w → Fabric.allowedRun content w actions = true →
      ∀ n, Inv content (run content w (actions.take n)) := by
  induction actions with
  | nil =>
    intro w h _ n
    simpa [run] using h
  | cons action actions ih =>
    intro w h hrun n
    simp only [Fabric.allowedRun, Bool.and_eq_true] at hrun
    cases n with
    | zero => exact h
    | succ n => exact ih (h.step hrun.1) hrun.2 n

theorem inv_new {cacheId slotCount slotBytes : Nat} {cache : FixedExpertCache}
    (hnew : FixedExpertCache.new cacheId slotCount slotBytes = .ok cache) (bytes : Nat → β) :
    Inv content ⟨cache, bytes, []⟩ := by
  unfold FixedExpertCache.new at hnew
  split at hnew
  · cases hnew
  split at hnew
  · cases hnew
  · cases hnew
    have hempty : ∀ slot, ((List.replicate slotCount (⟨none, 0⟩ : ExpertSlot)).getD slot
        ⟨none, 0⟩).key = none := by
      intro slot
      rw [List.getD_eq_getElem?_getD, List.getElem?_replicate]
      split <;> rfl
    refine ⟨fun key slot => ?_, fun slot key hkey => ?_, by simp, by simp, by simp⟩
    · constructor
      · intro h; cases h
      · intro h
        rw [slotKey, slotAt, hempty] at h
        cases h
    · rw [slotKey, slotAt, hempty] at hkey
      cases hkey

/-- **Resident experts keep their bytes along allowed runs.** In every run from a new cache
whose fills are all allowed, every state reached serves each resident expert its own bytes. -/
theorem resident_bytes_of_allowedRun (content : ExpertKey → β) (cacheId slotCount slotBytes : Nat)
    (cache : FixedExpertCache)
    (hnew : FixedExpertCache.new cacheId slotCount slotBytes = .ok cache) (bytes : Nat → β)
    (actions : List Action)
    (hallowed : Fabric.allowedRun content ⟨cache, bytes, []⟩ actions = true) (n : Nat) :
    ResidentBytes content (run content ⟨cache, bytes, []⟩ (actions.take n)) :=
  ((inv_new hnew bytes).allowedRun hallowed n).residentBytes

def twoSlots : FixedExpertCache where
  cacheId := 1
  version := 0
  slotBytes := 4096
  slots := [⟨none, 0⟩, ⟨none, 0⟩]
  locations := fun _ => none
  step := 0
  stats := {}

/-- Two plans that share an expert are filled in turns; the first of them is stale behind the commit of the second. A
third one would evict an expert, and is dropped before it is filled. -/
def sharedFills : List Action :=
  [.prepare [⟨0, 1⟩], .prepare [⟨0, 1⟩, ⟨0, 2⟩], .fill 1, .fill 0, .fill 1, .commit 1, .drop 0,
    .prepare [⟨0, 2⟩, ⟨1, 1⟩], .drop 0]

theorem resident_bytes_of_allowedRun_sample :
    FixedExpertCache.new 1 2 4096 = .ok twoSlots ∧
    (run id ⟨twoSlots, fun _ => ⟨9, 9⟩, []⟩ sharedFills).cache.slots.map ExpertSlot.key =
      [some ⟨0, 1⟩, some ⟨0, 2⟩] ∧
    ResidentBytes id (run id ⟨twoSlots, fun _ => ⟨9, 9⟩, []⟩ sharedFills) := by
  have hnew : FixedExpertCache.new 1 2 4096 = .ok twoSlots := rfl
  exact ⟨hnew, by decide +kernel, resident_bytes_of_allowedRun id 1 2 4096 twoSlots hnew (fun _ => ⟨9, 9⟩) sharedFills
    (by decide +kernel) 9⟩

end Spark.Fabric
