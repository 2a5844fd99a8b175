import Spark.Experts.Slots

/-!
# What the hot banks hold

The bank a layer's planner plans for, and runs of calls in the direct-pack mode. A call plans, packs
the planned loads and answers the physical slots; it may fail while it plans, before it packs or with
some of the writes of the packing done, and the next call starts from what it left.

* **`Described`** — a slot the table gives to an expert holds the expert's packed bytes.
* **`described_of_settled`** — so it is after every run whose calls pack all they plan.
* **`failed_pack_misdescribes`** — and not after others: a table is never taken back.
-/

namespace Spark.Experts

open Fabric

/-- What `flash_qwen_expert_pack_launch` writes for one expert, in its order. -/
inductive Component where
  | gate | up | down | gateScale | upScale | downScale | scalars
  deriving DecidableEq, Repr

variable {β : Type}

/-- The contents of a bank of sixteen slots, component by component. -/
abbrev Bank (β : Type) := Nat → Component → β

/-- Where a packing stops short: which of its writes were done all the same. -/
abbrev PackFault := ExpertKey → Component → Bool

inductive PackError where
  | tooManyFills (fills : Nat)
  | invalidSlot (slot : Nat)
  | destinations
  | device
  deriving DecidableEq, Repr

variable (packed : ExpertKey → Component → β)

/-- The writes of one load that are done. -/
def packLoad (done : Component → Bool) (bank : Bank β) (load : ExpertLoad) : Bank β := fun slot component =>
  if slot = load.address.slot ∧ done component then packed load.key component else bank slot component

def packLoads (done : PackFault) (loads : List ExpertLoad) (bank : Bank β) : Bank β :=
  loads.foldl (fun bank load => packLoad packed (done load.key) bank load) bank

/-- `QwenExpertHotCache::pack_misses`. Looking up the source tensors is part of what may fail: then no
write is done. -/
def packMisses (loads : List ExpertLoad) (fault : Option PackFault) (bank : Bank β) :
    Except PackError Unit × Bank β :=
  if loads.isEmpty then (.ok (), bank)
  else if expertCapacity < loads.length then (.error (.tooManyFills loads.length), bank)
  else
    match loads.find? fun load => expertCapacity ≤ load.address.slot with
    | some load => (.error (.invalidSlot load.address.slot), bank)
    | none =>
      if ¬ (loads.map (·.address.slot)).Nodup then (.error .destinations, bank)
      else
        match fault with
        | none => (.ok (), packLoads packed (fun _ _ => true) loads bank)
        | some done => (.error .device, packLoads packed done loads bank)

/-! ## Runs -/

structure Layer (β : Type) where
  slots : LayerExpertSlots
  bank : Bank β

/-- The planners and banks of an engine, by layer. -/
abbrev Engine (β : Type) := Nat → Layer β

/-- One routed token of one layer, and the fault its packing meets. -/
structure MoeCall where
  layer : Nat
  logical : List Int
  fault : Option PackFault

inductive MoeError where
  | plan (message : String)
  | pack (error : PackError)
  deriving DecidableEq, Repr

/-- `plan` and then `pack_misses`, as `run_moe` and `run_moe_token` have them. -/
def moeCall (layer : Layer β) (call : MoeCall) : Except MoeError (List Nat) × Layer β :=
  match layer.slots.plan call.layer call.logical with
  | (.error e, slots) => (.error (.plan e), { layer with slots })
  | (.ok plan, slots) =>
    match packMisses packed plan.loads call.fault layer.bank with
    | (.error e, bank) => (.error (.pack e), { slots, bank })
    | (.ok (), bank) => (.ok plan.physical, { slots, bank })

def engineStep (engine : Engine β) (call : MoeCall) : Engine β :=
  Function.update engine call.layer (moeCall packed (engine call.layer) call).2

def engineRun (engine : Engine β) (calls : List MoeCall) : Engine β := calls.foldl (engineStep packed) engine

/-- An engine as it is created: empty planners over banks with anything in them. -/
def engineNew (banks : Nat → Bank β) : Engine β := fun layer => { slots := .new, bank := banks layer }

def Described (engine : Engine β) : Prop :=
  ∀ (layer : Nat) (slot : Slot) (expert : Int), (engine layer).slots.slotExperts.get slot = some expert →
    (engine layer).bank slot = packed ⟨layer, expert.toNat⟩

/-- The physical slots answered for a call hold the experts it routed to. -/
def Serves (layer : Nat) (bank : Bank β) (logical : List Int) (physical : List Nat) : Prop :=
  List.Forall₂ (fun expert slot => bank slot = packed ⟨layer, expert.toNat⟩) logical physical

/-! ## The packing -/

variable {packed}

theorem packLoads_of_not_mem {done : PackFault} {slot : Nat} (loads : List ExpertLoad) :
    ∀ {bank : Bank β}, (∀ load ∈ loads, load.address.slot ≠ slot) →
      packLoads packed done loads bank slot = bank slot := by
  induction loads with
  | nil => exact fun _ => rfl
  | cons load rest ih =>
    intro bank h
    obtain ⟨hload, hrest⟩ := List.forall_mem_cons.mp h
    show packLoads packed done rest (packLoad packed (done load.key) bank load) slot = bank slot
    rw [ih hrest]
    funext component
    exact if_neg fun hslot => hload hslot.1.symm

theorem packLoads_of_mem {done : PackFault} {load : ExpertLoad} (hdone : ∀ component, done load.key component)
    (loads : List ExpertLoad) : ∀ {bank : Bank β}, (loads.map (·.address.slot)).Nodup → load ∈ loads →
      packLoads packed done loads bank load.address.slot = packed load.key := by
  induction loads with
  | nil => nofun
  | cons first rest ih =>
    intro bank hapart hmem
    rw [List.map_cons, List.nodup_cons] at hapart
    show packLoads packed done rest (packLoad packed (done first.key) bank first) load.address.slot =
      packed load.key
    rcases List.mem_cons.mp hmem with rfl | hmem
    · rw [packLoads_of_not_mem rest]
      · funext component
        exact if_pos ⟨rfl, hdone component⟩
      · exact fun other hother hslot => hapart.1 (List.mem_map.mpr ⟨other, hother, hslot⟩)
    · exact ih hapart.2 hmem

/-- A packing of distinct slots of the bank does the writes that its fault lets through, and answers
when there is no fault. -/
theorem packMisses_spec {loads : List ExpertLoad} (hcount : loads.length ≤ expertCapacity)
    (hslots : ∀ load ∈ loads, load.address.slot < expertCapacity)
    (hapart : (loads.map (·.address.slot)).Nodup) (fault : Option PackFault) (bank : Bank β) :
    (packMisses packed loads fault bank).2 =
        packLoads packed (fault.getD fun _ _ => true) loads bank ∧
      ((packMisses packed loads fault bank).1 = .ok () → loads = [] ∨ fault = none) := by
  have hfind : loads.find? (fun load => expertCapacity ≤ load.address.slot) = none := by
    refine List.find?_eq_none.mpr fun load hload => ?_
    simpa using hslots load hload
  cases loads with
  | nil => exact ⟨rfl, fun _ => .inl rfl⟩
  | cons load rest =>
    have hnonempty : ¬ (load :: rest).isEmpty = true := nofun
    unfold packMisses
    rw [if_neg hnonempty, if_neg (Nat.not_lt.mpr hcount), hfind]
    simp only [if_neg (not_not.mpr hapart)]
    cases fault with
    | none => exact ⟨rfl, fun _ => .inr rfl⟩
    | some done => exact ⟨rfl, nofun⟩

theorem Placed.in_bank {layer : Nat} {requested : List Int} {before after : Table} {loads : List ExpertLoad}
    (h : Placed layer requested before after loads) :
    ∀ load ∈ loads, load.address.slot < expertCapacity := by
  intro load hload
  obtain ⟨slot, hslot, -⟩ := h.spared load hload
  have hlt : slot.val < 10 := slot.isLt
  show load.address.slot < 16
  omega

/-! ## One call -/

variable (packed) in
/-- A layer whose table is valid and describes its bank. -/
structure LayerInv (number : Nat) (layer : Layer β) : Prop where
  valid : layer.slots.slotExperts.Valid
  described : ∀ {slot : Slot} {expert : Int}, layer.slots.slotExperts.get slot = some expert →
    layer.bank slot = packed ⟨number, expert.toNat⟩

/-- **The condition on a call.** The planner refuses it, or it asks for nothing new, or its experts all
have an identity, the clock runs and every write of the experts that are not in their slots is done. -/
def Settled (layer : Layer β) (call : MoeCall) : Prop :=
  layer.slots.Keeps call.layer call.logical ∧
    (LayerExpertSlots.Refused call.layer call.logical ∨
      ∀ done, call.fault = some done → ∀ expert ∈ call.logical, ¬ layer.slots.slotExperts.Holds expert →
        ∀ component, done ⟨call.layer, expert.toNat⟩ component = true)

/-- A packing that does all the writes of the loads of a plan leaves a described bank. -/
theorem LayerInv.pack {number : Nat} {layer : Layer β} (h : LayerInv packed number layer)
    {slots : LayerExpertSlots} {logical : List Int} {plan : LayerExpertPlan}
    (hanswered : LayerExpertSlots.Answered number logical layer.slots.slotExperts slots.slotExperts plan)
    {fault : Option PackFault}
    (hdone : ∀ load ∈ plan.loads, ∀ component, fault.getD (fun _ _ => true) load.key component = true) :
    LayerInv packed number
      { slots, bank := (packMisses packed plan.loads fault layer.bank).2 } := by
  have hplaced := hanswered.placed
  have hcount : plan.loads.length ≤ expertCapacity := hanswered.count.trans (by decide)
  refine ⟨hplaced.valid, ?_⟩
  intro slot expert hexpert
  show (packMisses packed plan.loads fault layer.bank).2 slot = _
  rw [(packMisses_spec hcount hplaced.in_bank hplaced.apart fault layer.bank).1]
  rcases hplaced.explained hexpert with ⟨hbefore, hfree⟩ | ⟨load, hload, hslot, hkey⟩
  · rw [packLoads_of_not_mem _ hfree, h.described hbefore]
  · rw [← hslot, packLoads_of_mem (hdone load hload) _ hplaced.apart hload, hkey]

/-- An answered call leaves a described bank whatever its fault, and its answer names slots with the
experts it routed to. -/
theorem moeCall_ok {layer : Layer β} {call : MoeCall} (h : LayerInv packed call.layer layer)
    {physical : List Nat} (hok : (moeCall packed layer call).1 = .ok physical) :
    LayerInv packed call.layer (moeCall packed layer call).2 ∧
      Serves packed call.layer (moeCall packed layer call).2.bank call.logical physical := by
  cases hplan : layer.slots.plan call.layer call.logical with
  | mk result slots =>
    cases result with
    | error e =>
      rw [moeCall, hplan] at hok
      cases hok
    | ok plan =>
      have hanswered := LayerExpertSlots.of_plan_ok (congrArg Prod.fst hplan) h.valid
      rw [hplan] at hanswered
      cases hpack : packMisses packed plan.loads call.fault layer.bank with
      | mk answer bank =>
        cases answer with
        | error e =>
          simp only [moeCall, hplan, hpack] at hok
          cases hok
        | ok =>
          have hcall : moeCall packed layer call = (.ok plan.physical, { slots, bank }) := by
            simp only [moeCall, hplan, hpack]
          rw [hcall] at hok ⊢
          cases hok
          have hfault := (packMisses_spec (hanswered.count.trans (by decide)) hanswered.placed.in_bank
            hanswered.placed.apart call.fault layer.bank).2 (congrArg Prod.fst hpack)
          have hinv : LayerInv packed call.layer { slots, bank } := by
            have hdone : ∀ load ∈ plan.loads, ∀ component,
                call.fault.getD (fun _ _ => true) load.key component = true := by
              intro load hload component
              rcases hfault with hnil | hnone
              · rw [hnil] at hload
                cases hload
              · rw [hnone]
                rfl
            have hpacked := h.pack hanswered hdone
            rwa [hpack] at hpacked
          refine ⟨hinv, hanswered.routed.imp ?_⟩
          rintro expert _ ⟨slot, rfl, hslot⟩
          exact hinv.described hslot

theorem LayerInv.call {layer : Layer β} {call : MoeCall} (h : LayerInv packed call.layer layer)
    (hsettled : Settled layer call) : LayerInv packed call.layer (moeCall packed layer call).2 := by
  cases hplan : layer.slots.plan call.layer call.logical with
  | mk result slots =>
    cases result with
    | error e =>
      have htable := LayerExpertSlots.plan_keeps h.valid hsettled.1 (congrArg Prod.fst hplan)
      rw [hplan] at htable
      simp only [moeCall, hplan]
      exact ⟨htable ▸ h.valid, fun hslot => h.described (htable ▸ hslot)⟩
    | ok plan =>
      have hanswered := LayerExpertSlots.of_plan_ok (congrArg Prod.fst hplan) h.valid
      rw [hplan] at hanswered
      have hlands : ∀ load ∈ plan.loads, ∀ component,
          call.fault.getD (fun _ _ => true) load.key component = true := by
        intro load hload component
        cases hfault : call.fault with
        | none => rfl
        | some done =>
          obtain ⟨expert, hexpert, hkey, hmissing⟩ := hanswered.placed.missed load hload
          rcases hsettled.2 with hrefused | hdone
          · obtain ⟨e, herror⟩ := LayerExpertSlots.plan_refused hrefused layer.slots
            rw [hplan] at herror
            cases herror
          · rw [hkey]
            exact hdone done hfault expert (LayerExpertSlots.mem_requestedExperts.mp hexpert) hmissing
              component
      have hinv := h.pack hanswered hlands
      simp only [moeCall, hplan]
      split
      · next hpack => rwa [hpack] at hinv
      · next hpack => rwa [hpack] at hinv

/-! ## Whole runs -/

variable (packed) in
def SettledRun (engine : Engine β) : List MoeCall → Prop
  | [] => True
  | call :: rest => Settled (engine call.layer) call ∧ SettledRun (engineStep packed engine call) rest

theorem engineStep_inv {engine : Engine β} {call : MoeCall}
    (h : ∀ number, LayerInv packed number (engine number)) (hsettled : Settled (engine call.layer) call) :
    ∀ number, LayerInv packed number (engineStep packed engine call number) := by
  intro number
  by_cases heq : number = call.layer
  · subst heq
    rw [engineStep, Function.update_self]
    exact (h call.layer).call hsettled
  · rw [engineStep, Function.update_of_ne heq]
    exact h number

theorem engineRun_inv (calls : List MoeCall) :
    ∀ {engine : Engine β}, (∀ number, LayerInv packed number (engine number)) →
      SettledRun packed engine calls → ∀ number, LayerInv packed number (engineRun packed engine calls number) := by
  induction calls with
  | nil => exact fun h _ => h
  | cons call rest ih => exact fun h hsettled => ih (engineStep_inv h hsettled.1) hsettled.2

theorem engineNew_inv (banks : Nat → Bank β) (number : Nat) : LayerInv packed number (engineNew banks number) where
  valid := Table.valid_new
  described := by
    intro slot expert hexpert
    have hempty : (engineNew banks number).slots.slotExperts[slot] = none := by
      simp [engineNew, LayerExpertSlots.new]
    cases hempty.symm.trans hexpert

/-- **Hot slots hold what the table says.** After every run of settled calls, over layers, tokens and
requests, every slot with an expert holds its packed bytes, and a further call that is answered, hits
included, names slots with the bytes of the experts it routed to. -/
theorem described_of_settled (packed : ExpertKey → Component → β) (banks : Nat → Bank β)
    (calls : List MoeCall) (h : SettledRun packed (engineNew banks) calls) :
    Described packed (engineRun packed (engineNew banks) calls) ∧
      ∀ (call : MoeCall) (physical : List Nat),
        (moeCall packed (engineRun packed (engineNew banks) calls call.layer) call).1 = .ok physical →
        Serves packed call.layer
          (moeCall packed (engineRun packed (engineNew banks) calls call.layer) call).2.bank call.logical
          physical := by
  have hinv := engineRun_inv calls (engineNew_inv banks) h
  constructor
  · intro number slot expert hexpert
    exact (hinv number).described hexpert
  · intro call physical hok
    exact (moeCall_ok (hinv call.layer) hok).2

/-- Ten experts routed to on layer zero. -/
def firstCall (fault : Option PackFault) : MoeCall := ⟨0, [0, 1, 2, 3, 4, 5, 6, 7, 8, 9], fault⟩

/-- Contents that tell the experts apart, and from an empty bank. -/
def numbered (key : ExpertKey) (_ : Component) : Nat := key.expert + 1

/-- Nine of the ten experts again, and one that is not there. -/
def secondCall : MoeCall := ⟨0, [1, 2, 3, 4, 5, 6, 7, 8, 9, 20], none⟩

/-- The second call evicts an expert, and a third one hits what both left. -/
theorem described_of_settled_sample :
    (engineRun numbered (engineNew fun _ _ _ => 0) [firstCall none, secondCall] 0).slots.slotExperts.toList =
      [20, 1, 2, 3, 4, 5, 6, 7, 8, 9].map some ∧
    Described numbered (engineRun numbered (engineNew fun _ _ _ => 0) [firstCall none, secondCall]) ∧
    Serves numbered 0
      (moeCall numbered (engineRun numbered (engineNew fun _ _ _ => 0) [firstCall none, secondCall] 0)
        secondCall).2.bank secondCall.logical [1, 2, 3, 4, 5, 6, 7, 8, 9, 0] := by
  have hkeeps : LayerExpertSlots.new.Keeps 0 (firstCall none).logical :=
    .inr (.inr ⟨by decide, by decide⟩)
  have hsecond : (engineRun numbered (engineNew fun _ _ _ => 0) [firstCall none] 0).slots.Keeps 0 secondCall.logical :=
    .inr (.inr ⟨by decide, by decide +kernel⟩)
  have hsettled : SettledRun numbered (engineNew fun _ _ _ => 0) [firstCall none, secondCall] :=
    ⟨⟨hkeeps, .inr (fun _ hfault => nomatch hfault)⟩, ⟨hsecond, .inr (fun _ hfault => nomatch hfault)⟩, trivial⟩
  have h := described_of_settled numbered (fun _ _ _ => 0) [firstCall none, secondCall] hsettled
  exact ⟨by decide +kernel, h.1, h.2 secondCall _ (by decide +kernel)⟩

/-- A packing that fails before its first write leaves the table full of experts that are not there,
and the next call takes them all for hits. -/
theorem failed_pack_misdescribes :
    ¬ Described numbered
        (engineRun numbered (engineNew fun _ _ _ => 0) [firstCall (some fun _ _ => false)]) ∧
      (moeCall numbered
          (engineRun numbered (engineNew fun _ _ _ => 0) [firstCall (some fun _ _ => false)] 0)
          (firstCall none)).1 = .ok [0, 1, 2, 3, 4, 5, 6, 7, 8, 9] ∧
      (moeCall numbered
          (engineRun numbered (engineNew fun _ _ _ => 0) [firstCall (some fun _ _ => false)] 0)
          (firstCall none)).2.bank 0 .gate ≠ numbered ⟨0, 0⟩ .gate := by
  refine ⟨fun hdescribed => ?_, by decide +kernel, by decide +kernel⟩
  have htable : (engineRun numbered (engineNew fun _ _ _ => 0)
      [firstCall (some fun _ _ => false)] 0).slots.slotExperts[(0 : Slot)] = some 0 := by decide +kernel
  have hbytes := congrFun (hdescribed 0 0 0 htable) .gate
  exact absurd hbytes (by decide +kernel)

end Spark.Experts
