import Spark.Server.Coordinator

/-!
# No token is lost or evaluated twice

* **`Owned`** — the model is busy just when one thread has it.
* **`Tracked`** — where the token of each slot's call is, and where the tokens of earlier calls went.
* **`coordinated`** — what holds after any interleaving.
-/

namespace Spark.Server.Coordinator

variable {n : Nat} {sys sys' : System n} {s s' : Executor n} {signals : Signals} {i j : Fin n} {token : Int}
  {slot : DecodeSlot} {coalesceUs : Int}

/-! ## Owners, batches and the tokens in them -/

inductive Owner (n : Nat) where
  | batch
  | prefill (i : Fin n)

/-- A batch or a prefill quantum that is being evaluated. -/
def Owns (sys : System n) : Owner n → Prop
  | .batch => ∃ items, sys.decodeWorker = .evaluating items
  | .prefill i => sys.workers i = .prefilling

def DecodeItem.id (item : DecodeItem n) : Fin n × Nat := (item.slot, item.call)

def System.inFlight (sys : System n) : List (DecodeItem n) :=
  match sys.decodeWorker with
  | .evaluating items => items
  | _ => []

/-- Every token that was in a batch. -/
def System.batched (sys : System n) : List (DecodeItem n) := sys.finished.flatMap Prod.fst ++ sys.inFlight

/-- In how many batches the token of a call was. -/
def System.timesBatched (sys : System n) (call : Fin n × Nat) : Nat := (sys.batched.map DecodeItem.id).count call

/-- The token was in a batch that succeeded. -/
def Succeeded (sys : System n) (item : DecodeItem n) : Prop := ∃ batch ∈ sys.finished, batch.2 = 0 ∧ item ∈ batch.1

def pendingSlots (s : Executor n) : Nat := (List.finRange n).countP fun i => (s.slots i).decodePending

structure Coordinated (sys : System n) : Prop where
  one_owner : ∀ a b, Owns sys a → Owns sys b → a = b
  busy : sys.executor.modelBusy = true ↔ ∃ a, Owns sys a
  pending : sys.executor.decodePending = pendingSlots sys.executor
  exclusive : ∀ i, ¬ ((sys.executor.slots i).decodePending = true ∧ (sys.executor.slots i).decodeInFlight = true)
  batched_once : ∀ call, sys.timesBatched call ≤ 1
  evaluated : ∀ r ∈ sys.returned, r.result.rc = 0 → sys.timesBatched r.item.id = 1 ∧ Succeeded sys r.item
  withdrawn : ∀ call ∈ sys.withdrawn, sys.timesBatched call = 0
  landed : ∀ r ∈ sys.returned, r.item.id ∉ sys.inFlight.map DecodeItem.id

/-! ## The executor -/

@[simp] theorem setSlot_slots (s : Executor n) (i : Fin n) (slot : DecodeSlot) :
    (s.setSlot i slot).slots = Function.update s.slots i slot := rfl

@[simp] theorem setSlot_decodePending (s : Executor n) (i : Fin n) (slot : DecodeSlot) :
    (s.setSlot i slot).decodePending = s.decodePending := rfl

@[simp] theorem setSlot_modelBusy (s : Executor n) (i : Fin n) (slot : DecodeSlot) :
    (s.setSlot i slot).modelBusy = s.modelBusy := rfl

theorem countP_change {α : Type*} {p q : α → Bool} {a : α} (hpq : ∀ b, b ≠ a → q b = p b) {xs : List α}
    (hxs : xs.Nodup) (ha : a ∈ xs) : xs.countP q + (p a).toNat = xs.countP p + (q a).toNat := by
  induction xs with
  | nil => cases ha
  | cons x xs ih =>
    obtain ⟨hx, hxs⟩ := List.nodup_cons.mp hxs
    rw [List.countP_cons, List.countP_cons]
    rcases List.mem_cons.mp ha with rfl | ha
    · have hrest : xs.countP q = xs.countP p :=
        List.countP_congr fun b hb => by rw [hpq b fun hba => hx (hba ▸ hb)]
      rw [hrest]
      cases p a <;> cases q a <;> simp
    · have hne : x ≠ a := by
        rintro rfl
        exact hx ha
      have hrest := ih hxs ha
      rw [hpq x hne]
      omega

/-- One slot changes, and the count with it. -/
theorem pendingSlots_change {slot : DecodeSlot} (hslots : s'.slots = Function.update s.slots i slot) :
    pendingSlots s' + ((s.slots i).decodePending).toNat = pendingSlots s + (slot.decodePending).toNat := by
  have hchange := @countP_change _ (fun j => (s.slots j).decodePending) (fun j => (s'.slots j).decodePending) i
    (fun j hj => by rw [hslots, Function.update_of_ne hj]) _ (List.nodup_finRange n) (List.mem_finRange i)
  simp only [hslots, Function.update_self] at hchange
  rw [pendingSlots, pendingSlots, hslots]
  exact hchange

theorem mem_withdrawals {call : Fin n × Nat} : call ∈ withdrawals s s' ↔
    (s.slots call.1).decodePending = true ∧ (s'.slots call.1).decodePending = false ∧
      call.2 = (s.slots call.1).call := by
  obtain ⟨j, k⟩ := call
  simp only [withdrawals, List.mem_map, List.mem_filter, List.mem_finRange, true_and, Bool.and_eq_true,
    Bool.not_eq_true', Prod.mk.injEq]
  constructor
  · rintro ⟨i, ⟨hbefore, hafter⟩, rfl, rfl⟩
    exact ⟨hbefore, hafter, rfl⟩
  · rintro ⟨hbefore, hafter, rfl⟩
    exact ⟨j, ⟨hbefore, hafter⟩, rfl, rfl⟩

/-! ## What `server_eval_token` does -/

/-- A section of a slot's worker leaves everything but its slot and the count. -/
structure OnSlot (s : Executor n) (i : Fin n) (s' : Executor n) (slot : DecodeSlot) : Prop where
  slots : s'.slots = Function.update s.slots i slot
  count : s'.decodePending + (s.slots i).decodePending.toNat = s.decodePending + slot.decodePending.toNat
  modelBusy : s'.modelBusy = s.modelBusy
  inFlight : slot.decodeInFlight = (s.slots i).decodeInFlight

theorem OnSlot.self (h : OnSlot s i s' slot) : s'.slots i = slot := by rw [h.slots, Function.update_self]

theorem OnSlot.other (h : OnSlot s i s' slot) (hj : j ≠ i) : s'.slots j = s.slots j := by
  rw [h.slots, Function.update_of_ne hj]

theorem cancelPending_cases (s : Executor n) (i : Fin n) :
    serverCancelPendingDecodeLocked s i = none ∨
      ∃ s' slot, serverCancelPendingDecodeLocked s i = some s' ∧ OnSlot s i s' slot ∧
        (s.slots i).decodePending = true ∧ (s.slots i).decodeInFlight = false ∧ slot.decodePending = false ∧
          slot.call = (s.slots i).call ∧ slot.decodeToken = (s.slots i).decodeToken ∧ slot.decodeDone = true ∧
            slot.decodeRc = syncInterrupted := by
  unfold serverCancelPendingDecodeLocked
  split
  case isTrue => exact .inl rfl
  case isFalse h =>
    simp only [Bool.or_eq_true, Bool.not_eq_true', not_or, Bool.not_eq_false, Bool.not_eq_true] at h
    refine .inr ⟨_, _, rfl, ⟨rfl, ?_, rfl, rfl⟩, h.1, h.2, rfl, rfl, rfl, rfl, rfl⟩
    rw [h.1]
    simp

/-- The end of a call frees the slot's result. -/
theorem evalTokenEnd_spec (s : Executor n) (signals : Signals) (i : Fin n) :
    OnSlot s i (serverEvalTokenEnd s signals i).1 { s.slots i with decodeDone := false } ∧
      ((serverEvalTokenEnd s signals i).2.rc = 0 → (s.slots i).decodeRc = 0) := by
  refine ⟨⟨rfl, rfl, rfl, rfl⟩, fun hrc => ?_⟩
  simp only [serverEvalTokenEnd] at hrc
  split at hrc
  · cases hrc
  · exact hrc

/-- A waiting call goes on waiting, or returns the result of its batch, or withdraws its token. -/
inductive EvalLoop (s : Executor n) (i : Fin n) (next : Executor n × Option EvalResult) : Prop
  | waits (hdone : (s.slots i).decodeDone = false) (hnext : next = (s, none))
  | returns (slot : DecodeSlot) (result : EvalResult) (hdone : (s.slots i).decodeDone = true)
      (hslot : OnSlot s i next.1 slot) (hpending : slot.decodePending = (s.slots i).decodePending)
      (hcall : slot.call = (s.slots i).call) (hresult : next.2 = some result)
      (hrc : result.rc = 0 → (s.slots i).decodeRc = 0)
  | withdraws (slot : DecodeSlot) (result : EvalResult) (hdone : (s.slots i).decodeDone = false)
      (hslot : OnSlot s i next.1 slot) (hwas : (s.slots i).decodePending = true)
      (hflight : (s.slots i).decodeInFlight = false) (hpending : slot.decodePending = false)
      (hcall : slot.call = (s.slots i).call) (hresult : next.2 = some result) (hrc : result.rc ≠ 0)

theorem OnSlot.trans {s'' : Executor n} {slot' : DecodeSlot} (h : OnSlot s i s' slot) (h' : OnSlot s' i s'' slot') :
    OnSlot s i s'' slot' := by
  obtain ⟨hslots, hcount, hbusy, hflight⟩ := h
  obtain ⟨hslots', hcount', hbusy', hflight'⟩ := h'
  rw [hslots, Function.update_self] at hcount' hflight'
  refine ⟨by rw [hslots', hslots, Function.update_idem], ?_, hbusy'.trans hbusy, hflight'.trans hflight⟩
  omega

theorem serverEvalTokenLoop_cases (s : Executor n) (signals : Signals) (i : Fin n) :
    EvalLoop s i (serverEvalTokenLoop s signals i) := by
  unfold serverEvalTokenLoop
  by_cases hdone : (s.slots i).decodeDone = true
  · obtain ⟨hslot, hrc⟩ := evalTokenEnd_spec s signals i
    simp only [if_pos hdone]
    exact .returns _ _ hdone hslot rfl rfl rfl hrc
  · have hnot := Bool.not_eq_true _ ▸ hdone
    simp only [if_neg hdone]
    split
    · exact .waits hnot rfl
    · next s₁ hcancel =>
      have hsome : serverCancelPendingDecodeLocked s i = some s₁ := by
        split at hcancel
        · exact hcancel
        · cases hcancel
      rcases cancelPending_cases s i with hnone | ⟨s₂, slot, heq, hslot, hwas, hflight, hpending, hcall, -, -, hrc⟩
      · rw [hnone] at hsome
        cases hsome
      · rw [hsome] at heq
        cases heq
        -- the text of the error is set again before the call returns
        have hagain : ∃ slot', OnSlot s i
            (if !slotJobCancelled s signals i then
              s₁.setSlot i { s₁.slots i with decodeErr := "shutdown requested" } else s₁) slot' ∧
            slot'.decodePending = false ∧ slot'.call = (s.slots i).call ∧ slot'.decodeRc = syncInterrupted := by
          split
          · refine ⟨{ slot with decodeErr := "shutdown requested" }, hslot.trans ?_, hpending, hcall, hrc⟩
            rw [← hslot.self]
            exact ⟨rfl, rfl, rfl, rfl⟩
          · exact ⟨slot, hslot, hpending, hcall, hrc⟩
        obtain ⟨slot', hslot', hpending', hcall', hrc'⟩ := hagain
        obtain ⟨hlast, hresult⟩ := evalTokenEnd_spec
          (if !slotJobCancelled s signals i then
            s₁.setSlot i { s₁.slots i with decodeErr := "shutdown requested" } else s₁) signals i
        refine .withdraws _ _ hnot (hslot'.trans hlast) hwas hflight ?_ ?_ rfl fun hzero => ?_
        · rw [hslot'.self]
          exact hpending'
        · rw [hslot'.self]
          exact hcall'
        · have hzero' := hresult hzero
          rw [hslot'.self, hrc'] at hzero'
          cases hzero'

/-- A call begins by submitting its token, or returns at once with an error. -/
inductive EvalToken (s : Executor n) (i : Fin n) (token : Int) (next : Executor n × Option EvalResult) : Prop
  | refused (slot : DecodeSlot) (result : EvalResult) (hslot : OnSlot s i next.1 slot)
      (hpending : slot.decodePending = (s.slots i).decodePending) (hcall : slot.call = (s.slots i).call + 1)
      (hresult : next.2 = some result) (hrc : result.rc ≠ 0)
  | submits (slot : DecodeSlot) (hslot : OnSlot s i next.1 slot) (hpending : slot.decodePending = true)
      (hdone : slot.decodeDone = false) (hcall : slot.call = (s.slots i).call + 1) (htoken : slot.decodeToken = token)
      (hresult : next.2 = none)

theorem serverEvalToken_cases (s : Executor n) (signals : Signals) (i : Fin n) (token : Int) :
    EvalToken s i token (serverEvalToken s signals i token) := by
  have hcounted : OnSlot s i (s.setSlot i { s.slots i with call := (s.slots i).call + 1 })
      { s.slots i with call := (s.slots i).call + 1 } := ⟨rfl, rfl, rfl, rfl⟩
  simp only [serverEvalToken]
  split
  case isTrue => exact .refused _ _ hcounted rfl rfl rfl (by simp [syncInterrupted])
  case isFalse hgoes =>
    split
    case isTrue => exact .refused _ _ hcounted rfl rfl rfl (by simp)
    case isFalse hfree =>
      simp only [Bool.or_eq_true, not_or, Bool.not_eq_true] at hgoes hfree
      obtain ⟨hstop, hcancelled⟩ := hgoes
      obtain ⟨hpending, -⟩ := hfree
      -- nothing has been signalled, so the first round of the loop waits
      have hwaits (s₁ : Executor n) (hdone : (s₁.slots i).decodeDone = false)
          (hrunning : (s₁.slots i).running = (s.slots i).running) :
          serverEvalTokenLoop s₁ signals i = (s₁, none) := by
        have hsame : slotJobCancelled s₁ signals i = false := by
          rw [← hcancelled]
          simp only [slotJobCancelled, hrunning, setSlot_slots, Function.update_self]
        unfold serverEvalTokenLoop
        rw [if_neg (by rw [hdone]; exact Bool.false_ne_true)]
        simp only [hsame, hstop, Bool.or_false, Bool.false_eq_true, if_false]
      rw [hwaits _ (by simp) (by simp)]
      simp only [setSlot_slots, Function.update_self] at hpending
      let slot : DecodeSlot := { s.slots i with
        call := (s.slots i).call + 1
        decodeToken := token
        decodeRc := 1
        decodeErr := ""
        decodeDone := false
        decodePending := true }
      refine .submits slot ⟨?_, ?_, rfl, rfl⟩ rfl rfl rfl rfl rfl
      · simp [slot]
      · simp [hpending, slot]

/-! ## What the decode worker does -/

def DecodeSlot.collected (slot : DecodeSlot) : DecodeSlot :=
  { slot with decodePending := false, decodeInFlight := true }

/-- The entry of a slot in a batch. -/
def Executor.item (s : Executor n) (i : Fin n) : DecodeItem n := ⟨i, (s.slots i).call, (s.slots i).decodeToken⟩

theorem collectSlot_of_pending (items : List (DecodeItem n)) (hpending : (s.slots i).decodePending = true) :
    ∃ s', collectSlot (s, items) i = (s', items ++ [s.item i]) ∧
      s'.slots = Function.update s.slots i (s.slots i).collected ∧ s'.modelBusy = s.modelBusy ∧
        s'.decodePending = s.decodePending - 1 := by
  simp only [collectSlot, if_pos hpending]
  exact ⟨_, rfl, rfl, rfl, rfl⟩

theorem foldl_collectSlot {is : List (Fin n)} (hnodup : is.Nodup) (s : Executor n) (items : List (DecodeItem n)) :
    (is.foldl collectSlot (s, items)).2 = items ++ (is.filter fun i => (s.slots i).decodePending).map s.item ∧
      (∀ j, (is.foldl collectSlot (s, items)).1.slots j =
        if j ∈ is ∧ (s.slots j).decodePending = true then (s.slots j).collected else s.slots j) ∧
      (is.foldl collectSlot (s, items)).1.modelBusy = s.modelBusy ∧
      (is.foldl collectSlot (s, items)).1.decodePending =
        s.decodePending - (is.countP fun i => (s.slots i).decodePending : Nat) := by
  induction is generalizing s items with
  | nil => simp
  | cons i is ih =>
    obtain ⟨hi, hnodup⟩ := List.nodup_cons.mp hnodup
    rw [List.foldl_cons, List.filter_cons, List.countP_cons]
    by_cases hpending : (s.slots i).decodePending = true
    · obtain ⟨s₁, hfirst, hslots₁, hbusy₁, hcount₁⟩ := collectSlot_of_pending items hpending
      -- the later slots are as they were
      have hlater (j : Fin n) (hj : j ∈ is) : s₁.slots j = s.slots j := by
        rw [hslots₁, Function.update_of_ne (show j ≠ i from fun hji => hi (hji ▸ hj))]
      obtain ⟨hitems, hslots, hbusy, hcount⟩ := ih hnodup s₁ (items ++ [s.item i])
      rw [hfirst, if_pos hpending, if_pos hpending]
      refine ⟨hitems.trans ?_, fun j => (hslots j).trans ?_, hbusy.trans hbusy₁, hcount.trans ?_⟩
      · rw [List.map_cons, List.append_assoc, List.singleton_append,
          List.filter_congr fun j hj => by rw [hlater j hj]]
        congr 2
        refine List.map_congr_left fun j hj => ?_
        rw [Executor.item, Executor.item, hlater j (List.mem_filter.mp hj).1]
      · by_cases hji : j = i
        · subst hji
          rw [if_neg (fun h => hi h.1), if_pos ⟨List.mem_cons_self, hpending⟩, hslots₁, Function.update_self]
        · rw [hslots₁, Function.update_of_ne hji]
          simp [hji]
      · rw [List.countP_congr fun j hj => by rw [hlater j hj], hcount₁]
        omega
    · have hfirst : collectSlot (s, items) i = (s, items) := by
        simp only [collectSlot, if_neg hpending]
      obtain ⟨hitems, hslots, hbusy, hcount⟩ := ih hnodup s items
      rw [hfirst, if_neg hpending, if_neg hpending]
      refine ⟨hitems, fun j => (hslots j).trans ?_, hbusy, hcount⟩
      by_cases hji : j = i
      · subst hji
        rw [if_neg (fun h => hpending h.2), if_neg (fun h => hpending h.2)]
      · simp [hji]

/-- The pending slots are in the batch, and are pending no more. -/
structure Collected (s s' : Executor n) (items : List (DecodeItem n)) : Prop where
  items : items = ((List.finRange n).filter fun i => (s.slots i).decodePending).map s.item
  slots : ∀ j, s'.slots j = if (s.slots j).decodePending = true then (s.slots j).collected else s.slots j
  count : s'.decodePending = s.decodePending - pendingSlots s

theorem collectBatch_spec (s : Executor n) : Collected s (collectBatch s).1 (collectBatch s).2 := by
  obtain ⟨hitems, hslots, -, hcount⟩ := foldl_collectSlot (List.nodup_finRange n) s []
  refine ⟨hitems, fun j => (hslots j).trans ?_, hcount⟩
  simp

/-- The worker waits with everything as it was, or takes the model for the pending slots. -/
inductive DecodeStep (s : Executor n) (next : Executor n × DecodeWorker n) : Prop
  | waits (hslots : next.1.slots = s.slots) (hbusy : next.1.modelBusy = s.modelBusy)
      (hcount : next.1.decodePending + pendingSlots s = s.decodePending + pendingSlots s)
      (hworker : ∀ items, next.2 ≠ .evaluating items)
  | takes (items : List (DecodeItem n)) (hfree : s.modelBusy = false) (hbatch : Collected s next.1 items)
      (hbusy : next.1.modelBusy = true) (hworker : next.2 = .evaluating items)

theorem decodeWorkerPick_cases (s : Executor n) : DecodeStep s (decodeWorkerPick s) := by
  unfold decodeWorkerPick
  split
  case isTrue => exact .waits rfl rfl rfl nofun
  case isFalse hfree =>
    split
    case isTrue => exact .waits rfl rfl rfl nofun
    case isFalse =>
      have hbatch := collectBatch_spec s
      obtain ⟨-, -, hbusy, -⟩ := foldl_collectSlot (List.nodup_finRange n) s []
      simp only
      split
      case isTrue hnone =>
        -- nobody is pending, so nothing has been collected
        have hempty : ((List.finRange n).filter fun i => (s.slots i).decodePending) = [] := by
          rw [← List.map_eq_nil_iff, ← hbatch.items]
          exact hnone
        have hnobody (j : Fin n) : ¬ (s.slots j).decodePending = true := by
          intro hj
          have hmem : j ∈ (List.finRange n).filter fun i => (s.slots i).decodePending :=
          List.mem_filter.mpr ⟨List.mem_finRange j, hj⟩
          rw [hempty] at hmem
          cases hmem
        refine .waits (funext fun j => ?_) hbusy ?_ nofun
        · rw [hbatch.slots j, if_neg (hnobody j)]
        · have hzero : pendingSlots s = 0 := List.countP_eq_zero.mpr fun j _ => hnobody j
          rw [hbatch.count, hzero]
          simp
      case isFalse =>
        exact .takes _ (Bool.not_eq_true _ ▸ hfree) ⟨hbatch.items, hbatch.slots, hbatch.count⟩ rfl rfl

theorem decodeWorkerCoalesce_cases (s : Executor n) (observed : Int) :
    DecodeStep s (decodeWorkerCoalesce s observed) := by
  unfold decodeWorkerCoalesce
  split
  case isTrue => exact .waits rfl rfl rfl nofun
  case isFalse => exact decodeWorkerPick_cases s

theorem decodeWorkerTop_cases (coalesceUs : Int) (s : Executor n) : DecodeStep s (decodeWorkerTop coalesceUs s) := by
  unfold decodeWorkerTop
  split
  case isTrue =>
    refine .waits rfl rfl rfl fun items => ?_
    split <;> nofun
  case isFalse =>
    split
    case isTrue => exact decodeWorkerCoalesce_cases s _
    case isFalse => exact decodeWorkerPick_cases s

theorem decodeWorkerWake_cases (coalesceUs : Int) (s : Executor n) (rc : Int) {worker : DecodeWorker n}
    (hworker : ∀ items, worker ≠ .evaluating items) : DecodeStep s (decodeWorkerWake coalesceUs s rc worker) := by
  cases worker with
  | waiting => exact decodeWorkerTop_cases coalesceUs s
  | coalescing observed =>
    simp only [decodeWorkerWake]
    split
    case isTrue => exact decodeWorkerPick_cases s
    case isFalse => exact decodeWorkerCoalesce_cases s _
  | waitingModel => exact decodeWorkerPick_cases s
  | evaluating items => exact absurd rfl (hworker items)
  | exited => exact .waits rfl rfl rfl nofun

def DecodeSlot.finished (slot : DecodeSlot) (rc : Int) (batchErr : String) : DecodeSlot :=
  { slot with
    decodeInFlight := false
    decodeRc := rc
    decodeErr :=
      if rc ≠ 0 then (if batchErr ≠ "" then batchErr else "batched decode failed") else slot.decodeErr
    decodeDone := true }

theorem finished_finished (slot : DecodeSlot) (rc : Int) (batchErr : String) :
    (slot.finished rc batchErr).finished rc batchErr = slot.finished rc batchErr := by
  unfold DecodeSlot.finished
  split <;> rfl

theorem foldl_finishItem (s : Executor n) (items : List (DecodeItem n)) (rc : Int) (batchErr : String) :
    (∀ j, (items.foldl (finishItem rc batchErr) s).slots j =
      if j ∈ items.map DecodeItem.slot then (s.slots j).finished rc batchErr else s.slots j) ∧
      (items.foldl (finishItem rc batchErr) s).decodePending = s.decodePending ∧
      (items.foldl (finishItem rc batchErr) s).modelBusy = s.modelBusy := by
  induction items generalizing s with
  | nil => simp
  | cons item items ih =>
    obtain ⟨hslots, hcount, hbusy⟩ := ih (finishItem rc batchErr s item)
    rw [List.foldl_cons]
    refine ⟨fun j => (hslots j).trans ?_, hcount, hbusy⟩
    have hone : (finishItem rc batchErr s item).slots j =
        if j = item.slot then (s.slots j).finished rc batchErr else s.slots j := by
      show Function.update s.slots item.slot ((s.slots item.slot).finished rc batchErr) j = _
      by_cases hj : j = item.slot
      · rw [if_pos hj, hj, Function.update_self]
      · rw [if_neg hj, Function.update_of_ne hj]
    rw [hone, List.map_cons]
    by_cases hj : j = item.slot
    · rw [if_pos hj, if_pos (List.mem_cons.mpr (.inl hj)), finished_finished, ite_self]
    · simp [hj]

/-! ## Who has the model -/

/-- The model is busy just when a batch or a prefill quantum is being evaluated, and there is never more than
one. -/
structure Owned (sys : System n) : Prop where
  one : ∀ a b, Owns sys a → Owns sys b → a = b
  busy : sys.executor.modelBusy = true ↔ ∃ a, Owns sys a

/-- A step of a slot's worker that neither takes the model nor gives it back. -/
theorem Owned.frame (h : Owned sys) (hbusy : sys'.executor.modelBusy = sys.executor.modelBusy)
    (howns : ∀ a, Owns sys' a ↔ Owns sys a) : Owned sys' := by
  refine ⟨fun a b ha hb => h.one a b ((howns a).mp ha) ((howns b).mp hb), ?_⟩
  rw [hbusy, h.busy]
  exact exists_congr fun a => (howns a).symm

theorem Owned.take (h : Owned sys) (hfree : sys.executor.modelBusy = false)
    (hbusy : sys'.executor.modelBusy = true) (owner : Owner n)
    (howns : ∀ a, Owns sys' a ↔ Owns sys a ∨ a = owner) : Owned sys' := by
  have hnobody (a : Owner n) : ¬ Owns sys a := by
    intro ha
    have hb := h.busy.mpr ⟨a, ha⟩
    rw [hfree] at hb
    cases hb
  have honly (a : Owner n) (ha : Owns sys' a) : a = owner := ((howns a).mp ha).resolve_left (hnobody a)
  refine ⟨fun a b ha hb => (honly a ha).trans (honly b hb).symm, ?_⟩
  exact iff_of_true hbusy ⟨owner, (howns owner).mpr (.inr rfl)⟩

theorem Owned.release (h : Owned sys) (hbusy : sys'.executor.modelBusy = false) (owner : Owner n)
    (hwas : Owns sys owner) (howns : ∀ a, Owns sys' a → Owns sys a ∧ a ≠ owner) : Owned sys' := by
  have hnobody (a : Owner n) : ¬ Owns sys' a := fun ha =>
    (howns a ha).2 (h.one a owner (howns a ha).1 hwas)
  refine ⟨fun a b ha => absurd ha (hnobody a), ?_⟩
  rw [hbusy]
  exact iff_of_false Bool.false_ne_true fun ⟨a, ha⟩ => hnobody a ha

/-- Which slots are in a prefill quantum, where one worker goes on. -/
theorem owns_update {worker : SlotWorker} (hworkers : sys'.workers = Function.update sys.workers i worker)
    (hdecode : sys'.decodeWorker = sys.decodeWorker) (hbefore : sys.workers i ≠ .prefilling) (a : Owner n) :
    Owns sys' a ↔ Owns sys a ∨ worker = .prefilling ∧ a = .prefill i := by
  cases a with
  | batch => simp [Owns, hdecode]
  | prefill j =>
    by_cases hj : j = i
    · subst hj
      simp [Owns, hworkers, hbefore]
    · have hne : Owner.prefill j ≠ Owner.prefill i := fun h => hj (Owner.prefill.inj h)
      simp [Owns, hworkers, hj, hne]

/-- Going into or on with a call does not touch the model. -/
theorem Owned.evaluated (h : Owned sys) {next : Executor n × Option EvalResult}
    (hslot : OnSlot sys.executor i next.1 slot) (hbefore : sys.workers i ≠ .prefilling) :
    Owned (sys.evaluated i token next) := by
  refine h.frame hslot.modelBusy fun a => ?_
  rw [owns_update (show (sys.evaluated i token next).workers = _ from rfl) rfl hbefore]
  split <;> simp

/-- What a section of `server_prefill_enter` does: it marks its slot, and takes the model if it is free. -/
structure PrefillStep (s : Executor n) (i : Fin n) (next : Executor n × Option Bool) : Prop where
  slots : ∃ waiting, next.1.slots = Function.update s.slots i { s.slots i with prefillWaiting := waiting }
  count : next.1.decodePending = s.decodePending
  stays : next.2 ≠ some true → next.1.modelBusy = s.modelBusy
  takes : next.2 = some true → s.modelBusy = false ∧ next.1.modelBusy = true

theorem prefillEnterLoop_spec (s : Executor n) (signals : Signals) (i : Fin n) :
    PrefillStep s i (serverPrefillEnterLoop s signals i) := by
  unfold serverPrefillEnterLoop
  simp only
  split
  case isTrue => exact ⟨⟨_, (Function.update_eq_self i s.slots).symm⟩, rfl, fun _ => rfl, nofun⟩
  case isFalse hgoes =>
    split
    case isTrue => exact ⟨⟨_, rfl⟩, rfl, fun _ => rfl, nofun⟩
    case isFalse hstopped =>
      simp only [Bool.not_eq_true] at hstopped
      simp only [hstopped, Bool.not_false, Bool.true_and, Bool.or_eq_true, not_or, Bool.not_eq_true] at hgoes
      exact ⟨⟨_, rfl⟩, rfl, fun h => absurd rfl h, fun _ => ⟨hgoes.1.1, rfl⟩⟩

theorem prefillEnter_spec (s : Executor n) (signals : Signals) (i : Fin n) :
    PrefillStep s i (serverPrefillEnter s signals i) := by
  unfold serverPrefillEnter
  split
  case isTrue => exact ⟨⟨_, (Function.update_eq_self i s.slots).symm⟩, rfl, fun _ => rfl, nofun⟩
  case isFalse =>
    obtain ⟨⟨waiting, hslots⟩, hcount, hstays, htakes⟩ :=
      prefillEnterLoop_spec (s.setSlot i { s.slots i with prefillWaiting := true }) signals i
    refine ⟨⟨waiting, hslots.trans ?_⟩, hcount, hstays, htakes⟩
    rw [setSlot_slots, Function.update_idem, Function.update_self]

theorem Owned.entered (h : Owned sys) (hbefore : sys.workers i ≠ .prefilling)
    {next : Executor n × Option Bool} (hnext : PrefillStep sys.executor i next) : Owned (sys.entered i next) := by
  have howns := @owns_update _ sys (sys.entered i next) i _ rfl rfl hbefore
  by_cases hin : next.2 = some true
  · obtain ⟨hfree, hbusy⟩ := hnext.takes hin
    refine @Owned.take _ _ (sys.entered i next) h hfree hbusy (.prefill i) fun a => ?_
    rw [howns, hin]
    simp
  · refine h.frame (hnext.stays hin) fun a => ?_
    rw [howns, or_iff_left]
    rintro ⟨hprefilling, -⟩
    revert hin hprefilling
    rcases next.2 with _ | _ | _ <;> simp

/-- The decode worker waits, or takes a free model. -/
theorem Owned.decode (h : Owned sys) (hwaits : ∀ items, sys.decodeWorker ≠ .evaluating items)
    {next : Executor n × DecodeWorker n} (hnext : DecodeStep sys.executor next) :
    Owned { sys with executor := next.1, decodeWorker := next.2 } := by
  cases hnext with
  | waits hslots hbusy hcount hworker =>
    refine h.frame hbusy fun a => ?_
    cases a with
    | batch =>
      exact iff_of_false (fun ⟨items, hitems⟩ => hworker items hitems) fun ⟨items, hitems⟩ => hwaits items hitems
    | prefill j => rfl
  | takes items hfree hbatch hbusy hworker =>
    refine h.take hfree hbusy .batch fun a => ?_
    cases a with
    | batch => exact iff_of_true ⟨items, hworker⟩ (.inr rfl)
    | prefill j => exact ⟨.inl, fun ha => ha.resolve_right nofun⟩

/-! ## Where the tokens are -/

/-- The call a slot is in, or was in last. -/
def System.current (sys : System n) (i : Fin n) : Fin n × Nat := (i, (sys.executor.slots i).call)

/-- Where the token of a slot's call is. -/
inductive Phase (sys : System n) (i : Fin n) : Prop
  | away (hworker : ∀ token, sys.workers i ≠ .evaluating token)
      (hpending : (sys.executor.slots i).decodePending = false)
      (hflight : (sys.executor.slots i).decodeInFlight = false)
  | pending (hworker : sys.workers i = .evaluating (sys.executor.slots i).decodeToken)
      (hpending : (sys.executor.slots i).decodePending = true)
      (hflight : (sys.executor.slots i).decodeInFlight = false)
      (hdone : (sys.executor.slots i).decodeDone = false)
      (hbatched : sys.current i ∉ sys.batched.map DecodeItem.id) (hwithdrawn : sys.current i ∉ sys.withdrawn)
      (hreturned : sys.current i ∉ sys.returned.map fun r => r.item.id)
  | inFlight (hworker : sys.workers i = .evaluating (sys.executor.slots i).decodeToken)
      (hpending : (sys.executor.slots i).decodePending = false)
      (hflight : (sys.executor.slots i).decodeInFlight = true)
      (hdone : (sys.executor.slots i).decodeDone = false)
      (hreturned : sys.current i ∉ sys.returned.map fun r => r.item.id)
  | done (hworker : sys.workers i = .evaluating (sys.executor.slots i).decodeToken)
      (hpending : (sys.executor.slots i).decodePending = false)
      (hflight : (sys.executor.slots i).decodeInFlight = false)
      (hdone : (sys.executor.slots i).decodeDone = true)
      (hrc : (sys.executor.slots i).decodeRc = 0 → Succeeded sys (sys.executor.item i))

structure Tracked (sys : System n) : Prop where
  phase : ∀ i, Phase sys i
  count : sys.executor.decodePending = pendingSlots sys.executor
  flight : ∀ item ∈ sys.inFlight,
    (sys.executor.slots item.slot).decodeInFlight = true ∧ item = sys.executor.item item.slot
  flown : ∀ i, (sys.executor.slots i).decodeInFlight = true → sys.executor.item i ∈ sys.inFlight
  once : (sys.batched.map DecodeItem.id).Nodup
  known : ∀ call, (call ∈ sys.batched.map DecodeItem.id ∨ call ∈ sys.withdrawn ∨
    call ∈ sys.returned.map fun r => r.item.id) → call.2 ≤ (sys.executor.slots call.1).call
  apart : ∀ call ∈ sys.withdrawn, call ∉ sys.batched.map DecodeItem.id
  proved : ∀ r ∈ sys.returned, r.result.rc = 0 → Succeeded sys r.item

theorem coordinated_of (howned : Owned sys) (htracked : Tracked sys) : Coordinated sys := by
  have htimes {call : Fin n × Nat} (h : call ∉ sys.batched.map DecodeItem.id) : sys.timesBatched call = 0 :=
    List.count_eq_zero.mpr h
  refine ⟨howned.one, howned.busy, htracked.count, fun i => ?_, fun call => ?_, fun r hr hrc => ?_,
    fun call hcall => htimes (htracked.apart call hcall), fun r hr hflight => ?_⟩
  · rintro ⟨hpending, hflight⟩
    cases htracked.phase i <;> simp_all
  · exact List.nodup_iff_count_le_one.mp htracked.once call
  · have hok := htracked.proved r hr hrc
    obtain ⟨batch, hbatch, -, hitem⟩ := hok
    have hmem : r.item ∈ sys.batched := List.mem_append_left _ (List.mem_flatMap.mpr ⟨batch, hbatch, hitem⟩)
    exact ⟨List.count_eq_one_of_mem htracked.once (List.mem_map_of_mem hmem), htracked.proved r hr hrc⟩
  · obtain ⟨item, hitem, hid⟩ := List.mem_map.mp hflight
    obtain ⟨hin, hself⟩ := htracked.flight item hitem
    have hcurrent : sys.current item.slot = r.item.id := by
      rw [← hid, hself]
      rfl
    have hreturned : sys.current item.slot ∈ sys.returned.map fun r => r.item.id := by
      rw [hcurrent]
      exact List.mem_map_of_mem hr
    cases htracked.phase item.slot with
    | away hworker hpending hflight => rw [hflight] at hin; cases hin
    | pending hworker hpending hflight hdone hbatched hwithdrawn hnot => exact hnot hreturned
    | inFlight hworker hpending hflight hdone hnot => exact hnot hreturned
    | done hworker hpending hflight hdone hrc => rw [hflight] at hin; cases hin

/-! ## One step -/

/-- A slot that a step leaves alone. -/
theorem Phase.frame (h : Phase sys j) (hslot : sys'.executor.slots j = sys.executor.slots j)
    (hworker : sys'.workers j = sys.workers j)
    (hbatched : (sys.executor.slots j).decodePending = true →
      sys.current j ∈ sys'.batched.map DecodeItem.id → sys.current j ∈ sys.batched.map DecodeItem.id)
    (hwithdrawn : sys.current j ∈ sys'.withdrawn → sys.current j ∈ sys.withdrawn)
    (hreturned : sys.current j ∈ (sys'.returned.map fun r => r.item.id) →
      sys.current j ∈ sys.returned.map fun r => r.item.id)
    (hfinished : ∀ batch ∈ sys.finished, batch ∈ sys'.finished) : Phase sys' j := by
  have hcurrent : sys'.current j = sys.current j := by rw [System.current, System.current, hslot]
  cases h with
  | away hevaluating hpending hflight =>
    exact .away (by rwa [hworker]) (by rwa [hslot]) (by rwa [hslot])
  | pending hevaluating hpending hflight hdone hnew hnot hopen =>
    refine .pending (by rwa [hworker, hslot]) (by rwa [hslot]) (by rwa [hslot]) (by rwa [hslot]) ?_ ?_ ?_
    · rw [hcurrent]
      exact fun hmem => hnew (hbatched hpending hmem)
    · rw [hcurrent]
      exact fun hmem => hnot (hwithdrawn hmem)
    · rw [hcurrent]
      exact fun hmem => hopen (hreturned hmem)
  | inFlight hevaluating hpending hflight hdone hopen =>
    refine .inFlight (by rwa [hworker, hslot]) (by rwa [hslot]) (by rwa [hslot]) (by rwa [hslot]) ?_
    rw [hcurrent]
    exact fun hmem => hopen (hreturned hmem)
  | done hevaluating hpending hflight hdone hrc =>
    refine .done (by rwa [hworker, hslot]) (by rwa [hslot]) (by rwa [hslot]) (by rwa [hslot]) fun hzero => ?_
    rw [hslot] at hzero
    obtain ⟨batch, hbatch, hok, hitem⟩ := hrc hzero
    rw [Executor.item, hslot]
    exact ⟨batch, hfinished batch hbatch, hok, hitem⟩

/-- A step on one slot that is not in flight: its token may be withdrawn and its call may return. -/
theorem Tracked.onSlot (h : Tracked sys) (hslots : sys'.executor.slots = Function.update sys.executor.slots i slot)
    (hcount : sys'.executor.decodePending + (sys.executor.slots i).decodePending.toNat =
      sys.executor.decodePending + slot.decodePending.toNat)
    (hflight : slot.decodeInFlight = (sys.executor.slots i).decodeInFlight)
    (hquiet : (sys.executor.slots i).decodeInFlight = false)
    (hcall : (sys.executor.slots i).call ≤ slot.call)
    (hworkers : ∀ j, j ≠ i → sys'.workers j = sys.workers j) (hdecode : sys'.decodeWorker = sys.decodeWorker)
    (hfinished : sys'.finished = sys.finished)
    (hwithdrawn : ∀ call ∈ sys'.withdrawn, call ∈ sys.withdrawn ∨
      call = (i, slot.call) ∧ call ∉ sys.batched.map DecodeItem.id)
    (hreturned : ∀ r ∈ sys'.returned, r ∈ sys.returned ∨
      r.item.id = (i, slot.call) ∧ (r.result.rc = 0 → Succeeded sys r.item))
    (hphase : Phase sys' i) : Tracked sys' := by
  have hbatched : sys'.batched = sys.batched := by
    simp only [System.batched, System.inFlight, hfinished, hdecode]
  have hin : sys'.inFlight = sys.inFlight := by simp only [System.inFlight, hdecode]
  have hself : sys'.executor.slots i = slot := by rw [hslots, Function.update_self]
  have hother {j : Fin n} (hj : j ≠ i) : sys'.executor.slots j = sys.executor.slots j := by
    rw [hslots, Function.update_of_ne hj]
  have hok {item : DecodeItem n} (hs : Succeeded sys item) : Succeeded sys' item := by
    rwa [Succeeded, hfinished]
  have hflown {j : Fin n} : (sys'.executor.slots j).decodeInFlight = (sys.executor.slots j).decodeInFlight := by
    by_cases hji : j = i
    · subst hji
      rw [hself, hflight]
    · rw [hother hji]
  have hsame {j : Fin n} (hj : (sys'.executor.slots j).decodeInFlight = true) :
      sys'.executor.item j = sys.executor.item j := by
    rw [Executor.item, Executor.item, hother]
    rintro rfl
    rw [hflown, hquiet] at hj
    cases hj
  have hgrows (j : Fin n) : (sys.executor.slots j).call ≤ (sys'.executor.slots j).call := by
    by_cases hji : j = i
    · subst hji
      rwa [hself]
    · rw [hother hji]
  refine ⟨fun j => ?_, ?_, fun item hmem => ?_, fun j hj => ?_, ?_, fun call hmem => ?_, fun call hmem => ?_,
    fun r hr hrc => ?_⟩
  · by_cases hji : j = i
    · rwa [hji]
    · have hne (k : Nat) : (j, k) ≠ (i, slot.call) := fun heq => hji (Prod.mk.inj heq).1
      refine (h.phase j).frame (hother hji) (hworkers j hji) (fun _ hmem => by rwa [hbatched] at hmem)
        (fun hmem => ?_) (fun hmem => ?_) (fun batch hmem => by rwa [hfinished])
      · exact (hwithdrawn _ hmem).resolve_right fun hnew => hne _ hnew.1
      · obtain ⟨r, hr, hid⟩ := List.mem_map.mp hmem
        rcases hreturned r hr with hold | ⟨hnew, -⟩
        · exact List.mem_map.mpr ⟨r, hold, hid⟩
        · exact absurd (hid.symm.trans hnew) (hne _)
  · have hchange := pendingSlots_change hslots
    have hbefore := h.count
    omega
  · rw [hin] at hmem
    obtain ⟨hfly, hitem'⟩ := h.flight item hmem
    have hfly' := hflown.trans hfly
    exact ⟨hfly', hitem'.trans (hsame hfly').symm⟩
  · rw [hin, hsame hj]
    exact h.flown j (hflown ▸ hj)
  · rw [hbatched]
    exact h.once
  · rcases hmem with hmem | hmem | hmem
    · rw [hbatched] at hmem
      exact (h.known call (.inl hmem)).trans (hgrows _)
    · rcases hwithdrawn call hmem with hold | ⟨rfl, -⟩
      · exact (h.known call (.inr (.inl hold))).trans (hgrows _)
      · exact hself ▸ Nat.le_refl _
    · obtain ⟨r, hr, rfl⟩ := List.mem_map.mp hmem
      rcases hreturned r hr with hold | ⟨hnew, -⟩
      · exact (h.known _ (.inr (.inr (List.mem_map.mpr ⟨r, hold, rfl⟩)))).trans (hgrows _)
      · rw [hnew]
        exact hself ▸ Nat.le_refl _
  · rw [hbatched]
    rcases hwithdrawn call hmem with hold | ⟨-, hnew⟩
    · exact h.apart call hold
    · exact hnew
  · rcases hreturned r hr with hold | ⟨-, hnew⟩
    · exact hok (h.proved r hold hrc)
    · exact hok (hnew hrc)

theorem mem_withdrawals_onSlot (h : OnSlot s i s' slot) {call : Fin n × Nat} (hcall : call ∈ withdrawals s s') :
    call = (i, (s.slots i).call) ∧ (s.slots i).decodePending = true ∧ slot.decodePending = false := by
  obtain ⟨hbefore, hafter, hlast⟩ := mem_withdrawals.mp hcall
  by_cases hi : call.1 = i
  · subst hi
    rw [h.self] at hafter
    exact ⟨Prod.ext rfl hlast, hbefore, hafter⟩
  · rw [h.other hi, hbefore] at hafter
    cases hafter

theorem mem_evaluated_returned {next : Executor n × Option EvalResult} {r : EvalReturn n}
    (h : r ∈ (sys.evaluated i token next).returned) : r ∈ sys.returned ∨
      ∃ result, next.2 = some result ∧ r = ⟨⟨i, (next.1.slots i).call, token⟩, result⟩ := by
  rcases List.mem_append.mp h with hold | hnew
  · exact .inl hold
  · obtain ⟨result, hresult, rfl⟩ := Option.map_eq_some_iff.mp (Option.mem_toList.mp hnew)
    exact .inr ⟨result, hresult, rfl⟩

section OneCall

variable {next : Executor n × Option EvalResult}

/-- The worker of a slot has left its call, with nothing in its slot. -/
theorem phase_returned (hslot : OnSlot sys.executor i next.1 slot) {result : EvalResult}
    (hresult : next.2 = some result) (hpending : slot.decodePending = false)
    (hflight : (sys.executor.slots i).decodeInFlight = false) : Phase (sys.evaluated i token next) i := by
  refine .away (fun token' => ?_) ?_ ?_
  · simp [System.evaluated, hresult]
  · show (next.1.slots i).decodePending = false
    rw [hslot.self, hpending]
  · show (next.1.slots i).decodeInFlight = false
    rw [hslot.self, hslot.inFlight, hflight]

/-- The same for a step of a call. -/
theorem Tracked.call (h : Tracked sys) (hslot : OnSlot sys.executor i next.1 slot)
    (hquiet : (sys.executor.slots i).decodeInFlight = false) (hcall : (sys.executor.slots i).call ≤ slot.call)
    (hwithdrawn : ∀ call ∈ withdrawals sys.executor next.1,
      call = (i, slot.call) ∧ call ∉ sys.batched.map DecodeItem.id)
    (hreturned : ∀ result, next.2 = some result → result.rc = 0 → Succeeded sys ⟨i, slot.call, token⟩)
    (hphase : Phase (sys.evaluated i token next) i) : Tracked (sys.evaluated i token next) := by
  refine @Tracked.onSlot _ _ (sys.evaluated i token next) _ _ h hslot.slots hslot.count hslot.inFlight hquiet hcall
    (fun j hj => Function.update_of_ne hj _ _) rfl rfl
    (fun call hmem => (List.mem_append.mp hmem).imp_right (hwithdrawn call)) (fun r hr => ?_) hphase
  refine (mem_evaluated_returned hr).imp_right ?_
  rintro ⟨result, hresult, rfl⟩
  rw [hslot.self]
  exact ⟨rfl, hreturned result hresult⟩

/-- A call that begins. -/
theorem Tracked.begin (h : Tracked sys) (hworker : sys.workers i = .idle)
    (hnext : EvalToken sys.executor i token next) : Tracked (sys.evaluated i token next) := by
  have hbefore : (sys.executor.slots i).decodePending = false ∧ (sys.executor.slots i).decodeInFlight = false := by
    cases h.phase i with
    | away _ hpending hflight => exact ⟨hpending, hflight⟩
    | pending hevaluating => rw [hworker] at hevaluating; cases hevaluating
    | inFlight hevaluating => rw [hworker] at hevaluating; cases hevaluating
    | done hevaluating => rw [hworker] at hevaluating; cases hevaluating
  obtain ⟨hpending₀, hflight₀⟩ := hbefore
  -- nothing was pending, so nothing is withdrawn
  have hnone {slot : DecodeSlot} (hslot : OnSlot sys.executor i next.1 slot) (call : Fin n × Nat)
      (hcall : call ∈ withdrawals sys.executor next.1) :
      call = (i, slot.call) ∧ call ∉ sys.batched.map DecodeItem.id := by
    have hwas := (mem_withdrawals_onSlot hslot hcall).2.1
    rw [hpending₀] at hwas
    cases hwas
  cases hnext with
  | refused slot result hslot hpending hcall hresult hrc =>
    refine h.call hslot hflight₀ (by omega) (hnone hslot) (fun result' hresult' hzero => ?_)
      (phase_returned hslot hresult (hpending.trans hpending₀) hflight₀)
    rw [hresult] at hresult'
    cases hresult'
    exact absurd hzero hrc
  | submits slot hslot hpending hdone hcall htoken hresult =>
    have hreturned : (sys.evaluated i token next).returned = sys.returned := by
      simp [System.evaluated, hresult]
    have hself : (sys.evaluated i token next).executor.slots i = slot := hslot.self
    -- no earlier call has this number
    have hnew {call : Fin n × Nat} (hknown : call ∈ sys.batched.map DecodeItem.id ∨ call ∈ sys.withdrawn ∨
        call ∈ sys.returned.map fun r => r.item.id) : call ≠ (sys.evaluated i token next).current i := by
      rintro rfl
      have hle := h.known _ hknown
      rw [System.current, hself] at hle
      simp only at hle
      omega
    refine h.call hslot hflight₀ (by omega) (hnone hslot) (fun result' hresult' => ?_) ?_
    · rw [hresult] at hresult'
      cases hresult'
    · refine .pending ?_ ?_ ?_ ?_ (fun hmem => hnew (.inl hmem) rfl) (fun hmem => ?_) (fun hmem => ?_)
      · rw [hself, htoken]
        simp [System.evaluated, hresult]
      · rw [hself, hpending]
      · rw [hself, hslot.inFlight, hflight₀]
      · rw [hself, hdone]
      · refine (List.mem_append.mp hmem).elim (fun hold => hnew (.inr (.inl hold)) rfl) fun hnow => ?_
        have hwas := (mem_withdrawals_onSlot hslot hnow).2.1
        rw [hpending₀] at hwas
        cases hwas
      · rw [hreturned] at hmem
        exact hnew (.inr (.inr hmem)) rfl

/-- A call that goes on. -/
theorem Tracked.goOn (h : Tracked sys) (hworker : sys.workers i = .evaluating token)
    (hnext : EvalLoop sys.executor i next) : Tracked (sys.evaluated i token next) := by
  cases hnext with
  | waits hdone hnext =>
    subst hnext
    have hquiet : withdrawals sys.executor sys.executor = [] :=
      List.eq_nil_iff_forall_not_mem.mpr fun call hcall => by
        obtain ⟨hbefore, hafter, -⟩ := mem_withdrawals.mp hcall
        rw [hbefore] at hafter
        cases hafter
    have hsame : sys.evaluated i token (sys.executor, none) = sys := by
      have hupdate : Function.update sys.workers i (.evaluating token) = sys.workers := by
        rw [← hworker, Function.update_eq_self]
      simp [System.evaluated, hquiet, hupdate]
    rw [hsame]
    exact h
  | returns slot result hdone hslot hpending hcall hresult hrc =>
    cases h.phase i with
    | away hevaluating => exact absurd hworker (hevaluating token)
    | pending hevaluating hpending₀ hflight₀ hdone₀ => rw [hdone] at hdone₀; cases hdone₀
    | inFlight hevaluating hpending₀ hflight₀ hdone₀ => rw [hdone] at hdone₀; cases hdone₀
    | done hevaluating hpending₀ hflight₀ hdone₀ hrc₀ =>
      rw [hworker, SlotWorker.evaluating.injEq] at hevaluating
      refine h.call hslot hflight₀ hcall.ge (fun call hmem => ?_) (fun result' hresult' hzero => ?_)
        (phase_returned hslot hresult (hpending.trans hpending₀) hflight₀)
      · have hwas := (mem_withdrawals_onSlot hslot hmem).2.1
        rw [hpending₀] at hwas
        cases hwas
      · rw [hresult] at hresult'
        cases hresult'
        have hok := hrc₀ (hrc hzero)
        rwa [Executor.item, ← hcall, ← hevaluating] at hok
  | withdraws slot result hdone hslot hwas hflight hpending hcall hresult hrc =>
    cases h.phase i with
    | away hevaluating => exact absurd hworker (hevaluating token)
    | inFlight hevaluating hpending₀ => rw [hwas] at hpending₀; cases hpending₀
    | done hevaluating hpending₀ => rw [hwas] at hpending₀; cases hpending₀
    | pending hevaluating hpending₀ hflight₀ hdone₀ hbatched hwithdrawn hreturned =>
      refine h.call hslot hflight₀ hcall.ge (fun call hmem => ?_) (fun result' hresult' hzero => ?_)
        (phase_returned hslot hresult hpending hflight₀)
      · obtain ⟨rfl, -, -⟩ := mem_withdrawals_onSlot hslot hmem
        exact ⟨by rw [hcall], hbatched⟩
      · rw [hresult] at hresult'
        cases hresult'
        exact absurd hzero hrc

end OneCall

/-- Steps that touch no call. -/
theorem Tracked.aside (h : Tracked sys) (hslots : sys'.executor.slots = sys.executor.slots)
    (hcount : sys'.executor.decodePending = sys.executor.decodePending) (hworkers : sys'.workers = sys.workers)
    (hflight : sys'.inFlight = sys.inFlight) (hfinished : sys'.finished = sys.finished)
    (hwithdrawn : sys'.withdrawn = sys.withdrawn) (hreturned : sys'.returned = sys.returned) : Tracked sys' := by
  have hbatched : sys'.batched = sys.batched := by
    simp only [System.batched, hfinished, hflight]
  have hpending : pendingSlots sys'.executor = pendingSlots sys.executor := by
    simp only [pendingSlots, hslots]
  have hitem (j : Fin n) : sys'.executor.item j = sys.executor.item j := by
    simp only [Executor.item, hslots]
  refine ⟨fun j => ?_, ?_, ?_, fun j hj => ?_, ?_, ?_, ?_, ?_⟩
  · refine (h.phase j).frame (by rw [hslots]) (by rw [hworkers]) (fun _ hmem => by rwa [hbatched] at hmem)
      (fun hmem => by rwa [hwithdrawn] at hmem) (fun hmem => by rwa [hreturned] at hmem)
      (fun batch hmem => by rwa [hfinished])
  · rw [hcount, hpending]
    exact h.count
  · rw [hflight, hslots]
    intro item hmem
    rw [hitem]
    exact h.flight item hmem
  · rw [hflight, hitem]
    exact h.flown j (by rwa [hslots] at hj)
  · rw [hbatched]
    exact h.once
  · rw [hbatched, hwithdrawn, hreturned, hslots]
    exact h.known
  · rw [hbatched, hwithdrawn]
    exact h.apart
  · rw [hreturned]
    simp only [Succeeded, hfinished]
    exact h.proved

/-- A step of a worker that is in no call before or after it. -/
theorem Tracked.elsewhere (h : Tracked sys) (hslots : sys'.executor.slots = Function.update sys.executor.slots i slot)
    (hcount : sys'.executor.decodePending = sys.executor.decodePending)
    (hcalls : slot.decodePending = (sys.executor.slots i).decodePending ∧
      slot.decodeInFlight = (sys.executor.slots i).decodeInFlight ∧ slot.call = (sys.executor.slots i).call)
    (hbefore : ∀ token, sys.workers i ≠ .evaluating token) (hafter : ∀ token, sys'.workers i ≠ .evaluating token)
    (hworkers : ∀ j, j ≠ i → sys'.workers j = sys.workers j) (hdecode : sys'.decodeWorker = sys.decodeWorker)
    (hfinished : sys'.finished = sys.finished) (hwithdrawn : sys'.withdrawn = sys.withdrawn)
    (hreturned : sys'.returned = sys.returned) : Tracked sys' := by
  obtain ⟨hpending, hflight, hcall⟩ := hcalls
  cases h.phase i with
  | pending hevaluating => exact absurd hevaluating (hbefore _)
  | inFlight hevaluating => exact absurd hevaluating (hbefore _)
  | done hevaluating => exact absurd hevaluating (hbefore _)
  | away hevaluating hpending₀ hflight₀ =>
    refine h.onSlot hslots (by rw [hcount, hpending]) hflight hflight₀ hcall.ge hworkers hdecode hfinished
      (fun call hmem => .inl (hwithdrawn ▸ hmem)) (fun r hr => .inl (hreturned ▸ hr)) (.away hafter ?_ ?_)
    · rw [hslots, Function.update_self, hpending, hpending₀]
    · rw [hslots, Function.update_self, hflight, hflight₀]

theorem Tracked.entered (h : Tracked sys) (hbefore : ∀ token, sys.workers i ≠ .evaluating token)
    {next : Executor n × Option Bool} (hnext : PrefillStep sys.executor i next) : Tracked (sys.entered i next) := by
  obtain ⟨⟨waiting, hslots⟩, hcount, -, -⟩ := hnext
  refine @Tracked.elsewhere _ _ (sys.entered i next) _ _ h hslots hcount ⟨rfl, rfl, rfl⟩ hbefore (fun token => ?_)
    (fun j hj => Function.update_of_ne hj _ _) rfl rfl rfl rfl
  simp only [System.entered, Function.update_self]
  split <;> nofun

/-- A client that goes away withdraws a token that is still pending. -/
theorem Tracked.cancel (h : Tracked sys) (job : Nat) :
    Tracked { sys with
      executor := serverCancelJob sys.executor job
      withdrawn := sys.withdrawn ++ withdrawals sys.executor (serverCancelJob sys.executor job) } := by
  have hquiet : withdrawals sys.executor sys.executor = [] :=
    List.eq_nil_iff_forall_not_mem.mpr fun call hcall => by
      obtain ⟨hbefore, hafter, -⟩ := mem_withdrawals.mp hcall
      rw [hbefore] at hafter
      cases hafter
  have hcases : serverCancelJob sys.executor job = sys.executor ∨
      ∃ i, serverCancelPendingDecodeLocked sys.executor i = some (serverCancelJob sys.executor job) := by
    unfold serverCancelJob
    split
    · next i _ =>
      cases hcancel : serverCancelPendingDecodeLocked sys.executor i with
      | none => exact .inl rfl
      | some s => exact .inr ⟨i, hcancel⟩
    · exact .inl rfl
  rcases hcases with hsame | ⟨i, hcancel⟩
  · rw [hsame, hquiet, List.append_nil]
    exact h
  · generalize serverCancelJob sys.executor job = s' at hcancel ⊢
    rcases cancelPending_cases sys.executor i with hnone | ⟨s₂, slot, heq, hslot, hwas, hflight, hpending, hcall,
      htoken, hdone, hrc⟩
    · rw [hnone] at hcancel
      cases hcancel
    · rw [hcancel] at heq
      cases heq
      cases h.phase i with
      | away _ hpending₀ => rw [hwas] at hpending₀; cases hpending₀
      | inFlight _ hpending₀ => rw [hwas] at hpending₀; cases hpending₀
      | done _ hpending₀ => rw [hwas] at hpending₀; cases hpending₀
      | pending hevaluating hpending₀ hflight₀ hdone₀ hbatched hwithdrawn hreturned =>
        refine h.onSlot hslot.slots hslot.count hslot.inFlight hflight₀ hcall.ge (fun _ _ => rfl) rfl rfl
          (fun call hmem => ?_) (fun r hr => .inl hr) (.done ?_ ?_ ?_ ?_ fun hzero => ?_)
        · refine (List.mem_append.mp hmem).imp_right fun hnew => ?_
          obtain ⟨rfl, -, -⟩ := mem_withdrawals_onSlot hslot hnew
          exact ⟨by rw [hcall], hbatched⟩
        · rw [hslot.self, htoken]
          exact hevaluating
        · rw [hslot.self, hpending]
        · rw [hslot.self, hslot.inFlight, hflight₀]
        · rw [hslot.self, hdone]
        · rw [hslot.self, hrc] at hzero
          cases hzero

/-- The decode worker takes all pending tokens at once. -/
theorem Tracked.decode (h : Tracked sys) (hwaits : ∀ items, sys.decodeWorker ≠ .evaluating items)
    {next : Executor n × DecodeWorker n} (hnext : DecodeStep sys.executor next) :
    Tracked { sys with executor := next.1, decodeWorker := next.2 } := by
  have hnothing : sys.inFlight = [] := by
    unfold System.inFlight
    split
    · next items hitems => exact absurd hitems (hwaits items)
    · rfl
  cases hnext with
  | waits hslots hbusy hcount hworker =>
    refine h.aside hslots (by simpa using hcount) rfl ?_ rfl rfl rfl
    rw [hnothing]
    unfold System.inFlight
    split
    · next items hitems => exact absurd hitems (hworker items)
    · rfl
  | takes items hfree hbatch hbusy hworker =>
    obtain ⟨hitems, hslots, hcount⟩ := hbatch
    have hin : ({ sys with executor := next.1, decodeWorker := next.2 } : System n).inFlight = items := by
      simp only [System.inFlight, hworker]
    have hmem {item : DecodeItem n} : item ∈ items ↔
        (sys.executor.slots item.slot).decodePending = true ∧ item = sys.executor.item item.slot := by
      rw [hitems, List.mem_map]
      constructor
      · rintro ⟨i, hi, rfl⟩
        exact ⟨(List.mem_filter.mp hi).2, rfl⟩
      · rintro ⟨hpending, hself⟩
        exact ⟨item.slot, List.mem_filter.mpr ⟨List.mem_finRange _, hpending⟩, hself.symm⟩
    have hitem (j : Fin n) : next.1.item j = sys.executor.item j := by
      rw [Executor.item, hslots j]
      split <;> rfl
    have hcall (j : Fin n) : (next.1.slots j).call = (sys.executor.slots j).call :=
      congrArg DecodeItem.call (hitem j)
    have hids : (({ sys with executor := next.1, decodeWorker := next.2 } : System n).batched.map DecodeItem.id) =
        sys.batched.map DecodeItem.id ++ items.map DecodeItem.id := by
      rw [System.batched, System.batched, hin, hnothing, List.append_nil, List.map_append]
    have hnew {call : Fin n × Nat} (hmemId : call ∈ items.map DecodeItem.id) :
        (sys.executor.slots call.1).decodePending = true ∧ call = sys.current call.1 := by
      obtain ⟨item, hi, rfl⟩ := List.mem_map.mp hmemId
      obtain ⟨hpending, hself⟩ := hmem.mp hi
      exact ⟨hpending, congrArg DecodeItem.id hself⟩
    -- a pending token was in no batch yet, and is not withdrawn
    have hfresh {call : Fin n × Nat} (hmemId : call ∈ items.map DecodeItem.id) :
        call ∉ sys.batched.map DecodeItem.id ∧ call ∉ sys.withdrawn := by
      obtain ⟨hpending, hself⟩ := hnew hmemId
      rw [hself]
      cases h.phase call.1 with
      | away _ hpending₀ => rw [hpending] at hpending₀; cases hpending₀
      | inFlight _ hpending₀ => rw [hpending] at hpending₀; cases hpending₀
      | done _ hpending₀ => rw [hpending] at hpending₀; cases hpending₀
      | pending _ _ _ _ hbatched hwithdrawn => exact ⟨hbatched, hwithdrawn⟩
    refine ⟨fun j => ?_, ?_, fun item hi => ?_, fun j hj => ?_, ?_, fun call hknown => ?_, fun call hw => ?_,
      h.proved⟩
    · by_cases hpending : (sys.executor.slots j).decodePending = true
      · have hself : next.1.slots j = (sys.executor.slots j).collected := by rw [hslots j, if_pos hpending]
        cases h.phase j with
        | away _ hpending₀ => rw [hpending] at hpending₀; cases hpending₀
        | inFlight _ hpending₀ => rw [hpending] at hpending₀; cases hpending₀
        | done _ hpending₀ => rw [hpending] at hpending₀; cases hpending₀
        | pending hevaluating _ _ hdone _ _ hreturned =>
          refine .inFlight ?_ ?_ ?_ ?_ ?_
          · rw [hself]
            exact hevaluating
          · rw [hself]
            rfl
          · rw [hself]
            rfl
          · rw [hself]
            exact hdone
          · rw [System.current, hcall]
            exact hreturned
      · refine (h.phase j).frame ?_ rfl (fun hpending' => absurd hpending' hpending) id id fun _ => id
        rw [hslots j, if_neg hpending]
    · have hnone : pendingSlots next.1 = 0 := List.countP_eq_zero.mpr fun j _ => by
        rw [hslots j]
        split
        · exact Bool.false_ne_true
        · assumption
      show next.1.decodePending = (pendingSlots next.1 : Int)
      rw [hcount, h.count, hnone]
      simp
    · rw [hin] at hi
      obtain ⟨hpending, hself⟩ := hmem.mp hi
      refine ⟨?_, hself.trans (hitem _).symm⟩
      show (next.1.slots item.slot).decodeInFlight = true
      rw [hslots, if_pos hpending]
      rfl
    · rw [hin]
      show next.1.item j ∈ items
      rw [hitem]
      by_cases hpending : (sys.executor.slots j).decodePending = true
      · exact hmem.mpr ⟨hpending, rfl⟩
      · have hflight : (next.1.slots j).decodeInFlight = true := hj
        rw [hslots j, if_neg hpending] at hflight
        have hflown := h.flown j hflight
        rw [hnothing] at hflown
        cases hflown
    · rw [hids]
      refine List.nodup_append.mpr ⟨h.once, ?_, fun a ha b hb hab => (hfresh hb).1 (hab ▸ ha)⟩
      rw [hitems, List.map_map]
      refine List.Nodup.map_on (fun i _ j _ hij => (Prod.mk.inj hij).1) ?_
      exact (List.nodup_finRange n).filter _
    · have hold := h.known call
      rw [hids, List.mem_append] at hknown
      show call.2 ≤ (next.1.slots call.1).call
      rw [hcall]
      rcases hknown with (hbatched | hnow) | hlater
      · exact hold (.inl hbatched)
      · exact (congrArg Prod.snd (hnew hnow).2).le
      · exact hold (.inr hlater)
    · rw [hids, List.mem_append, not_or]
      exact ⟨h.apart call hw, fun hnow => (hfresh hnow).2 hw⟩

/-- A batch that has ended lands in all its slots. -/
theorem Tracked.land (h : Tracked sys) {items : List (DecodeItem n)} (hworker : sys.decodeWorker = .evaluating items)
    (rc : Int) (batchErr : String) :
    Tracked { sys with
      executor := finishBatch sys.executor items rc batchErr
      decodeWorker := .waiting
      finished := sys.finished ++ [(items, rc)] } := by
  obtain ⟨hslots, hcount, -⟩ := foldl_finishItem { sys.executor with modelBusy := false } items rc batchErr
  rw [← finishBatch] at hslots hcount
  generalize finishBatch sys.executor items rc batchErr = next at hslots hcount
  have hin : sys.inFlight = items := by simp only [System.inFlight, hworker]
  have hbatched : ({ sys with
      executor := next, decodeWorker := .waiting, finished := sys.finished ++ [(items, rc)] } : System n).batched =
        sys.batched := by
    rw [System.batched, System.batched, hin]
    simp [System.inFlight]
  have hitem (j : Fin n) : next.item j = sys.executor.item j := by
    rw [Executor.item, hslots j]
    split <;> rfl
  have hcall (j : Fin n) : (next.slots j).call = (sys.executor.slots j).call := congrArg DecodeItem.call (hitem j)
  have hpending (j : Fin n) : (next.slots j).decodePending = (sys.executor.slots j).decodePending := by
    rw [hslots j]
    split <;> rfl
  have hmem (j : Fin n) : j ∈ items.map DecodeItem.slot ↔ (sys.executor.slots j).decodeInFlight = true := by
    rw [← hin]
    constructor
    · intro hj
      obtain ⟨item, hi, rfl⟩ := List.mem_map.mp hj
      exact (h.flight item hi).1
    · exact fun hj => List.mem_map.mpr ⟨_, h.flown j hj, rfl⟩
  refine ⟨fun j => ?_, ?_, nofun, fun j hj => ?_, ?_, fun call hknown => ?_, fun call hw => ?_, fun r hr hrc => ?_⟩
  · by_cases hflight : (sys.executor.slots j).decodeInFlight = true
    · have hself : next.slots j = (sys.executor.slots j).finished rc batchErr := by
        rw [hslots j, if_pos ((hmem j).mpr hflight)]
      cases h.phase j with
      | away _ _ hflight₀ => rw [hflight] at hflight₀; cases hflight₀
      | pending _ _ hflight₀ => rw [hflight] at hflight₀; cases hflight₀
      | done _ _ hflight₀ => rw [hflight] at hflight₀; cases hflight₀
      | inFlight hevaluating hpending₀ _ _ hreturned =>
        refine .done ?_ ?_ ?_ ?_ fun hzero => ?_
        · rw [hself]
          exact hevaluating
        · rw [hself]
          exact hpending₀
        · rw [hself]
          rfl
        · rw [hself]
          rfl
        · rw [hself] at hzero
          refine ⟨(items, rc), List.mem_append_right _ (List.mem_singleton.mpr rfl), hzero, ?_⟩
          show next.item j ∈ items
          rw [hitem, ← hin]
          exact h.flown j hflight
    · refine (h.phase j).frame ?_ rfl (fun _ hm => by rwa [hbatched] at hm) id id
        fun batch hb => List.mem_append_left _ hb
      exact (hslots j).trans (if_neg fun hj => hflight ((hmem j).mp hj))
  · show next.decodePending = (pendingSlots next : Int)
    rw [hcount]
    simp only [pendingSlots, hpending]
    exact h.count
  · have hflight : (next.slots j).decodeInFlight = true := hj
    rw [hslots j] at hflight
    split at hflight
    · cases hflight
    · next hnot => exact absurd ((hmem j).mpr hflight) hnot
  · rw [hbatched]
    exact h.once
  · rw [hbatched] at hknown
    show call.2 ≤ (next.slots call.1).call
    rw [hcall]
    exact h.known call hknown
  · rw [hbatched]
    exact h.apart call hw
  · obtain ⟨batch, hb, hok, hr'⟩ := h.proved r hr hrc
    exact ⟨batch, List.mem_append_left _ hb, hok, hr'⟩

/-! ## Every interleaving -/

theorem Owned.aside (h : Owned sys) (hbusy : sys'.executor.modelBusy = sys.executor.modelBusy)
    (hworkers : sys'.workers = sys.workers) (hdecode : sys'.decodeWorker = sys.decodeWorker) : Owned sys' := by
  refine h.frame hbusy fun a => ?_
  cases a with
  | batch => simp only [Owns, hdecode]
  | prefill j => simp only [Owns, hworkers]

theorem Owned.cancel (h : Owned sys) (job : Nat) (withdrawn : List (Fin n × Nat)) :
    Owned { sys with executor := serverCancelJob sys.executor job, withdrawn := withdrawn } := by
  refine h.aside ?_ rfl rfl
  simp only [serverCancelJob]
  split
  · next i _ =>
    rcases cancelPending_cases sys.executor i with hnone | ⟨s', slot, hsome, hslot, -⟩
    · rw [hnone]
      rfl
    · rw [hsome]
      exact hslot.modelBusy
  · rfl

/-- When a batch has ended the model is free. -/
theorem Owned.land (h : Owned sys) {items : List (DecodeItem n)} (hworker : sys.decodeWorker = .evaluating items)
    (rc : Int) (batchErr : String) :
    Owned { sys with
      executor := finishBatch sys.executor items rc batchErr
      decodeWorker := .waiting
      finished := sys.finished ++ [(items, rc)] } := by
  obtain ⟨-, -, hbusy⟩ := foldl_finishItem { sys.executor with modelBusy := false } items rc batchErr
  refine h.release hbusy .batch ⟨items, hworker⟩ fun a ha => ?_
  cases a with
  | batch =>
    obtain ⟨items', hitems'⟩ := ha
    cases hitems'
  | prefill j => exact ⟨ha, nofun⟩

/-- Leaving a quantum gives the model back. -/
theorem Owned.leave (h : Owned sys) (hworker : sys.workers i = .prefilling) :
    Owned { sys with
      executor := serverPrefillLeave sys.executor, workers := Function.update sys.workers i .idle } := by
  refine h.release rfl (.prefill i) hworker fun a ha => ?_
  cases a with
  | batch => exact ⟨ha, nofun⟩
  | prefill j =>
    by_cases hj : j = i
    · subst hj
      simp [Owns] at ha
    · refine ⟨?_, fun heq => hj (Owner.prefill.inj heq)⟩
      simpa [Owns, hj] using ha

/-- What every step keeps. -/
theorem step_invariant {action : Turn n} (howned : Owned sys) (htracked : Tracked sys)
    (hstep : sys.step coalesceUs action = some sys') : Owned sys' ∧ Tracked sys' := by
  cases action with
  | generateJob i job =>
    simp only [System.step, Option.ite_none_right_eq_some, Option.some.injEq] at hstep
    obtain ⟨hworker, rfl⟩ := hstep
    have hidle : ∀ token, sys.workers i ≠ .evaluating token := by simp [hworker]
    refine ⟨howned.aside rfl rfl rfl, ?_⟩
    exact htracked.elsewhere rfl rfl ⟨rfl, rfl, rfl⟩ hidle hidle (fun _ _ => rfl) rfl rfl rfl rfl
  | generationEnter i =>
    simp only [System.step, Option.ite_none_right_eq_some, Option.some.injEq] at hstep
    obtain ⟨-, rfl⟩ := hstep
    exact ⟨howned.aside rfl rfl rfl, htracked.aside rfl rfl rfl rfl rfl rfl rfl⟩
  | generationLeave i =>
    simp only [System.step, Option.ite_none_right_eq_some, Option.some.injEq] at hstep
    obtain ⟨-, rfl⟩ := hstep
    have hleaves : (serverGenerationLeave sys.executor).slots = sys.executor.slots ∧
        (serverGenerationLeave sys.executor).decodePending = sys.executor.decodePending ∧
          (serverGenerationLeave sys.executor).modelBusy = sys.executor.modelBusy := by
      unfold serverGenerationLeave
      split <;> exact ⟨rfl, rfl, rfl⟩
    exact ⟨howned.aside hleaves.2.2 rfl rfl, htracked.aside hleaves.1 hleaves.2.1 rfl rfl rfl rfl rfl⟩
  | evalToken i token =>
    simp only [System.step, Option.ite_none_right_eq_some, Option.some.injEq] at hstep
    obtain ⟨hworker, rfl⟩ := hstep
    have hnext := serverEvalToken_cases sys.executor sys.signals i token
    refine ⟨?_, htracked.begin hworker hnext⟩
    cases hnext with
    | refused slot result hslot => exact howned.evaluated hslot (by simp [hworker])
    | submits slot hslot => exact howned.evaluated hslot (by simp [hworker])
  | evalWake i =>
    simp only [System.step] at hstep
    split at hstep
    · next token hworker =>
      cases hstep
      have hnext := serverEvalTokenLoop_cases sys.executor sys.signals i
      refine ⟨?_, htracked.goOn hworker hnext⟩
      cases hnext with
      | waits hdone hnext =>
        rw [hnext]
        exact howned.evaluated ⟨(Function.update_eq_self i _).symm, rfl, rfl, rfl⟩ (by simp [hworker])
      | returns slot result hdone hslot => exact howned.evaluated hslot (by simp [hworker])
      | withdraws slot result hdone hslot => exact howned.evaluated hslot (by simp [hworker])
    · cases hstep
  | prefillEnter i =>
    simp only [System.step, Option.ite_none_right_eq_some, Option.some.injEq] at hstep
    obtain ⟨hworker, rfl⟩ := hstep
    have hnext := prefillEnter_spec sys.executor sys.signals i
    exact ⟨howned.entered (by simp [hworker]) hnext, htracked.entered (by simp [hworker]) hnext⟩
  | prefillWake i =>
    simp only [System.step, Option.ite_none_right_eq_some, Option.some.injEq] at hstep
    obtain ⟨hworker, rfl⟩ := hstep
    have hnext := prefillEnterLoop_spec sys.executor sys.signals i
    exact ⟨howned.entered (by simp [hworker]) hnext, htracked.entered (by simp [hworker]) hnext⟩
  | prefillLeave i =>
    simp only [System.step, Option.ite_none_right_eq_some, Option.some.injEq] at hstep
    obtain ⟨hworker, rfl⟩ := hstep
    refine ⟨howned.leave hworker, ?_⟩
    refine htracked.elsewhere (Function.update_eq_self i _).symm rfl ⟨rfl, rfl, rfl⟩ (by simp [hworker])
      (fun token => ?_) (fun j hj => Function.update_of_ne hj _ _) rfl rfl rfl rfl
    simp only [Function.update_self]
    nofun
  | decodeWake rc =>
    simp only [System.step, Option.some.injEq] at hstep
    subst hstep
    by_cases hworker : ∃ items, sys.decodeWorker = .evaluating items
    · obtain ⟨items, hworker⟩ := hworker
      have hsame : decodeWorkerWake coalesceUs sys.executor rc sys.decodeWorker =
          (sys.executor, sys.decodeWorker) := by
        rw [hworker]
        rfl
      rw [hsame]
      exact ⟨howned, htracked⟩
    · have hwaits : ∀ items, sys.decodeWorker ≠ .evaluating items := fun items hitems => hworker ⟨items, hitems⟩
      have hnext := decodeWorkerWake_cases coalesceUs sys.executor rc hwaits
      exact ⟨howned.decode hwaits hnext, htracked.decode hwaits hnext⟩
  | decodeFinish rc batchErr =>
    simp only [System.step] at hstep
    split at hstep
    · next items hworker =>
      cases hstep
      have hnext := decodeWorkerTop_cases coalesceUs (finishBatch sys.executor items rc batchErr)
      exact ⟨(howned.land hworker rc batchErr).decode nofun hnext,
        (htracked.land hworker rc batchErr).decode nofun hnext⟩
    · cases hstep
  | markCancelled job =>
    cases hstep
    exact ⟨howned.aside rfl rfl rfl, htracked.aside rfl rfl rfl rfl rfl rfl rfl⟩
  | cancelJob job =>
    cases hstep
    exact ⟨howned.cancel job _, htracked.cancel job⟩
  | stopSignal =>
    cases hstep
    exact ⟨howned.aside rfl rfl rfl, htracked.aside rfl rfl rfl rfl rfl rfl rfl⟩
  | decodeStop =>
    cases hstep
    exact ⟨howned.aside rfl rfl rfl, htracked.aside rfl rfl rfl rfl rfl rfl rfl⟩

theorem owned_initial (n : Nat) : Owned (System.initial n) := by
  have hnobody (a : Owner n) : ¬ Owns (System.initial n) a := by
    cases a with
    | batch =>
      rintro ⟨items, hitems⟩
      cases hitems
    | prefill i => exact nofun
  refine ⟨fun a b ha => absurd ha (hnobody a), iff_of_false Bool.false_ne_true fun ⟨a, ha⟩ => hnobody a ha⟩

theorem tracked_initial (n : Nat) : Tracked (System.initial n) := by
  refine ⟨fun i => .away nofun rfl rfl, ?_, nofun, nofun, List.nodup_nil, ?_, nofun, nofun⟩
  · have hnone : pendingSlots (System.initial n).executor = 0 := List.countP_eq_zero.mpr fun i _ =>
      Bool.false_ne_true
    rw [hnone]
    rfl
  · rintro call (hmem | hmem | hmem) <;> cases hmem

theorem run_invariant (coalesceUs : Int) (actions : List (Turn n)) (howned : Owned sys) (htracked : Tracked sys) :
    Owned (sys.run coalesceUs actions) ∧ Tracked (sys.run coalesceUs actions) := by
  induction actions generalizing sys with
  | nil => exact ⟨howned, htracked⟩
  | cons action actions ih =>
    show Owned (((sys.step coalesceUs action).getD sys).run coalesceUs actions) ∧ _
    cases hstep : sys.step coalesceUs action with
    | none =>
      simp only [System.run, List.foldl_cons, hstep, Option.getD_none]
      exact ih howned htracked
    | some sys' =>
      obtain ⟨howned', htracked'⟩ := step_invariant howned htracked hstep
      simp only [System.run, List.foldl_cons, hstep, Option.getD_some]
      exact ih howned' htracked'

/-- In every interleaving the model has one owner at a time, and the token of a call is evaluated in one batch if
the call succeeds, and in none if it was withdrawn. -/
theorem coordinated (n : Nat) (coalesceUs : Int) (actions : List (Turn n)) :
    Coordinated ((System.initial n).run coalesceUs actions) := by
  obtain ⟨howned, htracked⟩ := run_invariant coalesceUs actions (owned_initial n) (tracked_initial n)
  exact coordinated_of howned htracked

end Spark.Server.Coordinator
