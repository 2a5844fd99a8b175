import Mathlib.Data.List.FinRange
import Mathlib.Logic.Function.Basic

/-!
# Sharing the model between slots

Every slot worker hands its next token to one decode worker, which evaluates all pending tokens as one batch;
a prefill quantum takes the model for itself. What happens between locking `model_mu` and unlocking it or
waiting is one step.

* **`serverEvalToken`**, **`serverEvalTokenLoop`** — a slot worker submits a token and waits for its result.
* **`decodeWorkerWake`** — the decode worker from one wait to the next.
* **`System.step`** — one step of any thread, or something that happens to the server.
-/

namespace Spark.Server.Coordinator

/-- The fields of `server_slot` under `model_mu`. -/
structure DecodeSlot where
  running : Option Nat
  prefillWaiting : Bool
  decodePending : Bool
  decodeInFlight : Bool
  decodeDone : Bool
  decodeToken : Int
  decodeRc : Int
  decodeErr : String
  /-- How many calls of `server_eval_token` the slot has made; not in the source. -/
  call : Nat
  deriving DecidableEq, Repr

/-- The fields of `server` under `model_mu`. -/
structure Executor (n : Nat) where
  slots : Fin n → DecodeSlot
  modelBusy : Bool
  modelStopping : Bool
  decodePending : Int
  activeGenerations : Int
  lastPrefillSlot : Int

/-- `g_stop_requested`, and the jobs that are cancelled. -/
structure Signals where
  stopRequested : Bool
  cancelled : Nat → Bool

variable {n : Nat}

def Executor.setSlot (s : Executor n) (i : Fin n) (slot : DecodeSlot) : Executor n :=
  { s with slots := Function.update s.slots i slot }

def slotJobCancelled (s : Executor n) (signals : Signals) (i : Fin n) : Bool :=
  match (s.slots i).running with
  | some job => signals.cancelled job
  | none => false

def syncInterrupted : Int := 2

/-! ## `server_eval_token` -/

/-- `server_cancel_pending_decode_locked`; none where it returns false. -/
def serverCancelPendingDecodeLocked (s : Executor n) (i : Fin n) : Option (Executor n) :=
  if !(s.slots i).decodePending || (s.slots i).decodeInFlight then none
  else
    let s := { s with decodePending := s.decodePending - 1 }
    some (s.setSlot i { s.slots i with
      decodePending := false
      decodeRc := syncInterrupted
      decodeErr := "client disconnected"
      decodeDone := true })

/-- What a call of `server_eval_token` hands back. -/
structure EvalResult where
  rc : Int
  err : Option String
  deriving DecidableEq, Repr

def stopText (signals : Signals) : String :=
  if signals.stopRequested then "shutdown requested" else "client disconnected"

/-- The end of `server_eval_token`, behind its loop. -/
def serverEvalTokenEnd (s : Executor n) (signals : Signals) (i : Fin n) : Executor n × EvalResult :=
  let slot := s.slots i
  let rc := if signals.stopRequested ∧ slot.decodeRc = 0 then syncInterrupted else slot.decodeRc
  let err :=
    if signals.stopRequested then "shutdown requested"
    else if slot.decodeErr ≠ "" then slot.decodeErr else "decode interrupted"
  (s.setSlot i { slot with decodeDone := false }, ⟨rc, if rc ≠ 0 then some err else none⟩)

/-- The loop of `server_eval_token` up to its next wait; with a result where the call returns. -/
def serverEvalTokenLoop (s : Executor n) (signals : Signals) (i : Fin n) : Executor n × Option EvalResult :=
  if (s.slots i).decodeDone then
    let last := serverEvalTokenEnd s signals i
    (last.1, some last.2)
  else
    let clientCancelled := slotJobCancelled s signals i
    match if clientCancelled || signals.stopRequested then serverCancelPendingDecodeLocked s i else none with
    | none => (s, none)
    | some s =>
      let s :=
        if !clientCancelled then s.setSlot i { s.slots i with decodeErr := "shutdown requested" } else s
      let last := serverEvalTokenEnd s signals i
      (last.1, some last.2)

/-- `server_eval_token` in batched mode, up to its first wait. -/
def serverEvalToken (s : Executor n) (signals : Signals) (i : Fin n) (token : Int) :
    Executor n × Option EvalResult :=
  let s := s.setSlot i { s.slots i with call := (s.slots i).call + 1 }
  if signals.stopRequested || slotJobCancelled s signals i then
    (s, some ⟨syncInterrupted, some (stopText signals)⟩)
  else if (s.slots i).decodePending || (s.slots i).decodeInFlight then
    (s, some ⟨1, some "session already has a decode in flight"⟩)
  else
    let s := { s with decodePending := s.decodePending + 1 }
    serverEvalTokenLoop
      (s.setSlot i { s.slots i with
        decodeToken := token
        decodeRc := 1
        decodeErr := ""
        decodeDone := false
        decodePending := true })
      signals i

/-- `server_cancel_job`: what it does under `model_mu`. -/
def serverCancelJob (s : Executor n) (job : Nat) : Executor n :=
  match (List.finRange n).find? fun i => (s.slots i).running = some job with
  | some i => (serverCancelPendingDecodeLocked s i).getD s
  | none => s

/-! ## Prefill -/

def slotAt (n : Nat) (id : Int) : Option (Fin n) :=
  if h : id.toNat < n then some ⟨id.toNat, h⟩ else none

def serverNextPrefillSlotLocked (s : Executor n) : Option (Fin n) :=
  (List.range n).findSome? fun k =>
    (slotAt n ((s.lastPrefillSlot + (k + 1)).tmod n)).filter fun id => (s.slots id).prefillWaiting

/-- The loop of `server_prefill_enter` up to its next wait; with its answer where it returns. -/
def serverPrefillEnterLoop (s : Executor n) (signals : Signals) (i : Fin n) : Executor n × Option Bool :=
  let stopped := signals.stopRequested || slotJobCancelled s signals i
  if !stopped && (s.modelBusy || s.decodePending > 0 || serverNextPrefillSlotLocked s ≠ some i) then (s, none)
  else
    let s := s.setSlot i { s.slots i with prefillWaiting := false }
    if stopped then (s, some false)
    else ({ s with lastPrefillSlot := i, modelBusy := true }, some true)

def serverPrefillEnter (s : Executor n) (signals : Signals) (i : Fin n) : Executor n × Option Bool :=
  if slotJobCancelled s signals i then (s, some false)
  else serverPrefillEnterLoop (s.setSlot i { s.slots i with prefillWaiting := true }) signals i

def serverPrefillLeave (s : Executor n) : Executor n := { s with modelBusy := false }

def serverGenerationEnter (s : Executor n) : Executor n :=
  { s with activeGenerations := s.activeGenerations + 1 }

def serverGenerationLeave (s : Executor n) : Executor n :=
  if s.activeGenerations > 0 then { s with activeGenerations := s.activeGenerations - 1 } else s

/-! ## The decode worker -/

/-- One entry of `items` and `members`, with the call its token belongs to. -/
structure DecodeItem (n : Nat) where
  slot : Fin n
  call : Nat
  token : Int
  deriving DecidableEq, Repr

/-- Where the decode worker waits. -/
inductive DecodeWorker (n : Nat) where
  | waiting
  | coalescing (observed : Int)
  | waitingModel
  | evaluating (items : List (DecodeItem n))
  | exited
  deriving DecidableEq, Repr

/-- One round of the loop that collects the batch. -/
def collectSlot (acc : Executor n × List (DecodeItem n)) (i : Fin n) : Executor n × List (DecodeItem n) :=
  let slot := acc.1.slots i
  if slot.decodePending then
    let s := { acc.1 with decodePending := acc.1.decodePending - 1 }
    (s.setSlot i { slot with decodePending := false, decodeInFlight := true },
      acc.2 ++ [⟨i, slot.call, slot.decodeToken⟩])
  else acc

def collectBatch (s : Executor n) : Executor n × List (DecodeItem n) :=
  (List.finRange n).foldl collectSlot (s, [])

/-- From behind the coalescing wait to the next wait or to the evaluation. -/
def decodeWorkerPick (s : Executor n) : Executor n × DecodeWorker n :=
  if s.modelBusy then (s, .waitingModel)
  else if s.modelStopping ∧ s.decodePending = 0 then (s, .exited)
  else
    let batch := collectBatch s
    if batch.2 = [] then (batch.1, .waiting) else ({ batch.1 with modelBusy := true }, .evaluating batch.2)

def decodeWorkerCoalesce (s : Executor n) (observed : Int) : Executor n × DecodeWorker n :=
  if !s.modelStopping ∧ s.decodePending < n ∧ s.decodePending < s.activeGenerations then
    (s, .coalescing observed)
  else decodeWorkerPick s

/-- The head of the worker's loop. -/
def decodeWorkerTop (coalesceUs : Int) (s : Executor n) : Executor n × DecodeWorker n :=
  if s.decodePending = 0 then (s, if s.modelStopping then .exited else .waiting)
  else if coalesceUs > 0 ∧ s.decodePending < n then decodeWorkerCoalesce s s.decodePending
  else decodeWorkerPick s

def etimedout : Int := 110

/-- The worker from a wait to the next; `rc` is what `pthread_cond_timedwait` returned. -/
def decodeWorkerWake (coalesceUs : Int) (s : Executor n) (rc : Int) : DecodeWorker n → Executor n × DecodeWorker n
  | .waiting => decodeWorkerTop coalesceUs s
  | .coalescing observed =>
    if rc = etimedout ∨ s.decodePending = observed ∧ rc ≠ 0 then decodeWorkerPick s
    else decodeWorkerCoalesce s s.decodePending
  | .waitingModel => decodeWorkerPick s
  | .evaluating items => (s, .evaluating items)
  | .exited => (s, .exited)

/-- One member of a batch that has ended. -/
def finishItem (rc : Int) (batchErr : String) (s : Executor n) (item : DecodeItem n) : Executor n :=
  let slot := s.slots item.slot
  s.setSlot item.slot { slot with
    decodeInFlight := false
    decodeRc := rc
    decodeErr :=
      if rc ≠ 0 then (if batchErr ≠ "" then batchErr else "batched decode failed") else slot.decodeErr
    decodeDone := true }

/-- What the worker does after `ds4_sessions_eval_batch`. -/
def finishBatch (s : Executor n) (items : List (DecodeItem n)) (rc : Int) (batchErr : String) : Executor n :=
  items.foldl (finishItem rc batchErr) { s with modelBusy := false }

/-! ## The threads -/

/-- What the worker of a slot is in the middle of. -/
inductive SlotWorker where
  | idle
  | evaluating (token : Int)
  | prefillWaiting
  | prefilling
  deriving DecidableEq, Repr

/-- A call that has returned. -/
structure EvalReturn (n : Nat) where
  item : DecodeItem n
  result : EvalResult
  deriving DecidableEq, Repr

/-- The threads of the server, with a record of the batches that have ended, of the calls whose token was
withdrawn, and of the calls that returned. -/
structure System (n : Nat) where
  executor : Executor n
  signals : Signals
  workers : Fin n → SlotWorker
  decodeWorker : DecodeWorker n
  finished : List (List (DecodeItem n) × Int)
  withdrawn : List (Fin n × Nat)
  returned : List (EvalReturn n)

inductive Turn (n : Nat) where
  | generateJob (i : Fin n) (job : Option Nat)
  | generationEnter (i : Fin n)
  | generationLeave (i : Fin n)
  | evalToken (i : Fin n) (token : Int)
  | evalWake (i : Fin n)
  | prefillEnter (i : Fin n)
  | prefillWake (i : Fin n)
  | prefillLeave (i : Fin n)
  | decodeWake (rc : Int)
  | decodeFinish (rc : Int) (batchErr : String)
  | markCancelled (job : Nat)
  | cancelJob (job : Nat)
  | stopSignal
  | decodeStop

/-- The calls whose token was pending and is no longer. -/
def withdrawals (s s' : Executor n) : List (Fin n × Nat) :=
  ((List.finRange n).filter fun i => (s.slots i).decodePending && !(s'.slots i).decodePending).map fun i =>
    (i, (s.slots i).call)

/-- A step of the worker of a slot in `server_eval_token`. -/
def System.evaluated (sys : System n) (i : Fin n) (token : Int) (next : Executor n × Option EvalResult) :
    System n :=
  { sys with
    executor := next.1
    withdrawn := sys.withdrawn ++ withdrawals sys.executor next.1
    workers := Function.update sys.workers i (if next.2.isSome then .idle else .evaluating token)
    returned := sys.returned ++
      (next.2.map fun result => ⟨⟨i, (next.1.slots i).call, token⟩, result⟩).toList }

/-- A step of the worker of a slot in `server_prefill_enter`. -/
def System.entered (sys : System n) (i : Fin n) (next : Executor n × Option Bool) : System n :=
  { sys with
    executor := next.1
    workers := Function.update sys.workers i
      (match next.2 with
        | none => .prefillWaiting
        | some true => .prefilling
        | some false => .idle) }

/-- One step, where the thread that takes it is there. -/
def System.step (coalesceUs : Int) (sys : System n) : Turn n → Option (System n)
  | .generateJob i job =>
    if sys.workers i = .idle then
      some { sys with
        executor := sys.executor.setSlot i { sys.executor.slots i with running := job } }
    else none
  | .generationEnter i =>
    if sys.workers i = .idle then some { sys with executor := serverGenerationEnter sys.executor } else none
  | .generationLeave i =>
    if sys.workers i = .idle then some { sys with executor := serverGenerationLeave sys.executor } else none
  | .evalToken i token =>
    if sys.workers i = .idle then
      some (sys.evaluated i token (serverEvalToken sys.executor sys.signals i token))
    else none
  | .evalWake i =>
    match sys.workers i with
    | .evaluating token => some (sys.evaluated i token (serverEvalTokenLoop sys.executor sys.signals i))
    | _ => none
  | .prefillEnter i =>
    if sys.workers i = .idle then
      some (sys.entered i (serverPrefillEnter sys.executor sys.signals i))
    else none
  | .prefillWake i =>
    if sys.workers i = .prefillWaiting then
      some (sys.entered i (serverPrefillEnterLoop sys.executor sys.signals i))
    else none
  | .prefillLeave i =>
    if sys.workers i = .prefilling then
      some { sys with
        executor := serverPrefillLeave sys.executor, workers := Function.update sys.workers i .idle }
    else none
  | .decodeWake rc =>
    let next := decodeWorkerWake coalesceUs sys.executor rc sys.decodeWorker
    some { sys with executor := next.1, decodeWorker := next.2 }
  | .decodeFinish rc batchErr =>
    match sys.decodeWorker with
    | .evaluating items =>
      -- the worker's loop begins again
      let next := decodeWorkerTop coalesceUs (finishBatch sys.executor items rc batchErr)
      some { sys with
        executor := next.1, decodeWorker := next.2, finished := sys.finished ++ [(items, rc)] }
    | _ => none
  | .markCancelled job =>
    some { sys with
      signals := { sys.signals with cancelled := Function.update sys.signals.cancelled job true } }
  | .cancelJob job =>
    let next := serverCancelJob sys.executor job
    some { sys with executor := next, withdrawn := sys.withdrawn ++ withdrawals sys.executor next }
  | .stopSignal => some { sys with signals := { sys.signals with stopRequested := true } }
  | .decodeStop => some { sys with executor := { sys.executor with modelStopping := true } }

/-- The server when its threads start. -/
def System.initial (n : Nat) : System n where
  executor := ⟨fun _ => ⟨none, false, false, false, false, 0, 0, "", 0⟩, false, false, 0, 0, (n : Int) - 1⟩
  signals := ⟨false, fun _ => false⟩
  workers := fun _ => .idle
  decodeWorker := .waiting
  finished := []
  withdrawn := []
  returned := []

/-- Any interleaving; a step whose thread is elsewhere does not happen. -/
def System.run (coalesceUs : Int) (sys : System n) (actions : List (Turn n)) : System n :=
  actions.foldl (fun sys action => (sys.step coalesceUs action).getD sys) sys

end Spark.Server.Coordinator
