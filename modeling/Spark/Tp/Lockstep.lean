import Spark.Lib.Replica
import Spark.Tp.Wire

/-!
# Mirrored sessions of a tensor-parallel pair

The leader mirrors every call on a session to the worker: a frame goes down the control socket, both ranks do the same
work, and for some calls the leader then waits for an acknowledgement, and for the worker's half of the logits. The
two ranks run on their own, so frames and replies are under way while both go on.

* **`serve`** — one turn of the loop of `tensor_parallel_worker_run`, whatever comes of the work on the worker.
* **`call`**, **`receive`** — what the leader sends for a call, and what it makes of a reply.
* **`System`**, **`step`** — both ranks, and the two directions of the socket between them.

What the graphs compute is the engine's affair, and the same on both ranks; whether it comes through is up to each
rank, and told by the call and by the turn. A worker that dies is one that is not scheduled any more.
-/

namespace Spark.Tp

/-- What the engine makes of a session on either rank. -/
structure Engine (S Λ : Type) where
  create : Int32 → S
  /-- `ds4_session_create` and `tp_worker_session_add` come through on the worker. -/
  creates : UInt64 → Bool
  sync : S → List Int32 → S
  eval : S → Int32 → S
  /-- A verified block behind its commit frame. -/
  settle : S → List Int32 → Int32 → Int32 → S
  /-- `checkpoint_valid` is taken from the session. -/
  void : S → S
  /-- The prompt of a mixed batch. -/
  prefill : S → List Int32 → S
  rewind : S → Int32 → S
  invalidate : S → S
  vocabSplit : Bool
  /-- The worker's half of the logits. -/
  half : S → Λ

/-! ## Sessions -/

section Sessions

variable {S : Type}

/-- `tp_worker_session_find`. -/
def sessionFind (sessions : List (UInt64 × S)) (id : UInt64) : Option S :=
  if id = 0 then none else (sessions.find? fun entry => entry.1 = id).map Prod.snd

/-- `tp_worker_session_remove` at the index of an id. -/
def sessionRemove (sessions : List (UInt64 × S)) (id : UInt64) : List (UInt64 × S) :=
  sessions.eraseP fun entry => entry.1 = id

/-- The session of an id, as a call leaves it. -/
def sessionUpdate (id : UInt64) (f : S → S) : List (UInt64 × S) → List (UInt64 × S)
  | [] => []
  | entry :: sessions =>
    if entry.1 = id then (entry.1, f entry.2) :: sessions else entry :: sessionUpdate id f sessions

end Sessions

/-! ## The worker -/

/-- What goes down the socket: a command, or the frame inside of a verified block. -/
inductive Frame where
  | command (command : Command)
  | verifyCommit (fullAccept replayN : Int32)
  deriving DecidableEq, Repr

/-- What comes back. -/
inductive Reply (Λ : Type) where
  | ack (id : UInt64) (status : Int32)
  | logits (half : Λ)

structure Worker (S : Type) where
  sessions : List (UInt64 × S)
  /-- The block whose commit frame is to come. -/
  verifying : Option (UInt64 × List Int32)
  /-- What the loop returned, once it is left. -/
  exit : Option Int32

/-- Behind its loop the worker frees its sessions. -/
def Worker.left {S : Type} (code : Int32) : Worker S := ⟨[], none, some code⟩

section Model

variable {S Λ : Type} (engine : Engine S Λ)

/-- `tp_worker_send_logits`, where the vocabulary is split. -/
def sendLogits (sessions : List (UInt64 × S)) (id : UInt64) : List (Reply Λ) :=
  if engine.vocabSplit then ((sessionFind sessions id).map fun s => Reply.logits (engine.half s)).toList else []

/-- The items of a batch, each on its session. -/
def evalItems (sessions : List (UInt64 × S)) (items : List BatchItem) : List (UInt64 × S) :=
  items.foldl (fun sessions item => sessionUpdate item.sessionId (fun s => engine.eval s item.token) sessions)
    sessions

/-- Whether the worker takes a session on. -/
def admits (sessions : List (UInt64 × S)) (id : UInt64) (ctxSize : Int32) : Bool :=
  id != 0 && decide (0 < ctxSize) && (sessionFind sessions id).isNone && engine.creates id

/-- Whether a batch names a session twice, which `ds4_sessions_eval_batch` refuses. -/
def repeats (items : List BatchItem) : Bool := decide ¬ (items.map BatchItem.sessionId).Nodup

/-- The worker behind a command, with its replies. `rc` is what the work comes to on this rank; where that is not 0
the loop is left, behind the acknowledgement of those commands that have one. -/
def serveCommand (worker : Worker S) (rc : Int32) : Command → Worker S × List (Reply Λ)
  | .stop => (.left 0, [])
  | .sessionCreate id ctxSize =>
    if admits engine worker.sessions id ctxSize then
      ({ worker with sessions := worker.sessions ++ [(id, engine.create ctxSize)] }, [.ack id 0])
    else (worker, [.ack id 1])
  | .sessionDestroy id =>
    if (sessionFind worker.sessions id).isSome then
      ({ worker with sessions := sessionRemove worker.sessions id }, [.ack id 0])
    else (worker, [.ack id 1])
  | .sync id tokens =>
    if (sessionFind worker.sessions id).isNone then (.left 1, [])
    else if rc = 0 then
      let sessions := sessionUpdate id (fun s => engine.sync s tokens) worker.sessions
      ({ worker with sessions }, .ack id 0 :: sendLogits engine sessions id)
    else (.left 1, [.ack id rc])
  | .eval id _ token =>
    if (sessionFind worker.sessions id).isNone then (.left 1, [])
    else if rc = 0 then
      let sessions := sessionUpdate id (fun s => engine.eval s token) worker.sessions
      ({ worker with sessions }, sendLogits engine sessions id)
    else (.left 1, [])
  | .verify id drafts =>
    if (sessionFind worker.sessions id).isNone then (.left 1, [])
    else if rc = 0 then ({ worker with verifying := some (id, drafts) }, [])
    else (.left 1, [])
  | .rewind id pos =>
    if (sessionFind worker.sessions id).isNone then (.left 1, [])
    else ({ worker with sessions := sessionUpdate id (fun s => engine.rewind s pos) worker.sessions }, [])
  | .invalidate id =>
    if (sessionFind worker.sessions id).isNone then (.left 1, [])
    else ({ worker with sessions := sessionUpdate id engine.invalidate worker.sessions }, [])
  | .evalBatch items =>
    if ¬ items.all (fun item => (sessionFind worker.sessions item.sessionId).isSome) ∨ repeats items then
      (.left 1, [.ack 0 1])
    else if rc = 0 then
      let sessions := evalItems engine worker.sessions items
      let halves := items.flatMap fun item => sendLogits engine sessions item.sessionId
      -- a batch of one is a `ds4_session_eval`, which sends a half of its own
      ({ worker with sessions }, (if items.length = 1 then halves else []) ++ .ack 0 0 :: halves)
    else (.left 1, [.ack 0 rc])
  | .mixedBatch id prompt items =>
    if ¬ items.all (fun item => (sessionFind worker.sessions item.sessionId).isSome) ∨
        (sessionFind worker.sessions id).isNone ∨ items.any (fun item => item.sessionId = id) ∨ repeats items then
      (.left 1, [.ack id 1])
    else if rc = 0 then
      let sessions := evalItems engine (sessionUpdate id (fun s => engine.prefill s prompt) worker.sessions) items
      ({ worker with sessions }, .ack id 0 :: (sendLogits engine sessions id ++
        items.flatMap fun item => sendLogits engine sessions item.sessionId))
    else (.left 1, [.ack id rc])

/-- A turn of the worker, none once its loop is left. Inside of a verified block it takes a commit frame and nothing
else. -/
def serve (rc : Int32) (worker : Worker S) (frame : Frame) : Option (Worker S × List (Reply Λ)) :=
  if worker.exit.isSome then none
  else
    match worker.verifying, frame with
    | none, .command command => some (serveCommand engine worker rc command)
    | none, .verifyCommit _ _ => some (.left 1, [])
    | some _, .command _ => some (.left 1, [])
    | some (id, drafts), .verifyCommit fullAccept replayN =>
      if rc = 0 then
        let sessions := sessionUpdate id (fun s => engine.settle s drafts fullAccept replayN) worker.sessions
        some ({ worker with sessions, verifying := none },
          if fullAccept = 0 ∧ 0 < replayN then sendLogits engine sessions id else [])
      else some (.left 1, [])

/-! ## The leader -/

/-- What the leader waits for next. -/
inductive Wait where
  | ack (id : UInt64)
  | logits (id : UInt64)
  deriving DecidableEq, Repr

/-- What the leader is in the midst of. -/
inductive Task where
  | idle
  | registering (id : UInt64) (ctxSize : Int32)
  /-- A sync; where it failed on the leader the session is invalidated behind the replies. -/
  | syncing (id : UInt64) (ok : Bool)
  /-- A batch on these sessions. -/
  | batching (ids : List UInt64)
  | verifying (id : UInt64) (drafts : List Int32)
  | closed
  deriving DecidableEq, Repr

/-- The leader's sessions with their ids on the worker. What a failed call leaves in a session is not read before the
session is invalidated, so it is left as it is on the worker. -/
structure Leader (S Λ : Type) where
  sessions : List (UInt64 × S)
  nextSessionId : UInt64
  evalSeq : UInt64
  waits : List Wait
  task : Task
  /-- The halves that were merged so far, each with the session it went to. -/
  merges : List (S × Λ)
  /-- A frame came that is not of the kind the leader waits for, and the control stream is lost. -/
  broken : Bool

/-- A call on the leader; `ok` is whether its own work comes through. Where the graphs cannot batch, the items of a
batch are calls of their own. -/
inductive Call where
  | create (ctxSize : Int32)
  | free (id : UInt64)
  | sync (id : UInt64) (prompt : List Int32) (ok : Bool)
  | eval (id : UInt64) (token : Int32) (ok : Bool)
  | verify (id : UInt64) (drafts : List Int32)
  | verifyCommit (fullAccept replayN : Int32) (ok : Bool)
  | evalBatch (items : List BatchItem) (ok : Bool)
  | mixedBatch (id : UInt64) (prompt : List Int32) (items : List BatchItem) (ok : Bool)
  | rewind (id : UInt64) (pos : Int32)
  | invalidate (id : UInt64)
  | stop
  deriving DecidableEq, Repr

variable (leader : Leader S Λ)

/-- The half of the logits of a session, where the vocabulary is split. -/
def waitLogits (id : UInt64) : List Wait := if engine.vocabSplit then [.logits id] else []

def Leader.live (id : UInt64) : Bool := (sessionFind leader.sessions id).isSome

/-- `ds4_session_tp_register`, up to its wait. -/
def sessionTpRegister (ctxSize : Int32) : Leader S Λ × List Frame :=
  let id := if leader.nextSessionId + 1 = 0 then leader.nextSessionId + 1 + 1 else leader.nextSessionId + 1
  ({ leader with nextSessionId := id, waits := [.ack id], task := .registering id ctxSize },
    [.command (.sessionCreate id ctxSize)])

/-- `ds4_session_free`. -/
def sessionFree (id : UInt64) : Leader S Λ × List Frame :=
  ({ leader with sessions := sessionRemove leader.sessions id, waits := [.ack id] }, [.command (.sessionDestroy id)])

/-- `ds4_session_sync`. -/
def sessionSync (id : UInt64) (prompt : List Int32) (ok : Bool) : Leader S Λ × List Frame :=
  ({ leader with
      sessions := sessionUpdate id (fun s => engine.sync s prompt) leader.sessions
      waits := .ack id :: waitLogits engine id
      task := .syncing id ok }, [.command (.sync id prompt)])

/-- `ds4_session_invalidate`. -/
def sessionInvalidate (id : UInt64) : Leader S Λ × List Frame :=
  ({ leader with sessions := sessionUpdate id engine.invalidate leader.sessions }, [.command (.invalidate id)])

/-- `ds4_session_rewind`. -/
def sessionRewind (id : UInt64) (pos : Int32) : Leader S Λ × List Frame :=
  ({ leader with sessions := sessionUpdate id (fun s => engine.rewind s pos) leader.sessions },
    [.command (.rewind id pos)])

/-- `ds4_session_eval_probe_tp`. Where the leader's own work fails it does not wait for the worker's half. -/
def sessionEvalProbeTp (id : UInt64) (token : Int32) (ok : Bool) : Leader S Λ × List Frame :=
  let leader := { leader with
    evalSeq := leader.evalSeq + 1
    sessions := sessionUpdate id (fun s => engine.eval s token) leader.sessions }
  let frame := Frame.command (.eval id leader.evalSeq token)
  if ok then ({ leader with waits := waitLogits engine id }, [frame])
  else
    let out := sessionInvalidate engine leader id
    (out.1, frame :: out.2)

/-- The sessions of a failed batch, one after the other. -/
def invalidateAll (leader : Leader S Λ) : List UInt64 → Leader S Λ × List Frame
  | [] => (leader, [])
  | id :: ids =>
    let out := sessionInvalidate engine leader id
    let rest := invalidateAll out.1 ids
    (rest.1, out.2 ++ rest.2)

/-- `ds4_sessions_eval_batch_metal`. Where the leader's own work fails it waits for nothing. -/
def sessionsEvalBatchMetal (items : List BatchItem) (ok : Bool) : Leader S Λ × List Frame :=
  let leader := { leader with sessions := evalItems engine leader.sessions items }
  let frame := Frame.command (.evalBatch items)
  if ok then
    ({ leader with
        waits := .ack 0 :: items.flatMap fun item => waitLogits engine item.sessionId
        task := .batching (items.map BatchItem.sessionId) }, [frame])
  else
    let out := invalidateAll engine leader (items.map BatchItem.sessionId)
    (out.1, frame :: out.2)

/-- `ds4_sessions_eval_batch`; none where it refuses the batch before it sends anything. -/
def sessionsEvalBatch (items : List BatchItem) (ok : Bool) : Option (Leader S Λ × List Frame) :=
  if items = [] ∨ ¬ items.all (fun item => leader.live item.sessionId) then none
  else
    match items with
    | [item] => some (sessionEvalProbeTp engine leader item.sessionId item.token ok)
    | _ => if repeats items then none else some (sessionsEvalBatchMetal engine leader items ok)

/-- `ds4_sessions_eval_batch_with_prefill_metal`. -/
def sessionsEvalBatchWithPrefill (id : UInt64) (prompt : List Int32) (items : List BatchItem) (ok : Bool) :
    Leader S Λ × List Frame :=
  let leader := { leader with
    sessions := evalItems engine (sessionUpdate id (fun s => engine.prefill s prompt) leader.sessions) items }
  let frame := Frame.command (.mixedBatch id prompt items)
  if ok then
    ({ leader with
        waits := .ack id :: (waitLogits engine id ++ items.flatMap fun item => waitLogits engine item.sessionId)
        task := .batching (id :: items.map BatchItem.sessionId) }, [frame])
  else
    let out := invalidateAll engine leader (id :: items.map BatchItem.sessionId)
    (out.1, frame :: out.2)

/-- The commit frame of a verified block, and the replay. A replay that fails voids the session on the leader only. -/
def sessionTpCommit (id : UInt64) (drafts : List Int32) (fullAccept replayN : Int32) (ok : Bool) :
    Leader S Λ × List Frame :=
  let sessions := sessionUpdate id (fun s => engine.settle s drafts fullAccept replayN) leader.sessions
  let leader := { leader with task := .idle }
  let frame := Frame.verifyCommit fullAccept replayN
  if ok then
    ({ leader with sessions, waits := if fullAccept = 0 ∧ 0 < replayN then waitLogits engine id else [] }, [frame])
  else ({ leader with sessions := sessionUpdate id engine.void sessions }, [frame])

/-- The leader behind a call, with its frames; none for a call that is not made there. -/
def call (leader : Leader S Λ) (made : Call) : Option (Leader S Λ × List Frame) :=
  if leader.broken ∨ leader.waits ≠ [] then none
  else
    match leader.task, made with
    | .verifying id drafts, .verifyCommit fullAccept replayN ok =>
      some (sessionTpCommit engine leader id drafts fullAccept replayN ok)
    | .idle, .create ctxSize => if 0 < ctxSize then some (sessionTpRegister leader ctxSize) else none
    | .idle, .free id => if leader.live id then some (sessionFree leader id) else none
    | .idle, .sync id prompt ok =>
      if leader.live id ∧ prompt ≠ [] then some (sessionSync engine leader id prompt ok) else none
    | .idle, .eval id token ok => if leader.live id then some (sessionEvalProbeTp engine leader id token ok) else none
    | .idle, .verify id drafts =>
      if leader.live id then some ({ leader with task := .verifying id drafts }, [.command (.verify id drafts)])
      else none
    | .idle, .evalBatch items ok => sessionsEvalBatch engine leader items ok
    | .idle, .mixedBatch id prompt items ok =>
      if prompt ≠ [] ∧ items ≠ [] ∧ leader.live id ∧ items.all (fun item => leader.live item.sessionId) ∧
          ¬ items.any (fun item => item.sessionId = id) ∧ ¬ repeats items then
        some (sessionsEvalBatchWithPrefill engine leader id prompt items ok)
      else none
    | .idle, .rewind id pos => if leader.live id then some (sessionRewind engine leader id pos) else none
    | .idle, .invalidate id => if leader.live id then some (sessionInvalidate engine leader id) else none
    | .idle, .stop => some ({ leader with task := .closed }, [.command .stop])
    | _, _ => none

/-- Behind the last reply of a call. -/
def settled (leader : Leader S Λ) : Leader S Λ × List Frame :=
  if leader.waits ≠ [] then (leader, [])
  else
    match leader.task with
    | .registering id ctxSize =>
      ({ leader with sessions := leader.sessions ++ [(id, engine.create ctxSize)], task := .idle }, [])
    | .syncing id ok =>
      if ok then ({ leader with task := .idle }, []) else sessionInvalidate engine { leader with task := .idle } id
    | .batching _ => ({ leader with task := .idle }, [])
    | _ => (leader, [])

/-- Behind an acknowledgement that says that the worker failed: its sessions are invalidated, or not registered. -/
def declined (leader : Leader S Λ) : Leader S Λ × List Frame :=
  let idle := { leader with waits := [], task := .idle }
  match leader.task with
  | .syncing id _ => sessionInvalidate engine idle id
  | .batching ids => invalidateAll engine idle ids
  | _ => (idle, [])

/-- `tensor_parallel_wait_command_ack` and `tensor_parallel_recv_logits_half`, on what the leader waits for. -/
def receive (leader : Leader S Λ) (reply : Reply Λ) : Option (Leader S Λ × List Frame) :=
  match leader.waits, reply with
  | [], _ => none
  | .ack id :: waits, .ack id' status =>
    if id' = id ∧ status = 0 then some (settled engine { leader with waits }) else some (declined engine leader)
  | .logits id :: waits, .logits half =>
    let merges := leader.merges ++ ((sessionFind leader.sessions id).map fun s => (s, half)).toList
    some (settled engine { leader with waits, merges })
  | _ :: _, _ => some ({ leader with broken := true }, [])

/-! ## Both ranks -/

/-- Both ranks with the two directions of the control socket between them. -/
structure System (S Λ : Type) where
  leader : Leader S Λ
  link : Link (Worker S) Frame (Reply Λ)

/-- Two ranks behind their handshake. -/
def System.start : System S Λ where
  leader := ⟨[], 0, 0, [], .idle, [], false⟩
  link := ⟨⟨[], none, none⟩, [], []⟩

inductive Event where
  | call (call : Call)
  /-- A turn of the worker whose work comes to `rc` there. -/
  | serve (rc : Int32)
  | receive
  deriving DecidableEq, Repr

/-- A move of one of the ranks, where it can make it. -/
def step (system : System S Λ) : Event → Option (System S Λ)
  | .call made =>
    (call engine system.leader made).map fun out =>
      { leader := out.1, link := { system.link with down := system.link.down ++ out.2 } }
  | .serve rc =>
    match system.link.down with
    | [] => none
    | frame :: down =>
      (serve engine rc system.link.replica frame).map fun out =>
        { system with link := ⟨out.1, down, system.link.up ++ out.2⟩ }
  | .receive =>
    match system.link.up with
    | [] => none
    | reply :: up =>
      (receive engine system.leader reply).map fun out =>
        { leader := out.1, link := ⟨system.link.replica, system.link.down ++ out.2, up⟩ }

def run (system : System S Λ) (events : List Event) : Option (System S Λ) := events.foldlM (step engine) system

/-- The calls whose replies the leader reads whatever comes of them: those that come through on it, a sync, and an
eval that is not answered. -/
def drained : Call → Bool
  | .eval _ _ ok => ok || !engine.vocabSplit
  | .verifyCommit _ _ ok => ok
  | .evalBatch _ ok => ok
  | .mixedBatch _ _ _ ok => ok
  | _ => true

end Model

end Spark.Tp
