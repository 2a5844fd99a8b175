import Mathlib.Data.Nat.Basic
import Spark.Lib.Recurrent
import Spark.Lib.Word

/-!
# The GLM-5.3 session

One `ds4_session` on the GLM-5.3 graph: the checkpoint tokens, the logits buffer, the live
recurrent state, the backup buffer of the MTP cycle, and the pending draft and rollback records.
The graph is a `Recurrent` target: every forward pass is the fold of its tokens. Whatever the
device, the allocator, the sampler or the drafter decides is an argument of the operation that
asks for it, so an operation is a function and a run is a list of operations with their answers.

* **`sync`** — `ds4_session_sync_internal` on the GLM-5.3 path.
* **`evalInternal`** — `ds4_session_eval_internal`.
* **`specCycle`** — `ds4_session_glm_spec_cycle_impl`, with `mtpRewind` for its rollback.
* **`rewind`**, **`invalidate`**, **`savePayload`**, **`loadPayload`**.
-/

namespace Spark.Glm

/-- `DS4_GLM53_PREFILL_CHUNK_TOKENS`. -/
def prefillChunkTokens : Nat := 2048

/-- What the payload header records of the model's shape. -/
structure Layout where
  normalLayers : Nat
  keyMla : Nat
  valueMla : Nat
  vocab : Nat
  deriving DecidableEq, Repr

/-- The engine and graph constants a session is created with. -/
structure Config where
  ctxSize : Nat
  graphCtxSize : Nat
  ctxCap : Nat
  compactCacheCap : Nat
  indexedPrefillCap : Nat
  indexerTopK : Nat
  fullKvCache : Bool
  /-- `glm53_graph_use_indexed_prefill`: the platform, and a non-zero indexed capacity. -/
  useIndexedPrefill : Bool
  glmMtp : Bool
  layout : Layout
  /-- `glm_graph_layer_uses_full_indexer`. -/
  usesFullIndexer : Nat → Bool
  backendName : String
  ctxCap_pos : 0 < ctxCap
  compact_le : compactCacheCap ≤ graphCtxSize
  indexed_pos : useIndexedPrefill = true → 0 < indexedPrefillCap

structure Ds4Session (σ Λ : Type) where
  checkpoint : List Nat
  checkpointValid : Bool
  logits : Λ
  graph : σ
  /-- `mtp_kda_backup`. -/
  kdaBackup : σ
  glmDenseCacheLen : Nat
  glmMtpHave : Bool
  glmMtpDraft : Nat
  glmMtpParent : Nat
  glmMtpMinPos : Nat
  rollbackValid : Bool
  rollbackPos : Nat
  rollbackDenseLen : Nat
  rollbackFirstToken : Nat

/-- The outcome of a forward pass; a failed one leaves anything in the graph and the logits. -/
inductive Forward (σ Λ : Type) where
  | ok
  | failed (graph : σ) (logits : Λ)

/-- The outcome of a device copy; a failed one leaves anything in its destination. -/
inductive Copy (σ : Type) where
  | ok
  | failed (junk : σ)

section Graph

variable {σ Λ : Type} (target : Recurrent Nat σ Λ)

/-- A forward pass over `tokens`; the logits are read back when the caller passes a buffer. -/
def forward (session : Ds4Session σ Λ) (tokens : List Nat) (wantLogits : Bool) :
    Forward σ Λ → Ds4Session σ Λ × Bool
  | .ok =>
    let graph := target.run session.graph tokens
    ({ session with
        graph := graph
        logits := if wantLogits then target.logits graph else session.logits }, true)
  | .failed graph logits => ({ session with graph := graph, logits := logits }, false)

/-- `glm53_graph_copy_kda_state(g, true)`. -/
def saveKdaState (session : Ds4Session σ Λ) : Copy σ → Ds4Session σ Λ × Bool
  | .ok => ({ session with kdaBackup := session.graph }, true)
  | .failed junk => ({ session with kdaBackup := junk }, false)

/-- `glm53_graph_copy_kda_state(g, false)`. -/
def restoreKdaState (session : Ds4Session σ Λ) : Copy σ → Ds4Session σ Λ × Bool
  | .ok => ({ session with graph := session.kdaBackup }, true)
  | .failed junk => ({ session with graph := junk }, false)

/-- `ds4_session_glm_reset_kda_state`. -/
def resetKdaState (session : Ds4Session σ Λ) : Copy σ → Ds4Session σ Λ × Bool
  | .ok => ({ session with graph := target.reset }, true)
  | .failed junk => ({ session with graph := junk }, false)

end Graph

/-! ## Dense cache bookkeeping -/

section Dense

variable {σ Λ : Type} (config : Config)

def resetDenseCache (session : Ds4Session σ Λ) : Ds4Session σ Λ :=
  { session with
    glmDenseCacheLen := 0, glmMtpHave := false, rollbackValid := false, glmMtpMinPos := 0 }

def capDenseCache (session : Ds4Session σ Λ) : Ds4Session σ Λ :=
  if !config.fullKvCache then { session with glmDenseCacheLen := 0 }
  else
    { session with
      glmDenseCacheLen :=
        min session.glmDenseCacheLen (min session.checkpoint.length config.ctxCap) }

def noteDenseCache (session : Ds4Session σ Λ) (pos0 tokens : Nat) : Ds4Session σ Λ :=
  if tokens = 0 ∨ config.fullKvCache = false ∨ pos0 > session.glmDenseCacheLen then session
  else
    let stop := Word.wrappingAdd 32 pos0 tokens
    let stop := if stop < pos0 then 2 ^ 32 - 1 else stop
    capDenseCache config { session with glmDenseCacheLen := min stop config.ctxCap }

/-- The dense rows of a prefill chunk count only below the full-attention cap. -/
def noteChunk (session : Ds4Session σ Λ) (pos chunk : Nat) : Ds4Session σ Λ :=
  if pos < config.ctxCap then noteDenseCache config session pos chunk else session

/-- `glm_graph_decode_updates_dense_cache` on GLM-5.3. -/
def decodeUpdatesDenseCache (pos : Nat) : Bool :=
  let indexed := decide (config.compactCacheCap ≠ 0) &&
    (!config.fullKvCache || decide (pos ≥ config.ctxCap) || config.useIndexedPrefill)
  decide (pos < config.ctxCap) && !indexed

def noteDecode (session : Ds4Session σ Λ) (pos : Nat) : Ds4Session σ Λ :=
  if decodeUpdatesDenseCache config pos then noteDenseCache config session pos 1 else session

end Dense

/-! ## `ds4_session_sync` -/

inductive SyncResult where
  | ok
  | failed (message : String)
  | interrupted
  deriving DecidableEq, Repr

/-- The answers a `sync` gets: `cancel k` at its `k`-th check, `forward k` for its `k`-th chunk. -/
structure SyncAnswers (σ Λ : Type) where
  cancel : Nat → Bool
  reset : Copy σ
  forward : Nat → Forward σ Λ

section Sync

variable {σ Λ : Type} (target : Recurrent Nat σ Λ) (config : Config)

/-- The size of the next prefill chunk when `remaining` tokens are left. -/
def chunkTokens (pos remaining : Nat) : Nat :=
  let chunk := min remaining prefillChunkTokens
  if config.useIndexedPrefill || (pos ≥ config.ctxCap && config.indexedPrefillCap ≠ 0) then
    let chunk := min chunk config.indexedPrefillCap
    -- `glm_graph_limit_indexed_prefill_chunk`
    if pos < config.indexerTopK then min chunk (config.indexerTopK - pos) else chunk
  else if pos < config.ctxCap then min chunk (config.ctxCap - pos)
  else 1

/-- The chunk loop over the rest of the prompt. The last chunk asks for logits, no other does. -/
def prefillLoop (answers : SyncAnswers σ Λ) :
    (fuel round : Nat) → (rest : List Nat) → Ds4Session σ Λ → Ds4Session σ Λ × SyncResult
  | 0, _, _, session => (session, .ok)
  | fuel + 1, round, rest, session =>
    if rest = [] then (session, .ok)
    else if answers.cancel (round + 1) then
      (capDenseCache config { session with checkpointValid := !session.checkpoint.isEmpty },
        .interrupted)
    else
      let pos := session.checkpoint.length
      let chunk := chunkTokens config pos rest.length
      match forward target session (rest.take chunk) (chunk = rest.length)
          (answers.forward round) with
      | (session, false) =>
        (capDenseCache config { session with checkpointValid := false },
          .failed (config.backendName ++ " GLM-5.3 prefill failed at token " ++ toString pos))
      | (session, true) =>
        let session :=
          { session with
            checkpoint := session.checkpoint ++ rest.take chunk, checkpointValid := true }
        prefillLoop answers fuel (round + 1) (rest.drop chunk) (noteChunk config session pos chunk)

/-- `ds4_session_sync_internal`, GLM-5.3 path. -/
def sync (session : Ds4Session σ Λ) (prompt : List Nat) (answers : SyncAnswers σ Λ) :
    Ds4Session σ Λ × SyncResult :=
  if prompt = [] then (session, .failed "empty prompt")
  else if prompt.length ≥ config.ctxSize then
    (session, .failed ("prompt length " ++ toString prompt.length ++ " exceeds context " ++
      toString config.ctxSize ++ " (one token of generation room is required)"))
  else if answers.cancel 0 then (session, .interrupted)
  else if prompt.length ≥ config.graphCtxSize then
    (resetDenseCache { session with checkpointValid := false },
      .failed ("prompt length " ++ toString prompt.length ++
        " leaves no GLM Metal context room (ctx " ++ toString config.graphCtxSize ++ ")"))
  else if session.checkpointValid && session.checkpoint.isPrefixOf prompt then
    prefillLoop target config answers prompt.length 0 (prompt.drop session.checkpoint.length)
      session
  else
    match resetKdaState target
        (resetDenseCache { session with checkpoint := [], checkpointValid := false })
        answers.reset with
    | (session, false) => (session, .failed (config.backendName ++ " GLM KDA state reset failed"))
    | (session, true) => prefillLoop target config answers prompt.length 0 prompt session

end Sync

/-! ## `ds4_session_eval` -/

section Eval

variable {σ Λ : Type} (target : Recurrent Nat σ Λ) (config : Config)

/-- `ds4_session_eval_internal`; `inside` is `glm_spec_inside`. -/
def evalInternal (session : Ds4Session σ Λ) (token : Nat) (inside : Bool)
    (answer : Forward σ Λ) : Ds4Session σ Λ × Except String Unit :=
  if session.checkpoint.length ≥ config.graphCtxSize then
    (session, .error ("GLM Metal context reached (" ++ toString config.graphCtxSize ++ ")"))
  else
    let session := if inside then session else { session with rollbackValid := false }
    let pos := session.checkpoint.length
    match forward target session [token] true answer with
    | (session, false) =>
      (capDenseCache config { session with checkpointValid := false },
        .error (config.backendName ++ " GLM decode failed"))
    | (session, true) =>
      let session :=
        { session with checkpoint := session.checkpoint ++ [token], checkpointValid := true }
      (noteDecode config session pos, .ok ())

end Eval

/-! ## The speculative cycle -/

/-- The answers a cycle gets. `draft` is the last `glm_graph_mtp_step`, with everything that must
succeed before it; `accept` and `replacement` are the sampler's, under exact sampling only. -/
structure CycleAnswers (σ Λ : Type) where
  scratch : Bool
  plain : Forward σ Λ
  mtpEnsure : Bool
  save : Copy σ
  verify : Forward σ Λ
  head : Bool
  distribution : Bool
  accept : Bool
  replacement : Option Nat
  restore : Copy σ
  replay : Forward σ Λ
  replayReplacement : Forward σ Λ
  draft : Option Nat

section Cycle

variable {σ Λ : Type} (target : Recurrent Nat σ Λ) (config : Config) (argmax : Λ → Nat)

/-- Record the draft that follows `parent`, or that there is none. -/
def seedDraft (session : Ds4Session σ Λ) (parent : Nat) : Option Nat → Ds4Session σ Λ
  | some draft =>
    { session with glmMtpDraft := draft, glmMtpParent := parent, glmMtpHave := true }
  | none => { session with glmMtpHave := false }

/-- The lowest position the MTP cache has rows for. -/
def noteMinPos (session : Ds4Session σ Λ) (pos : Nat) : Ds4Session σ Λ :=
  if session.glmMtpMinPos = 0 ∨ session.glmMtpMinPos > pos then
    { session with glmMtpMinPos := pos }
  else session

/-- A cycle that cannot go on: the saved state goes back, the checkpoint is given up. -/
def abandonCycle (session : Ds4Session σ Λ) (saved : Bool) (restore : Copy σ) (message : String) :
    Ds4Session σ Λ × Except String (List Nat) :=
  let session := if saved then (restoreKdaState session restore).1 else session
  ({ session with checkpointValid := false }, .error message)

/-- The plain step of a cycle, which seeds the next draft. -/
def plainCycle (session : Ds4Session σ Λ) (firstToken : Nat) (answers : CycleAnswers σ Λ) :
    Ds4Session σ Λ × Except String (List Nat) :=
  let pos := session.checkpoint.length
  match evalInternal target config session firstToken true answers.plain with
  | (session, .error message) => (session, .error message)
  | (session, .ok ()) =>
    (seedDraft (noteMinPos session pos) (argmax session.logits) answers.draft, .ok [firstToken])

/-- The two-row pass is through and `first` is pushed; `logits0` are the logits after it. -/
def settleCycle (session : Ds4Session σ Λ) (exactSampling : Bool) (eosToken : Option Nat)
    (pos firstToken draft : Nat) (logits0 : Λ) (accept : Bool) (replacement : Nat)
    (answers : CycleAnswers σ Λ) : Ds4Session σ Λ × Except String (List Nat) :=
  let session :=
    { session with checkpoint := session.checkpoint ++ [firstToken], checkpointValid := true }
  if accept then
    let session :=
      noteDenseCache config { session with checkpoint := session.checkpoint ++ [draft] } pos 2
    (seedDraft session (argmax session.logits) answers.draft, .ok [firstToken, draft])
  else
    match restoreKdaState session answers.restore with
    | (session, false) =>
      ({ session with checkpointValid := false }, .error "glm mtp: rejection replay failed")
    | (session, true) =>
      match forward target session [firstToken] true answers.replay with
      | (session, false) =>
        ({ session with checkpointValid := false }, .error "glm mtp: rejection replay failed")
      | (session, true) =>
        if exactSampling then
          match forward target session [replacement] true answers.replayReplacement with
          | (session, false) =>
            ({ session with checkpointValid := false },
              .error "glm mtp: replacement replay failed")
          | (session, true) =>
            let session :=
              noteDenseCache config
                { session with checkpoint := session.checkpoint ++ [replacement] } pos 2
            (seedDraft session (argmax session.logits)
                (if eosToken = some replacement then none else answers.draft),
              .ok [firstToken, replacement])
        else
          (seedDraft (noteDenseCache config session pos 1) (argmax logits0) answers.draft,
            .ok [firstToken])

/-- The rollback record of a cycle that committed two tokens. -/
def recordRollback (session : Ds4Session σ Λ) (pos denseBefore firstToken : Nat) :
    Ds4Session σ Λ :=
  { session with
    rollbackPos := pos, rollbackDenseLen := denseBefore, rollbackFirstToken := firstToken,
    rollbackValid := true }

/-- The verified branch of a cycle: a draft for `firstToken` is pending and fits. -/
def verifyCycle (session : Ds4Session σ Λ) (exactSampling : Bool) (eosToken : Option Nat)
    (firstToken : Nat) (answers : CycleAnswers σ Λ) :
    Ds4Session σ Λ × Except String (List Nat) :=
  let pos := session.checkpoint.length
  let denseBefore := session.glmDenseCacheLen
  let draft := session.glmMtpDraft
  let session := { session with glmMtpHave := false }
  if !answers.mtpEnsure then
    abandonCycle session false answers.restore "glm mtp: GLM 5.3 verify failed"
  else
    match saveKdaState session answers.save with
    | (session, false) =>
      abandonCycle session false answers.restore "glm mtp: GLM 5.3 verify failed"
    | (session, true) =>
      -- the row after `firstToken`, before the pass moves the graph past it
      let logits0 := target.logits (target.step session.graph firstToken)
      match forward target session [firstToken, draft] true answers.verify with
      | (session, false) =>
        abandonCycle session true answers.restore "glm mtp: GLM 5.3 verify failed"
      | (session, true) =>
        if !answers.head then
          abandonCycle session true answers.restore "glm mtp: row0 head failed"
        else if exactSampling && !answers.distribution then
          abandonCycle session true answers.restore "glm mtp: target distribution failed"
        else
          let accept := if exactSampling then answers.accept else argmax logits0 = draft
          match if exactSampling && !accept then answers.replacement else some 0 with
          | none => abandonCycle session true answers.restore "glm mtp: replacement sampling failed"
          | some replacement =>
            match settleCycle target config argmax session exactSampling eosToken pos firstToken
                draft logits0 accept replacement answers with
            | (session, .error message) => (session, .error message)
            | (session, .ok accepted) =>
              (if accepted.length = 2 then recordRollback session pos denseBefore firstToken
                else session, .ok accepted)

/-- A pending draft that follows another token is dropped. -/
def dropStaleDraft (session : Ds4Session σ Λ) (firstToken : Nat) : Ds4Session σ Λ :=
  if session.glmMtpHave && firstToken ≠ session.glmMtpParent then
    { session with glmMtpHave := false }
  else session

/-- The caller takes one token only, or there is no room for a two-row pass behind `pos`. -/
def pairRefused (pos acceptedCap : Nat) : Bool :=
  acceptedCap < 2 || pos + 2 > config.graphCtxSize ||
    (config.compactCacheCap ≠ 0 && pos + 1 ≥ config.compactCacheCap)

/-- `ds4_session_glm_spec_cycle_impl`: the session and the accepted tokens. -/
def specCycle (session : Ds4Session σ Λ) (exactSampling : Bool) (eosToken : Option Nat)
    (firstToken acceptedCap : Nat) (answers : CycleAnswers σ Λ) :
    Ds4Session σ Λ × Except String (List Nat) :=
  if !answers.scratch then (session, .error "glm mtp: out of memory")
  else
    let pos := session.checkpoint.length
    let session := dropStaleDraft { session with rollbackValid := false } firstToken
    if !session.glmMtpHave || pairRefused config pos acceptedCap then
      plainCycle target config argmax session firstToken answers
    else verifyCycle target config argmax session exactSampling eosToken firstToken answers

/-- `ds4_session_glm_mtp_rewind`. -/
def mtpRewind (session : Ds4Session σ Λ) (pos : Nat) (restore : Copy σ) (replay : Forward σ Λ) :
    Ds4Session σ Λ × Bool :=
  if !session.rollbackValid || session.checkpoint.length ≠ session.rollbackPos + 2 ||
      (pos ≠ session.rollbackPos && pos ≠ session.rollbackPos + 1) then (session, false)
  else
    let start := session.rollbackPos
    let restored := restoreKdaState session restore
    let session := { restored.1 with glmDenseCacheLen := session.rollbackDenseLen }
    let replayed :=
      if restored.2 && pos = start + 1 then
        match forward target session [session.rollbackFirstToken] true replay with
        | (session, true) => (noteDenseCache config session start 1, true)
        | (session, false) => (session, false)
      else (session, restored.2)
    ({ replayed.1 with rollbackValid := false, glmMtpHave := false }, replayed.2)

/-- `ds4_session_rewind`. -/
def rewind (session : Ds4Session σ Λ) (pos : Int) (restore : Copy σ) (replay : Forward σ Λ) :
    Ds4Session σ Λ :=
  let pos := min pos.toNat session.checkpoint.length
  let rewound :=
    if pos < session.checkpoint.length then mtpRewind target config session pos restore replay
    else (session, true)
  capDenseCache config
    { rewound.1 with
      checkpoint := rewound.1.checkpoint.take pos
      glmMtpHave := false
      rollbackValid := false
      checkpointValid := rewound.1.checkpointValid && rewound.2 }

end Cycle

/-- `ds4_session_invalidate`. -/
def invalidate {σ Λ : Type} (session : Ds4Session σ Λ) : Ds4Session σ Λ :=
  resetDenseCache { session with checkpointValid := false, checkpoint := [] }

/-! ## Payloads -/

/-- A session payload: the header fields that are checked on loading, the tokens, the logits and
the serialized graph state. -/
structure Payload (σ Λ : Type) where
  ctxSize : Nat
  fullCap : Nat
  fullWindow : Nat
  compactCap : Nat
  layout : Layout
  fullLive : Nat
  tokens : List Nat
  logits : Λ
  compactRows : List Nat
  indexRows : List Nat
  graph : σ

/-- Where a payload file ends. A cut inside the logits or the tensors has overwritten part of
what it restores. -/
inductive Extent (σ Λ : Type) where
  | complete
  | header
  | tokens
  | logits (junk : Λ)
  | rows
  | tensors (junk : σ)

section Payloads

variable {σ Λ : Type} (config : Config)

/-- The rows of the compact cache that are live under a checkpoint of the given length. -/
def compactLiveRows (compactCap checkpointLen : Nat) : Nat :=
  if compactCap = 0 then 0 else min compactCap checkpointLen

/-- `session_glm_index_live_rows` of every layer; the pool size is 4. -/
def indexLiveRows (compactLive : Nat) : List Nat :=
  (List.range config.layout.normalLayers).map fun layer =>
    if compactLive = 0 ∨ config.usesFullIndexer layer = false then 0 else compactLive / 4

/-- `ds4_session_save_payload`; `written` says that the device and the file took every write. -/
def savePayload (session : Ds4Session σ Λ) (written : Bool) : Except String (Payload σ Λ) :=
  if !session.checkpointValid then .error "session has no valid checkpoint to save"
  else if !written then .error "failed to write session payload"
  else
    .ok
      { ctxSize := config.ctxSize
        fullCap := config.ctxCap
        fullWindow := config.ctxCap
        compactCap := config.compactCacheCap
        layout := config.layout
        fullLive :=
          if config.fullKvCache then
            min (min config.ctxCap session.checkpoint.length) session.glmDenseCacheLen
          else 0
        tokens := session.checkpoint
        logits := session.logits
        compactRows := List.replicate config.layout.normalLayers
          (compactLiveRows config.compactCacheCap session.checkpoint.length)
        indexRows := indexLiveRows config
          (compactLiveRows config.compactCacheCap session.checkpoint.length)
        graph := session.graph }

/-- The header checks of `ds4_session_load_payload`. -/
def checkPayload (payload : Payload σ Λ) : Except String Unit :=
  let count := payload.tokens.length
  if payload.ctxSize > config.ctxSize ∨ count ≥ config.ctxSize then
    .error "KV checkpoint does not fit current context"
  else if payload.layout ≠ config.layout then
    .error "KV checkpoint was written for a different GLM layout"
  else if payload.fullCap = 0 ∨ payload.fullCap > config.ctxCap ∨
      payload.fullWindow ≠ payload.fullCap then
    .error "KV checkpoint GLM full-cache layout does not match current runtime"
  else if payload.fullLive > min count payload.fullCap ∨ payload.fullLive > config.ctxCap then
    .error "KV checkpoint GLM full-cache row count is invalid"
  else if payload.compactCap > config.graphCtxSize then
    .error "KV checkpoint GLM compact cache is larger than current context"
  else if config.compactCacheCap ≠ 0 ∧ count ≠ 0 ∧ payload.compactCap = 0 then
    .error "KV checkpoint lacks the GLM compact cache required by this context"
  else if compactLiveRows payload.compactCap count ≠ 0 ∧
      ¬ (compactLiveRows payload.compactCap count ≤ config.ctxCap ∧ config.compactCacheCap = 0 ∨
        compactLiveRows payload.compactCap count ≤ config.compactCacheCap) then
    .error "KV checkpoint GLM compact cache could not be allocated"
  else if compactLiveRows payload.compactCap count > config.compactCacheCap then
    .error "KV checkpoint GLM compact row count is invalid"
  else .ok ()

/-- `ds4_session_load_payload` from a file that ends at `extent`; the two flags are the device
synchronizations before and after the tensors are restored. -/
def loadPayload (session : Ds4Session σ Λ) (payload : Payload σ Λ) (extent : Extent σ Λ)
    (syncBefore syncAfter : Bool) : Ds4Session σ Λ × Except String Unit :=
  match extent with
  | .header => (session, .error "truncated session payload")
  | extent =>
    match checkPayload config payload with
    | .error message => (session, .error message)
    | .ok () =>
      match extent with
      | .tokens => (session, .error "truncated session payload")
      | .logits junk => ({ session with logits := junk }, .error "truncated session payload")
      | extent =>
        let session := { session with logits := payload.logits }
        match extent with
        | .rows => (session, .error "truncated session payload")
        | extent =>
          if payload.compactRows ≠ List.replicate config.layout.normalLayers
              (compactLiveRows payload.compactCap payload.tokens.length) then
            (session, .error "KV checkpoint GLM compact row count does not match token count")
          else if payload.indexRows ≠ indexLiveRows config
              (compactLiveRows payload.compactCap payload.tokens.length) then
            (session, .error "KV checkpoint GLM indexer row count does not match token count")
          else if !syncBefore then
            (session, .error "failed to synchronize accelerator before GLM KV restore")
          else
            let session := resetDenseCache { session with checkpointValid := false }
            match extent with
            | .tensors junk =>
              ({ session with graph := junk }, .error "truncated session payload")
            | _ =>
              let session := { session with graph := payload.graph }
              if !syncAfter then
                (session, .error "failed to synchronize accelerator after GLM KV restore")
              else
                ({ session with
                    checkpoint := payload.tokens
                    checkpointValid := true
                    glmDenseCacheLen := if config.fullKvCache then payload.fullLive else 0 },
                  .ok ())

end Payloads

end Spark.Glm
