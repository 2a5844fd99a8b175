import Spark.Server.Decode

/-!
# Live continuation on one slot

What `generate_job_inner` does with a slot's session tokens and its three live bindings, from the
choice of the cached prefix to the publishing of the reply. A binding remembers only how many
tokens the session had; two further fields of it are read by no function here and record which
tokens those were. Everything the model, the disk and the client decide is an answer of the job.

* **`select`** — where a request is continued from.
* **`prefill`** — the two synchronizations and their error paths.
* **`decodeReply`** — what decoding leaves in the session, with the tool-error recovery.
* **`publish`** — recording and clearing of the bindings, and `canonicalizeToolCheckpoint`.
* **`serve`** — one request; its events are the continuations from live state and the checkpoints
  stored under a remembered text.
-/

namespace Spark.Server

/-! ## Slots -/

/-- `live_tool_state` and `visible_live_state`. -/
structure Binding where
  valid : Bool
  liveTokens : Nat
  visibleText : List UInt8
  callIds : List String
  /-- The session's tokens when the binding was recorded; not in the source. -/
  recorded : List Nat
  /-- The tokens the same turn's canonicalization put in their place; not in the source. -/
  canonical : Option (List Nat)
  deriving DecidableEq, Repr

def Binding.cleared : Binding := ⟨false, 0, [], [], [], none⟩

/-- The tokens are those the binding was recorded for. -/
def Binding.Describes (binding : Binding) (tokens : List Nat) : Prop :=
  tokens = binding.recorded ∨ binding.canonical = some tokens

structure Slot where
  /-- `ds4_session_tokens`. -/
  tokens : List Nat
  checkpointValid : Bool
  responses : Binding
  anthropic : Binding
  thinking : Binding
  deriving DecidableEq, Repr

/-- `request_live_state_clear`. -/
def Slot.liveStateClear (slot : Slot) : Slot :=
  { slot with responses := .cleared, anthropic := .cleared, thinking := .cleared }

/-- `id_list_push_unique` over a call list. -/
def uniqueIds (ids : List String) : List String :=
  ids.foldl (fun known id => if id = "" ∨ id ∈ known then known else known ++ [id]) []

/-- A binding for the session as it stands. -/
def Slot.bind (slot : Slot) (visibleText : List UInt8) (callIds : List String) : Binding :=
  ⟨true, slot.tokens.length, visibleText, uniqueIds callIds, slot.tokens, none⟩

/-- `responses_live_remember`; nothing happens without a visible text. -/
def Slot.responsesLiveRemember (slot : Slot) (visibleText : List UInt8) (callIds : List String) :
    Slot :=
  if visibleText = [] then slot
  else { slot with responses := slot.bind visibleText callIds }

/-- `anthropic_live_remember`. -/
def Slot.anthropicLiveRemember (slot : Slot) (callIds : List String) : Slot :=
  if callIds = [] then slot
  else
    { slot with
      anthropic := { slot.bind [] callIds with valid := !(uniqueIds callIds).isEmpty } }

/-- `thinking_live_remember`. -/
def Slot.thinkingLiveRemember (slot : Slot) (visibleText : List UInt8) : Slot :=
  if visibleText = [] then slot else { slot with thinking := slot.bind visibleText [] }

/-! ## The session, as far as its tokens go -/

/-- A synchronization that succeeds leaves the prompt. One that fails leaves the session alone, or
any number of tokens of the prompt. -/
inductive SyncAnswer where
  | ok
  | failed (left : Option Nat) (checkpointValid : Bool)
  deriving DecidableEq, Repr

def SyncAnswer.isOk : SyncAnswer → Bool
  | .ok => true
  | .failed _ _ => false

/-- `server_session_sync`. -/
def Slot.sync (slot : Slot) (prompt : List Nat) : SyncAnswer → Slot
  | .ok => { slot with tokens := prompt, checkpointValid := true }
  | .failed left checkpointValid =>
    { slot with
      tokens := match left with
        | none => slot.tokens
        | some count => prompt.take count
      checkpointValid := checkpointValid }

/-- `ds4_session_invalidate`. -/
def Slot.invalidate (slot : Slot) : Slot := { slot with tokens := [], checkpointValid := false }

/-- `ds4_session_common_prefix`. -/
def Slot.commonPrefix (slot : Slot) (prompt : List Nat) : Nat :=
  if !slot.checkpointValid then 0
  else ((slot.tokens.zip prompt).takeWhile fun pair => pair.1 = pair.2).length

/-- `kv_store_try_load_text`: a miss leaves the session alone or gives it up, a hit replaces it by
a stored checkpoint whose key is that many bytes of the text. -/
inductive DiskAnswer where
  | miss
  | missInvalidated
  | hit (tokens : List Nat) (textBytes : Nat)
  deriving DecidableEq, Repr

def Slot.load (slot : Slot) : DiskAnswer → Slot
  | .miss => slot
  | .missInvalidated => slot.invalidate
  | .hit tokens _ => { slot with tokens := tokens, checkpointValid := true }

/-! ## Server and requests -/

structure KvOptions where
  enabled : Bool
  minTokens : Nat
  coldMaxTokens : Nat
  boundaryTrimTokens : Nat
  boundaryAlignTokens : Nat
  deriving DecidableEq, Repr

structure LiveServer where
  /-- `ds4_tokenize_rendered_chat`. -/
  tokenize : List UInt8 → List Nat
  /-- `render_tokens_text`. -/
  render : List Nat → List UInt8
  ctxSize : Nat
  userToken : Nat
  assistantToken : Nat
  kv : KvOptions
  disableExactDsmlToolReplay : Bool

inductive Api where
  | openai
  | anthropic
  | responses
  deriving DecidableEq, Repr

structure LiveRequest where
  api : Api
  chat : Bool
  prompt : List Nat
  promptText : Option (List UInt8)
  hasTools : Bool
  stream : Bool
  thinkEnabled : Bool
  promptPreservesReasoning : Bool
  responsesLiveSuffixText : Option (List UInt8)
  responsesLiveCallIds : List String
  responsesRequiresLiveToolState : Bool
  anthropicLiveSuffixText : Option (List UInt8)
  anthropicLiveCallIds : List String
  anthropicRequiresLiveToolState : Bool
  /-- The Responses parser always renders a prompt, and it is never empty. -/
  responses_rendered : api = .responses → chat = true ∧ promptText.getD [] ≠ []

/-- The exact tokens of a prefix, and the tokens of the text that follows it. -/
def LiveServer.buildPrompt (server : LiveServer) (exact : List Nat) (suffixText : List UInt8) :
    List Nat :=
  exact ++ server.tokenize suffixText

/-! ## Continuing from live state -/

/-- `responses_live_matches_request` and `anthropic_live_matches_request`. -/
def Binding.matchesIds (binding : Binding) (ids : List String) (livePos : Nat) : Bool :=
  !ids.isEmpty && binding.valid && binding.liveTokens = livePos &&
    binding.callIds.length = ids.length && ids.all (binding.callIds.contains ·)

/-- The remembered text is a proper prefix of the prompt text: the bytes behind it. -/
def Binding.visibleSuffix (binding : Binding) (livePos : Nat) (promptText : List UInt8) :
    Option (List UInt8) :=
  if binding.valid = true ∧ binding.liveTokens = livePos ∧
      binding.visibleText.length < promptText.length ∧
      binding.visibleText.isPrefixOf promptText = true then
    some (promptText.drop binding.visibleText.length)
  else none

/-- The text to put behind the live tokens; an empty session is never continued. -/
def responsesLiveVisiblePrefix (slot : Slot) (request : LiveRequest) : Option (List UInt8) :=
  if request.api ≠ .responses ∨ slot.tokens = [] then none
  else request.promptText.bind (slot.responses.visibleSuffix slot.tokens.length)

def responsesLiveContinuation (slot : Slot) (request : LiveRequest) : Option (List UInt8) :=
  if request.api = .responses ∧ slot.tokens ≠ [] ∧
      slot.responses.matchesIds request.responsesLiveCallIds slot.tokens.length = true then
    request.responsesLiveSuffixText
  else none

def anthropicLiveContinuation (slot : Slot) (request : LiveRequest) : Option (List UInt8) :=
  if request.api = .anthropic ∧ slot.tokens ≠ [] ∧
      slot.anthropic.matchesIds request.anthropicLiveCallIds slot.tokens.length = true then
    request.anthropicLiveSuffixText
  else none

def thinkingLiveVisiblePrefix (slot : Slot) (request : LiveRequest) : Option (List UInt8) :=
  if request.chat = false ∨ request.api = .responses ∨ slot.tokens = [] then none
  else request.promptText.bind (slot.thinking.visibleSuffix slot.tokens.length)

/-- `live_text_prefix_prompt`: the live tokens' own text is a prefix of the prompt text. -/
def liveTextPrefix (server : LiveServer) (slot : Slot) (request : LiveRequest) :
    Option (List UInt8) :=
  match request.promptText with
  | none => none
  | some text =>
    if slot.tokens ≠ [] ∧ (server.render slot.tokens).isPrefixOf text = true then
      some (text.drop (server.render slot.tokens).length)
    else none

/-- `live_prefix_rewind_target` on GLM. -/
def livePrefixRewindTarget (oldPos promptLen common : Nat) : Option Nat :=
  if promptLen ≤ 1 ∨ promptLen ≥ oldPos ∨ common ≠ promptLen then none else some (promptLen - 1)

inductive Source where
  | none
  | responsesVisible
  | responsesToolOutput
  | anthropicToolOutput
  | memoryRewind
  | memoryToken
  | thinkingVisible
  | memoryText
  | diskText
  deriving DecidableEq, Repr

/-- A use of a binding: a request is continued from it, or a checkpoint stored under its text. -/
inductive Event where
  | continued (binding : Binding) (tokens : List Nat) (prompt : List Nat)
  | stored (binding : Binding) (tokens : List Nat)
  deriving DecidableEq, Repr

/-- `kv_cache_store_current`: the binding whose text the checkpoint is stored under, if any. -/
def Slot.storeCurrent (slot : Slot) : List Event :=
  if slot.responses.valid = true ∧ slot.responses.liveTokens = slot.tokens.length ∧
      slot.responses.visibleText ≠ [] then [.stored slot.responses slot.tokens]
  else if slot.thinking.valid = true ∧ slot.thinking.liveTokens = slot.tokens.length ∧
      slot.thinking.visibleText ≠ [] then [.stored slot.thinking slot.tokens]
  else []

structure Selected where
  slot : Slot
  source : Source
  cached : Nat
  prompt : List Nat
  events : List Event
  deriving DecidableEq, Repr

/-- The request goes on behind the live tokens. -/
def continueLive (server : LiveServer) (slot : Slot) (source : Source) (binding : Binding)
    (suffixText : List UInt8) : Selected :=
  let prompt := server.buildPrompt slot.tokens suffixText
  ⟨slot, source, slot.tokens.length, prompt, [.continued binding slot.tokens prompt]⟩

/-- Nothing live fits: the session is stored, and a checkpoint from disk may replace it. -/
def selectDisk (server : LiveServer) (slot : Slot) (request : LiveRequest) (disk : DiskAnswer) :
    Selected :=
  let events :=
    if server.kv.enabled = true ∧ slot.tokens.length ≥ server.kv.minTokens then slot.storeCurrent
    else []
  match disk with
  | .hit [] _ => ⟨slot.load disk, .none, 0, request.prompt, events⟩
  | .hit tokens textBytes =>
    ⟨slot.load disk, .diskText, tokens.length,
      server.buildPrompt tokens ((request.promptText.getD []).drop textBytes), events⟩
  | disk => ⟨slot.load disk, .none, 0, request.prompt, events⟩

/-- The choice without a protocol binding. -/
def selectMemory (server : LiveServer) (slot : Slot) (request : LiveRequest)
    (rewoundValid : Bool) (disk : DiskAnswer) : Selected :=
  let oldPos := slot.tokens.length
  let common := slot.commonPrefix request.prompt
  match livePrefixRewindTarget oldPos request.prompt.length common with
  | some pos =>
    ⟨{ slot with tokens := slot.tokens.take pos, checkpointValid := rewoundValid }, .memoryRewind,
      pos, request.prompt, []⟩
  | none =>
    if common = oldPos ∧ request.prompt.length ≥ oldPos ∧ 0 < common then
      ⟨slot, .memoryToken, common, request.prompt, []⟩
    else
      match thinkingLiveVisiblePrefix slot request with
      | some suffixText => continueLive server slot .thinkingVisible slot.thinking suffixText
      | none =>
        match liveTextPrefix server slot request with
        | some suffixText =>
          ⟨slot, .memoryText, oldPos, server.buildPrompt slot.tokens suffixText, []⟩
        | none => selectDisk server slot request disk

/-- Where the request is continued from; `none` is the 409 for a continuation that is gone. -/
def select (server : LiveServer) (slot : Slot) (request : LiveRequest) (rewoundValid : Bool)
    (disk : DiskAnswer) : Option Selected :=
  match responsesLiveVisiblePrefix slot request with
  | some suffixText =>
    some (continueLive server slot .responsesVisible slot.responses suffixText)
  | none =>
    match responsesLiveContinuation slot request with
    | some suffixText =>
      some (continueLive server slot .responsesToolOutput slot.responses suffixText)
    | none =>
      match anthropicLiveContinuation slot request with
      | some suffixText =>
        some (continueLive server slot .anthropicToolOutput slot.anthropic suffixText)
      | none =>
        if (request.api = .responses ∧ request.responsesRequiresLiveToolState = true) ∨
            (request.api = .anthropic ∧ request.anthropicRequiresLiveToolState = true) then none
        else some (selectMemory server slot request rewoundValid disk)

/-! ## Prefill -/

/-- `kv_store_store_len`. -/
def KvOptions.storeLen (kv : KvOptions) (tokens : Nat) : Nat :=
  if tokens > kv.minTokens + kv.boundaryTrimTokens then
    let stable := tokens - kv.boundaryTrimTokens
    let stable :=
      if kv.boundaryAlignTokens > 0 then stable - stable % kv.boundaryAlignTokens else stable
    if stable ≥ kv.minTokens then stable else tokens
  else tokens

/-- The last user marker before the first assistant marker. -/
def lastUserMarker (user assistant : Nat) : Nat → Option Nat → List Nat → Option Nat
  | _, last, [] => last
  | index, last, token :: rest =>
    if token = assistant then last
    else lastUserMarker user assistant (index + 1) (if token = user then some index else last) rest

/-- `kv_store_chat_anchor_pos`. -/
def LiveServer.chatAnchorPos (server : LiveServer) (prompt : List Nat) : Option Nat :=
  (lastUserMarker server.userToken server.assistantToken 0 none prompt).filter
    (· ≥ server.kv.minTokens)

/-- The length of the cold checkpoint, 0 if none is to be written. -/
def LiveServer.coldStoreLen (server : LiveServer) (cached : Nat) (prompt : List Nat) : Nat :=
  if cached = 0 ∧ server.kv.enabled = true ∧ prompt.length ≥ server.kv.minTokens ∧
      server.kv.coldMaxTokens > 0 ∧ prompt.length ≤ server.kv.coldMaxTokens then
    (server.chatAnchorPos prompt).getD (server.kv.storeLen prompt.length)
  else 0

/-- The first synchronization stops at the cold checkpoint. -/
def LiveServer.syncsCold (server : LiveServer) (selected : Selected) : Bool :=
  let length := server.coldStoreLen selected.cached selected.prompt
  server.kv.enabled && length ≥ server.kv.minTokens && length < selected.prompt.length

/-- The answers of a job. A flag `cancelled…` is `job_cancelled` at that point; `started` says that
every event in front of the reply went out. -/
structure PrefillAnswers where
  cold : SyncAnswer
  cancelledInCold : Bool
  main : SyncAnswer
  cancelledInMain : Bool
  cancelledAfter : Bool
  started : Bool
  deriving DecidableEq, Repr

/-- A failed synchronization: `kv_cache_discard_failed_disk_entry` gives a loaded session up, and
only a cancelled job clears the bindings. -/
def failPrefill (slot : Slot) (source : Source) (cancelled : Bool) : Slot :=
  let slot := if source = .diskText then slot.invalidate else slot
  if cancelled then slot.liveStateClear else slot

/-- A binding survives a prefill only if the request was continued from it. -/
def keepContinued (slot : Slot) (source : Source) : Slot :=
  { slot with
    responses :=
      if source = .responsesVisible ∨ source = .responsesToolOutput then slot.responses
      else .cleared
    anthropic := if source = .anthropicToolOutput then slot.anthropic else .cleared
    thinking := if source = .thinkingVisible then slot.thinking else .cleared }

/-- The prefill of a request; an `error` is the slot of a request that is over. -/
def prefill (server : LiveServer) (selected : Selected) (answers : PrefillAnswers) :
    Except Slot Slot :=
  let length := server.coldStoreLen selected.cached selected.prompt
  let cold :=
    if server.syncsCold selected then selected.slot.sync (selected.prompt.take length) answers.cold
    else selected.slot
  if server.syncsCold selected && !answers.cold.isOk then
    .error (failPrefill cold selected.source answers.cancelledInCold)
  else
    let slot := cold.sync selected.prompt answers.main
    if !answers.main.isOk then .error (failPrefill slot selected.source answers.cancelledInMain)
    else if answers.cancelledAfter then .error slot.liveStateClear
    else
      let slot := keepContinued slot selected.source
      if !answers.started then .error slot.liveStateClear else .ok slot

/-! ## Decoding -/

/-- What one pass of the decode loop leaves: tokens at the end, or nothing after a stop string.
An evaluation that fails ends the pass and takes the checkpoint's validity with it. -/
structure DecodeAnswer where
  appended : List Nat
  evalFailed : Bool
  stopString : Bool
  deriving DecidableEq, Repr

def Slot.decode (slot : Slot) (answer : DecodeAnswer) : Slot :=
  if answer.stopString then slot.invalidate
  else { slot with
    tokens := slot.tokens ++ answer.appended
    checkpointValid := slot.checkpointValid && !answer.evalFailed }

/-- `continue_after_invalid_dsml`: the tool error, the synchronization, and decoding again. -/
structure RecoveryAnswer where
  suffixText : List UInt8
  sync : SyncAnswer
  again : DecodeAnswer
  deriving DecidableEq, Repr

/-- Decoding, with at most one recovery from an unusable tool call. -/
def decodeReply (server : LiveServer) (slot : Slot) (request : LiveRequest) (first : DecodeAnswer)
    (recovery : Option RecoveryAnswer) : Slot :=
  let slot := slot.decode first
  match recovery with
  | none => slot
  | some recovery =>
    if request.chat && request.hasTools && !request.stream then
      let slot :=
        if recovery.suffixText = [] then slot
        else slot.sync (server.buildPrompt slot.tokens recovery.suffixText) recovery.sync
      if recovery.suffixText = [] || recovery.sync.isOk then slot.decode recovery.again else slot
    else slot

/-! ## Publishing -/

/-- The parsed reply and the answers while it is published. -/
structure PublishAnswers where
  cancelledBefore : Bool
  finish : Finish
  calls : List String
  rawToolText : Bool
  visibleSuffix : List UInt8
  content : List UInt8
  checkpointSuffix : List UInt8
  thinkingInside : Bool
  rewrite : SyncAnswer
  rebuildDisk : DiskAnswer
  rebuild : SyncAnswer
  responseOk : Bool
  deriving DecidableEq, Repr

/-- Neither an error nor cut off. -/
def Finish.complete (finish : Finish) : Bool := finish ≠ .error && finish ≠ .length

/-- `should_canonicalize_tool_checkpoint`. -/
def shouldCanonicalize (server : LiveServer) (answers : PublishAnswers) : Bool :=
  !answers.calls.isEmpty && (server.disableExactDsmlToolReplay || !answers.rawToolText)

/-- `should_remember_thinking_checkpoint`. -/
def shouldRememberThinking (request : LiveRequest) (answers : PublishAnswers) : Bool :=
  request.chat && !request.hasTools && !request.promptPreservesReasoning &&
    request.thinkEnabled && answers.finish.complete && !answers.thinkingInside

/-- `build_toolless_thinking_visible_text`. -/
def toollessThinkingVisibleText (request : LiveRequest) (content : List UInt8) :
    Option (List UInt8) :=
  match request.promptText with
  | none => none
  | some text =>
    if request.thinkEnabled && (bytes "<think>").isSuffixOf text then
      some (text.take (text.length - (bytes "<think>").length) ++ bytes "</think>" ++ content ++
        bytes "<｜end▁of▁sentence｜>")
    else none

/-- `remember_thinking_checkpoint`; without a visible text the old binding stays. -/
def rememberThinkingCheckpoint (slot : Slot) (request : LiveRequest) (content : List UInt8) :
    Slot :=
  match toollessThinkingVisibleText request content with
  | none => slot
  | some visible => slot.thinkingLiveRemember visible

/-- The session now holds this turn's canonical tokens. -/
def Slot.noteCanonical (slot : Slot) : Slot :=
  { slot with anthropic := { slot.anthropic with canonical := some slot.tokens } }

/-- The rebuild of `canonicalize_tool_checkpoint`, from disk or from the beginning. -/
def rebuildCheckpoint (server : LiveServer) (slot : Slot) (rendered : List UInt8)
    (canonical : List Nat) (disk : DiskAnswer) (answer : SyncAnswer) : Slot :=
  let rebuilt :=
    match disk with
    | .hit (token :: tokens) textBytes =>
      (slot.load disk).sync
        (server.buildPrompt (token :: tokens) (rendered.drop textBytes)) answer
    | _ => slot.invalidate.sync canonical answer
  if answer.isOk then rebuilt.noteCanonical else rebuilt

/-- `canonicalize_tool_checkpoint` with `ds4_session_rewrite_from_common`. -/
def canonicalizeToolCheckpoint (server : LiveServer) (slot : Slot) (request : LiveRequest)
    (answers : PublishAnswers) : Slot :=
  match request.promptText with
  | none => slot
  | some text =>
    let rendered := text ++ answers.checkpointSuffix
    let canonical := server.tokenize rendered
    let common := slot.commonPrefix canonical
    if common = slot.tokens.length ∧ canonical.length = slot.tokens.length then slot
    else if server.render slot.tokens = rendered then slot
    else if common < request.prompt.length then slot
    else if canonical = [] ∨ canonical.length ≥ server.ctxSize ∨ slot.checkpointValid = false then
      slot
    else if common = slot.tokens.length then
      let rewritten := slot.sync canonical answers.rewrite
      if answers.rewrite.isOk then rewritten.noteCanonical else rewritten
    else
      rebuildCheckpoint server slot rendered canonical answers.rebuildDisk answers.rebuild

/-- The Responses and Anthropic bindings of the turn. -/
def recordTools (slot : Slot) (request : LiveRequest) (answers : PublishAnswers) : Slot :=
  let slot :=
    if request.api = .responses then
      if answers.finish.complete then
        slot.responsesLiveRemember (request.promptText.getD [] ++ answers.visibleSuffix)
          answers.calls
      else { slot with responses := .cleared }
    else slot
  if request.api = .anthropic then
    if answers.calls ≠ [] ∧ answers.finish.complete = true then
      slot.anthropicLiveRemember answers.calls
    else { slot with anthropic := .cleared }
  else slot

/-- The thinking binding of the turn, behind the canonicalization. -/
def recordThinking (server : LiveServer) (slot : Slot) (request : LiveRequest)
    (answers : PublishAnswers) : Slot :=
  if request.chat = true ∧ request.api ≠ .responses ∧ shouldCanonicalize server answers = true then
    { canonicalizeToolCheckpoint server slot request answers with thinking := .cleared }
  else if answers.calls ≠ [] then { slot with thinking := .cleared }
  else if shouldRememberThinking request answers then
    rememberThinkingCheckpoint slot request answers.content
  else { slot with thinking := .cleared }

/-- From the end of decoding to the end of the response. Only a chat reply is parsed for calls. -/
def publish (server : LiveServer) (slot : Slot) (request : LiveRequest)
    (answers : PublishAnswers) : Slot :=
  if answers.cancelledBefore then slot.liveStateClear
  else
    let slot :=
      if request.chat = true ∧ answers.calls = [] ∧ request.api = .responses then
        { slot with responses := .cleared }
      else slot
    let slot := recordThinking server (recordTools slot request answers) request answers
    if answers.responseOk then slot else slot.liveStateClear

/-! ## One request -/

structure LiveJob where
  request : LiveRequest
  rewoundValid : Bool
  disk : DiskAnswer
  prefill : PrefillAnswers
  first : DecodeAnswer
  recovery : Option RecoveryAnswer
  publish : PublishAnswers
  /-- Calls are parsed from chat replies only. -/
  calls_chat : request.chat = false → publish.calls = []

/-- `generate_job_inner` on one slot. -/
def serve (server : LiveServer) (slot : Slot) (job : LiveJob) : Slot × List Event :=
  match select server slot job.request job.rewoundValid job.disk with
  | none => (slot, [])
  | some selected =>
    match prefill server selected job.prefill with
    | .error slot => (slot, selected.events)
    | .ok slot =>
      let slot := decodeReply server slot job.request job.first job.recovery
      (publish server slot job.request job.publish, selected.events)

/-- The requests of one slot, and the checkpoint stored at shutdown. -/
def serveAll (server : LiveServer) : Slot → List LiveJob → Slot × List Event
  | slot, [] =>
    (slot, if server.kv.enabled = true ∧ slot.tokens.length ≥ server.kv.minTokens then
      slot.storeCurrent else [])
  | slot, job :: jobs =>
    let served := serve server slot job
    let later := serveAll server served.1 jobs
    (later.1, served.2 ++ later.2)

end Spark.Server
