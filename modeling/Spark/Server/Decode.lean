import Spark.Glm.Speculate
import Spark.Server.Text

/-!
# The decode loop of `generate_job_inner`

The non-batched loop of the GLM server for a greedy request: take the argmax, evaluate it alone or
by a speculative call, then hand the committed tokens to the reply one by one until something
ends it. The client is two functions of the number of tokens handed out, so that it behaves the
same towards a server with and without speculation.

* **`feed`** — one token's text through the stop strings and the tool markers.
* **`decodeLoop`** — the loop over a session.
* **`greedyReply`** — the reply a greedy decoder owes the client, without any session.
* **`decode_invisible_iff`** — speculation changes nothing but, when the reply ends inside a
  two-token call, the session.
-/

namespace Spark.Server

open Glm

/-! ## Requests -/

/-- The special tokens of the vocabulary; a missing one is `none`. -/
structure Vocab where
  eosId : Nat
  systemId : Option Nat
  userId : Option Nat
  assistantId : Option Nat
  observationId : Option Nat
  thinkStartId : Option Nat
  thinkEndId : Option Nat
  tokenText : Nat → List UInt8

/-- `vocab_token_is_generation_stop` on GLM. -/
def Vocab.isStop (vocab : Vocab) (token : Nat) : Bool :=
  token = vocab.eosId || vocab.systemId = some token || vocab.userId = some token ||
    vocab.assistantId = some token || vocab.observationId = some token

def Vocab.isThinkingControl (vocab : Vocab) (token : Nat) : Bool :=
  vocab.thinkStartId = some token || vocab.thinkEndId = some token

/-- `ds4_token_is_stop_for_think_mode`. -/
def Vocab.isStopForThinkMode (vocab : Vocab) (thinkEnabled : Bool) (token : Nat) : Bool :=
  vocab.isStop token || (!thinkEnabled && vocab.isThinkingControl token)

/-- What the decode loop reads of a greedy request. -/
structure Request where
  chat : Bool
  hasTools : Bool
  thinkEnabled : Bool
  promptText : Option (List UInt8)
  stops : StopList
  maxTokens : Int

/-- The client once a number of tokens is handed out: whether the job is cancelled by then, and
whether the delta that follows the last of them is taken. -/
structure Client where
  cancelled : Nat → Bool
  written : Nat → Bool

/-! ## One token -/

structure DecodeState where
  text : List UInt8
  completion : Nat
  stopScanFrom : Nat
  toolScanFrom : Nat
  thinkRecoveryScanFrom : Nat
  thinking : ThinkingState
  toolScanWaitingForThinkClose : Bool
  sawToolStart : Bool
  sawToolEnd : Bool
  deriving DecidableEq, Repr

inductive Finish where
  | length
  | stop
  | toolCalls
  | error
  deriving DecidableEq, Repr

/-- Why the loop ended; a stop string is told apart from a stop token. -/
inductive Ending where
  | length
  | stop
  | stopString
  | toolCalls
  | error
  deriving DecidableEq, Repr

def Ending.finish : Ending → Finish
  | .length => .length
  | .stop => .stop
  | .stopString => .stop
  | .toolCalls => .toolCalls
  | .error => .error

def startState (request : Request) : DecodeState :=
  let thinking := ThinkingState.fromPrompt request.promptText request.thinkEnabled
  { text := [], completion := 0, stopScanFrom := 0, toolScanFrom := 0,
    thinkRecoveryScanFrom := 0, thinking := thinking,
    toolScanWaitingForThinkClose := request.thinkEnabled && thinking.inside,
    sawToolStart := false, sawToolEnd := false }

/-- The tool part of one iteration; the flag says that a complete call was recovered from
unclosed reasoning. -/
def scanTools (thinkEnabled : Bool) (state : DecodeState) : DecodeState × Bool :=
  if thinkEnabled && state.thinking.inside then
    let recovered := completeToolCallInsideThinking state.text state.thinkRecoveryScanFrom
    if recovered.2 then
      ({ state with
          thinkRecoveryScanFrom := recovered.1, sawToolStart := true, sawToolEnd := true }, true)
    else
      ({ state with
          thinkRecoveryScanFrom := recovered.1, toolScanWaitingForThinkClose := true
          toolScanFrom := state.text.length }, false)
  else
    let scanFrom :=
      if state.toolScanWaitingForThinkClose then
        match findLastSubstr state.text (bytes "</think>") with
        | some pos => pos + 8
        | none => state.text.length
      else state.toolScanFrom
    let scanFrom := min scanFrom state.text.length
    let seen := observeToolMarkers (state.text.drop scanFrom) state.sawToolStart state.sawToolEnd
    ({ state with
        toolScanWaitingForThinkClose := false
        toolScanFrom := max scanFrom (state.text.length - markerHold)
        sawToolStart := seen.1, sawToolEnd := seen.2 }, false)

/-- The body of the inner loop behind its stop-token test. -/
def feed (request : Request) (client : Client) (state : DecodeState) (piece : List UInt8) :
    DecodeState × Option Ending :=
  let text := state.text ++ piece
  let hit := request.stops.findFrom text state.stopScanFrom
  let state :=
    { state with
      text := text
      completion := state.completion + 1
      thinking := state.thinking.feed piece
      stopScanFrom :=
        if hit.isSome then state.stopScanFrom else request.stops.nextScan text state.stopScanFrom }
  if !client.written state.completion then (state, some .error)
  else
    let tools := request.chat && request.hasTools
    let scanned := if tools then scanTools request.thinkEnabled state else (state, false)
    if scanned.2 then (scanned.1, some .toolCalls)
    else
      match hit with
      | some found => ({ scanned.1 with text := text.take found.1 }, some .stopString)
      | none =>
        if tools && scanned.1.sawToolEnd then (scanned.1, some .toolCalls) else (scanned.1, none)

/-! ## The loop -/

/-- Everything the loop reads and does not change. -/
structure Job where
  vocab : Vocab
  request : Request
  client : Client
  /-- `max_tokens` once it is cut to the room in the context. -/
  limit : Nat

def Job.isStop (job : Job) (token : Nat) : Bool :=
  job.vocab.isStopForThinkMode job.request.thinkEnabled token

/-- The inner loop over the tokens one evaluation committed. -/
def handOut (job : Job) : List Nat → DecodeState → DecodeState × Option Ending
  | [], state => (state, none)
  | token :: tokens, state =>
    if state.completion ≥ job.limit then (state, none)
    else if job.client.cancelled state.completion then (state, some .length)
    else if job.isStop token then (state, some .stop)
    else
      match feed job.request job.client state (job.vocab.tokenText token) with
      | (state, some ending) => (state, some ending)
      | (state, none) => handOut job tokens state

/-- `ds4_engine_mtp_draft_tokens` on GLM. -/
def mtpDraftTokens (config : Config) : Nat := if config.glmMtp then 2 else 0

/-- The size of the buffer the loop gets its tokens in. -/
def tokenBuffer : Nat := 17

section Loop

variable {σ Λ : Type} (target : Recurrent Nat σ Λ) (config : Config) (argmax : Λ → Nat)

/-- One evaluation, by `ds4_session_eval_speculative` or by `server_eval_token`. -/
def evalTokens (specDisable : Bool) (session : Ds4Session σ Λ) (token budget : Nat)
    (answers : CycleAnswers σ Λ) : Ds4Session σ Λ × Except String (List Nat) :=
  if mtpDraftTokens config > 1 && !specDisable then
    evalSpeculativeArgmax target config argmax session token budget tokenBuffer answers
  else
    match evalInternal target config session token false answers.plain with
    | (session, .error message) => (session, .error message)
    | (session, .ok ()) => (session, .ok [token])

structure Decoded (σ Λ : Type) where
  session : Ds4Session σ Λ
  state : DecodeState
  ending : Ending

/-- The loop from its `call`-th iteration. -/
def decodeLoop (job : Job) (specDisable : Bool) (answers : Nat → CycleAnswers σ Λ) :
    (fuel call : Nat) → Ds4Session σ Λ → DecodeState → Decoded σ Λ
  | 0, _, session, state => ⟨session, state, .length⟩
  | fuel + 1, call, session, state =>
    if job.client.cancelled state.completion ∨ state.completion ≥ job.limit ∨
        session.checkpoint.length ≥ config.ctxSize then ⟨session, state, .length⟩
    else
      let token := argmax session.logits
      if job.isStop token then ⟨session, state, .stop⟩
      else
        match evalTokens target config argmax specDisable session token
            (job.limit - state.completion) (answers call) with
        | (session, .error _) => ⟨session, state, .error⟩
        | (session, .ok tokens) =>
          match handOut job tokens state with
          | (state, none) => decodeLoop job specDisable answers fuel (call + 1) session state
          | (state, some ending) =>
            -- a stop string gives the session up
            ⟨if ending = .stopString then invalidate session else session, state, ending⟩

/-- `max_tokens` cut to the room that is left. -/
def clampLimit (session : Ds4Session σ Λ) (maxTokens : Int) : Nat :=
  min maxTokens.toNat (config.ctxSize - session.checkpoint.length)

/-- The loop as `generate_job_inner` enters it. -/
def decode (vocab : Vocab) (request : Request) (client : Client) (specDisable : Bool)
    (answers : Nat → CycleAnswers σ Λ) (session : Ds4Session σ Λ) : Decoded σ Λ :=
  let limit := clampLimit config session request.maxTokens
  decodeLoop target config argmax ⟨vocab, request, client, limit⟩ specDisable answers limit 0
    session (startState request)

/-! ## The reply without a session -/

structure Reply where
  /-- The tokens whose text was appended. -/
  tokens : List Nat
  state : DecodeState
  ending : Ending

/-- What greedy decoding owes the client after `history`. -/
def greedyReply (job : Job) : (fuel : Nat) → List Nat → DecodeState → Reply
  | 0, _, state => ⟨[], state, .length⟩
  | fuel + 1, history, state =>
    if job.client.cancelled state.completion ∨ state.completion ≥ job.limit then
      ⟨[], state, .length⟩
    else
      let token := greedyNext target argmax history
      if job.isStop token then ⟨[], state, .stop⟩
      else if history.length ≥ config.graphCtxSize then ⟨[], state, .error⟩
      else
        match feed job.request job.client state (job.vocab.tokenText token) with
        | (state, some ending) => ⟨[token], state, ending⟩
        | (state, none) =>
          let rest := greedyReply job fuel (history ++ [token]) state
          ⟨token :: rest.tokens, rest.state, rest.ending⟩

/-! ## Where the calls fall -/

/-- Whether a call after `history` with the given draft pending commits two tokens. -/
def commitsPair (specDisable : Bool) (history : List Nat) (pending : Option Nat) : Bool :=
  mtpDraftTokens config > 1 && !specDisable && !pairRefused config history.length tokenBuffer &&
    pending = some (greedyNext target argmax (history ++ [greedyNext target argmax history]))

/-- Whether `count` tokens after `history` are a whole number of calls, the `call`-th of which
starts with `pending`; `drafts` are the drafter's answers. -/
def wholeCalls (specDisable : Bool) (drafts : Nat → Option Nat) :
    (count call : Nat) → List Nat → Option Nat → Bool
  | 0, _, _, _ => true
  | 1, _, history, pending => !commitsPair target config argmax specDisable history pending
  | count + 2, call, history, pending =>
    let first := greedyNext target argmax history
    if commitsPair target config argmax specDisable history pending then
      wholeCalls specDisable drafts count (call + 1)
        (history ++ [first, greedyNext target argmax (history ++ [first])]) (drafts call)
    else
      wholeCalls specDisable drafts (count + 1) (call + 1) (history ++ [first]) (drafts call)

end Loop

/-! ## One token -/

section Feed

variable (request : Request) (client : Client)

theorem scanTools_frame (thinkEnabled : Bool) (state : DecodeState) :
    (scanTools thinkEnabled state).1.text = state.text ∧
      (scanTools thinkEnabled state).1.completion = state.completion := by
  unfold scanTools
  split
  · simp only
    split
    · exact ⟨rfl, rfl⟩
    · exact ⟨rfl, rfl⟩
  · exact ⟨rfl, rfl⟩

/-- A token counts once, and its text is kept unless a stop string cuts it. -/
theorem feed_spec (state : DecodeState) (piece : List UInt8) :
    (feed request client state piece).1.completion = state.completion + 1 ∧
      ((feed request client state piece).2 ≠ some .stopString →
        (feed request client state piece).1.text = state.text ++ piece) := by
  unfold feed
  simp only
  generalize hstate : ({ state with
      text := state.text ++ piece
      completion := state.completion + 1
      thinking := state.thinking.feed piece
      stopScanFrom :=
        if (request.stops.findFrom (state.text ++ piece) state.stopScanFrom).isSome = true then
          state.stopScanFrom
        else request.stops.nextScan (state.text ++ piece) state.stopScanFrom } : DecodeState) =
    grown
  have hgrown : grown.text = state.text ++ piece ∧ grown.completion = state.completion + 1 := by
    rw [← hstate]
    exact ⟨rfl, rfl⟩
  generalize hscanned : (if (request.chat && request.hasTools) = true then
    scanTools request.thinkEnabled grown else (grown, false)) = scanned
  have hframe : scanned.1.text = grown.text ∧ scanned.1.completion = grown.completion := by
    rw [← hscanned]
    split
    · exact scanTools_frame request.thinkEnabled grown
    · exact ⟨rfl, rfl⟩
  split
  · exact ⟨hgrown.2, fun _ => hgrown.1⟩
  split
  · exact ⟨hframe.2.trans hgrown.2, fun _ => hframe.1.trans hgrown.1⟩
  split
  · exact ⟨hframe.2.trans hgrown.2, fun h => absurd rfl h⟩
  split
  · exact ⟨hframe.2.trans hgrown.2, fun _ => hframe.1.trans hgrown.1⟩
  · exact ⟨hframe.2.trans hgrown.2, fun _ => hframe.1.trans hgrown.1⟩

end Feed

section Loop

variable {σ Λ : Type} {target : Recurrent Nat σ Λ} {config : Config} {argmax : Λ → Nat}
variable {job : Job} {specDisable : Bool} {answers : Nat → CycleAnswers σ Λ}

/-! ## One evaluation -/

/-- What one evaluation commits after `history`. -/
def committed (target : Recurrent Nat σ Λ) (config : Config) (argmax : Λ → Nat)
    (specDisable : Bool) (history : List Nat) (pending : Option Nat) : List Nat :=
  let first := greedyNext target argmax history
  if commitsPair target config argmax specDisable history pending then
    [first, greedyNext target argmax (history ++ [first])]
  else [first]

/-- While speculation is on, the draft that waits is `pending`. -/
def Waits (config : Config) (argmax : Λ → Nat) (specDisable : Bool) (session : Ds4Session σ Λ)
    (pending : Option Nat) : Prop :=
  (mtpDraftTokens config > 1 && !specDisable) = true →
    pendingDraft session (argmax session.logits) = pending

theorem glmMtp_of_speculates (h : (mtpDraftTokens config > 1 && !specDisable) = true) :
    config.glmMtp = true := by
  by_contra hoff
  simp [mtpDraftTokens, hoff] at h

theorem evalTokens_greedy {session : Ds4Session σ Λ} {history : List Nat} {pending : Option Nat}
    (hsynced : Synced target session history)
    (hwaits : Waits config argmax specDisable session pending)
    (hroom : history.length < config.graphCtxSize) {budget : Nat} (hbudget : 0 < budget)
    {answer : CycleAnswers σ Λ} (hsmooth : Smooth answer) :
    ∃ after,
      evalTokens target config argmax specDisable session (argmax session.logits) budget answer =
        (after, .ok (committed target config argmax specDisable history pending)) ∧
      Synced target after
        (history ++ committed target config argmax specDisable history pending) ∧
      Waits config argmax specDisable after answer.draft := by
  have hfirst : argmax session.logits = greedyNext target argmax history := by
    rw [hsynced.logits]
    rfl
  cases hspec : (mtpDraftTokens config > 1 && !specDisable) with
  | true =>
    obtain ⟨after, accepted, hcycle, htokens, -, -, -, hcommitted, -, hnext⟩ :=
      specCycle_greedy argmax hsynced hroom (show 1 ≤ tokenBuffer by decide) hsmooth
    have haccepted : accepted = committed target config argmax specDisable history pending := by
      rw [htokens, hwaits hspec, hfirst]
      unfold cycleTokens committed commitsPair
      rw [hspec]
      simp
    subst haccepted
    refine ⟨after, ?_, hcommitted.synced hsynced.checkpoint, fun _ => hnext⟩
    unfold evalTokens evalSpeculativeArgmax
    rw [hspec, if_pos rfl, if_neg (by simp [tokenBuffer]; omega),
      if_pos (glmMtp_of_speculates hspec)]
    exact hcycle
  | false =>
    have hone : committed target config argmax specDisable history pending =
        [argmax session.logits] := by
      unfold committed commitsPair
      rw [hspec, hfirst]
      rfl
    obtain ⟨after, heval, hcommitted⟩ :=
      evalInternal_committed hsynced hroom (argmax session.logits)
    rw [hone]
    refine ⟨after, ?_, hcommitted.synced hsynced.checkpoint, fun h => by simp [hspec] at h⟩
    unfold evalTokens
    rw [hspec, if_neg Bool.false_ne_true, hsmooth.plain, heval]

theorem evalTokens_full (argmax : Λ → Nat) (specDisable : Bool) {session : Ds4Session σ Λ}
    {history : List Nat}
    (hsynced : Synced target session history) (hfull : config.graphCtxSize ≤ history.length)
    {budget : Nat} (hbudget : 0 < budget) {answer : CycleAnswers σ Λ} (hsmooth : Smooth answer) :
    ∃ after message,
      evalTokens target config argmax specDisable session (argmax session.logits) budget answer =
        (after, .error message) ∧ after.checkpoint = history := by
  have hsession : config.graphCtxSize ≤ session.checkpoint.length := by
    rw [hsynced.checkpoint]
    exact hfull
  unfold evalTokens
  split
  · next hspec =>
    obtain ⟨after, message, hcycle, hkept⟩ := specCycle_full target argmax session
      (argmax session.logits) tokenBuffer hsession hsmooth.scratch
    refine ⟨after, message, ?_, hkept.trans hsynced.checkpoint⟩
    unfold evalSpeculativeArgmax
    rw [if_neg (by simp [tokenBuffer]; omega), if_pos (glmMtp_of_speculates hspec)]
    exact hcycle
  · unfold evalInternal
    rw [if_pos hsession]
    exact ⟨session, _, rfl, hsynced.checkpoint⟩

/-! ## The calls and the count -/

theorem wholeCalls_single (drafts : Nat → Option Nat) {history : List Nat} {pending : Option Nat}
    (hpair : commitsPair target config argmax specDisable history pending = false)
    (count call : Nat) :
    wholeCalls target config argmax specDisable drafts (count + 1) call history pending =
      wholeCalls target config argmax specDisable drafts count (call + 1)
        (history ++ [greedyNext target argmax history]) (drafts call) := by
  cases count with
  | zero => simp [wholeCalls, hpair]
  | succ count => simp [wholeCalls, hpair]

theorem wholeCalls_pair (drafts : Nat → Option Nat) {history : List Nat} {pending : Option Nat}
    (hpair : commitsPair target config argmax specDisable history pending = true)
    (count call : Nat) :
    wholeCalls target config argmax specDisable drafts (count + 2) call history pending =
      wholeCalls target config argmax specDisable drafts count (call + 1)
        (history ++ [greedyNext target argmax history,
          greedyNext target argmax (history ++ [greedyNext target argmax history])])
        (drafts call) := by
  simp [wholeCalls, hpair]

/-- Without speculation every token is a call of its own. -/
theorem wholeCalls_plain (drafts : Nat → Option Nat) (count : Nat) :
    ∀ (call : Nat) (history : List Nat) (pending : Option Nat),
      wholeCalls target config argmax true drafts count call history pending = true := by
  have hpair : ∀ history pending, commitsPair target config argmax true history pending = false :=
    fun history pending => by simp [commitsPair]
  induction count with
  | zero =>
    intro call history pending
    rfl
  | succ count ih =>
    intro call history pending
    rw [wholeCalls_single drafts (hpair history pending)]
    exact ih ..

/-! ## The loop against the reply -/

/-- The loop gave the client the reply; the session holds it, and one token more if the reply
ends inside a call. -/
structure Served (out : Decoded σ Λ) (reply : Reply) (history : List Nat) (whole : Bool) :
    Prop where
  state : out.state = reply.state
  ending : out.ending = reply.ending
  given : reply.ending = .stopString → out.session.checkpoint = []
  level : reply.ending ≠ .stopString → whole = true →
    out.session.checkpoint = history ++ reply.tokens
  ahead : reply.ending ≠ .stopString → whole = false →
    ∃ token, out.session.checkpoint = history ++ reply.tokens ++ [token]

theorem Served.after {out : Decoded σ Λ} {reply : Reply} {history front : List Nat} {whole : Bool}
    (h : Served out reply (history ++ front) whole) :
    Served out ⟨front ++ reply.tokens, reply.state, reply.ending⟩ history whole where
  state := h.state
  ending := h.ending
  given := h.given
  level := by simpa using h.level
  ahead := by simpa using h.ahead

theorem decodeLoop_over {state : DecodeState}
    (h : job.client.cancelled state.completion = true ∨ state.completion ≥ job.limit)
    (fuel call : Nat) (session : Ds4Session σ Λ) :
    decodeLoop target config argmax job specDisable answers fuel call session state =
      ⟨session, state, .length⟩ := by
  cases fuel with
  | zero => rfl
  | succ fuel =>
    unfold decodeLoop
    rw [if_pos (h.imp_right Or.inl)]

theorem greedyReply_over {state : DecodeState}
    (h : job.client.cancelled state.completion = true ∨ state.completion ≥ job.limit)
    (fuel : Nat) (history : List Nat) :
    greedyReply target config argmax job fuel history state = ⟨[], state, .length⟩ := by
  cases fuel with
  | zero => rfl
  | succ fuel =>
    unfold greedyReply
    rw [if_pos h]

/-- The loop with `fuel` iterations left serves what is left of the reply, from any session that
holds the history and has the named draft waiting. -/
def ServesFrom (target : Recurrent Nat σ Λ) (config : Config) (argmax : Λ → Nat) (job : Job)
    (specDisable : Bool) (answers : Nat → CycleAnswers σ Λ) (fuel : Nat) : Prop :=
  ∀ (replyFuel call : Nat) (session : Ds4Session σ Λ) (history : List Nat) (state : DecodeState)
    (pending : Option Nat), Synced target session history →
    Waits config argmax specDisable session pending →
    job.limit - state.completion ≤ fuel → job.limit - state.completion ≤ replyFuel →
    (state.completion < job.limit →
      history.length + (job.limit - state.completion) ≤ config.ctxSize) →
    Served (decodeLoop target config argmax job specDisable answers fuel call session state)
      (greedyReply target config argmax job replyFuel history state) history
      (wholeCalls target config argmax specDisable (fun call => (answers call).draft)
        (greedyReply target config argmax job replyFuel history state).tokens.length call history
        pending)

/-- A reply that ends where the session is. -/
theorem served_here {session : Ds4Session σ Λ} {history : List Nat}
    (hcheckpoint : session.checkpoint = history) (state : DecodeState) {ending : Ending}
    (hending : ending ≠ .stopString) :
    Served ⟨session, state, ending⟩ ⟨[], state, ending⟩ history true where
  state := rfl
  ending := rfl
  given := fun h => absurd h hending
  level := fun _ _ => by simpa using hcheckpoint
  ahead := nofun

/-- A reply that ends at a token inside or at the end of what was just committed. -/
theorem served_token {after : Ds4Session σ Λ} {history : List Nat} {token : Nat}
    {rest : List Nat} (hcheckpoint : after.checkpoint = history ++ token :: rest)
    (hrest : rest.length ≤ 1) (state : DecodeState) (ending : Ending) :
    Served ⟨if ending = .stopString then invalidate after else after, state, ending⟩
      ⟨[token], state, ending⟩ history rest.isEmpty where
  state := rfl
  ending := rfl
  given := fun h => by
    simp only at h
    subst h
    rfl
  level := fun h hwhole => by
    simp only [if_neg h]
    rw [hcheckpoint, List.isEmpty_iff.mp hwhole]
  ahead := fun h hwhole => by
    simp only [if_neg h]
    match rest, hrest, hwhole with
    | [next], _, _ => exact ⟨next, by simp [hcheckpoint]⟩

/-- The rest of a reply behind the first token of a pair, when the second is not handed out. -/
theorem served_inside {after : Ds4Session σ Λ} {history : List Nat} {first second : Nat}
    (hcheckpoint : after.checkpoint = history ++ [first, second]) (state : DecodeState)
    {ending : Ending} (hending : ending ≠ .stopString) :
    Served ⟨after, state, ending⟩ ⟨[first], state, ending⟩ history false := by
  have h := served_token hcheckpoint (Nat.le_refl 1) state ending
  rw [if_neg hending] at h
  exact h

theorem handOut_cons {state : DecodeState} {token : Nat}
    (hopen : ¬ (job.client.cancelled state.completion = true ∨ state.completion ≥ job.limit))
    (hstop : job.isStop token = false) (tokens : List Nat) :
    handOut job (token :: tokens) state =
      match feed job.request job.client state (job.vocab.tokenText token) with
      | (state, some ending) => (state, some ending)
      | (state, none) => handOut job tokens state := by
  obtain ⟨hcancelled, hlimit⟩ := not_or.mp hopen
  show (if state.completion ≥ job.limit then _ else _) = _
  rw [if_neg hlimit, if_neg hcancelled, hstop, if_neg Bool.false_ne_true]

theorem greedyReply_cons {state : DecodeState} {history : List Nat}
    (hopen : ¬ (job.client.cancelled state.completion = true ∨ state.completion ≥ job.limit))
    (hstop : job.isStop (greedyNext target argmax history) = false)
    (hroom : history.length < config.graphCtxSize) (fuel : Nat) :
    greedyReply target config argmax job (fuel + 1) history state =
      match feed job.request job.client state
          (job.vocab.tokenText (greedyNext target argmax history)) with
      | (state, some ending) => ⟨[greedyNext target argmax history], state, ending⟩
      | (state, none) =>
        let rest := greedyReply target config argmax job fuel
          (history ++ [greedyNext target argmax history]) state
        ⟨greedyNext target argmax history :: rest.tokens, rest.state, rest.ending⟩ := by
  conv => lhs; unfold greedyReply
  rw [if_neg hopen]
  simp only [hstop, Bool.false_eq_true, if_false, if_neg (Nat.not_le.mpr hroom)]

/-- What the loop does once its evaluation committed `tokens`. -/
def settle (target : Recurrent Nat σ Λ) (config : Config) (argmax : Λ → Nat) (job : Job)
    (specDisable : Bool) (answers : Nat → CycleAnswers σ Λ) (fuel call : Nat)
    (after : Ds4Session σ Λ) : DecodeState × Option Ending → Decoded σ Λ
  | (state, none) => decodeLoop target config argmax job specDisable answers fuel call after state
  | (state, some ending) =>
    ⟨if ending = .stopString then invalidate after else after, state, ending⟩

/-- One token was committed and is handed out. -/
theorem serve_single {fuel : Nat}
    (ih : ServesFrom target config argmax job specDisable answers fuel)
    {after : Ds4Session σ Λ} {history : List Nat} {state : DecodeState} {pending : Option Nat}
    (hpair : commitsPair target config argmax specDisable history pending = false)
    (hopen : ¬ (job.client.cancelled state.completion = true ∨ state.completion ≥ job.limit))
    (hstop : job.isStop (greedyNext target argmax history) = false)
    (hroom : history.length < config.graphCtxSize)
    (hafter : Synced target after (history ++ [greedyNext target argmax history])) (call : Nat)
    (hwaits : Waits config argmax specDisable after (answers call).draft)
    {replyFuel : Nat} (hfuel : job.limit - state.completion ≤ fuel + 1)
    (hreply : job.limit - state.completion ≤ replyFuel + 1)
    (hctx : history.length + (job.limit - state.completion) ≤ config.ctxSize) :
    Served
      (settle target config argmax job specDisable answers fuel (call + 1) after
        (handOut job [greedyNext target argmax history] state))
      (greedyReply target config argmax job (replyFuel + 1) history state) history
      (wholeCalls target config argmax specDisable (fun call => (answers call).draft)
        (greedyReply target config argmax job (replyFuel + 1) history state).tokens.length call
        history pending) := by
  have hlimit := (not_or.mp hopen).2
  rw [handOut_cons hopen hstop, greedyReply_cons hopen hstop hroom]
  have hcount := (feed_spec job.request job.client state
    (job.vocab.tokenText (greedyNext target argmax history))).1
  cases hfeed : feed job.request job.client state
      (job.vocab.tokenText (greedyNext target argmax history)) with
  | mk fed ended =>
    rw [hfeed] at hcount
    simp only at hcount
    cases ended with
    | some ending =>
      have h := served_token hafter.checkpoint (Nat.zero_le 1) fed ending
      simpa [settle, wholeCalls, hpair] using h
    | none =>
      simp only [List.length_cons, wholeCalls_single _ hpair]
      refine Served.after (ih replyFuel (call + 1) after _ fed _ hafter hwaits ?_ ?_ ?_)
      · omega
      · omega
      · intro _
        rw [List.length_append, List.length_singleton]
        omega

/-- Two tokens were committed; the reply may end before, between or behind them. -/
theorem serve_pair {fuel : Nat}
    (ih : ServesFrom target config argmax job specDisable answers fuel)
    {after : Ds4Session σ Λ} {history : List Nat} {state : DecodeState} {pending : Option Nat}
    {first second : Nat} (hfirst : first = greedyNext target argmax history)
    (hsecond : second = greedyNext target argmax (history ++ [first]))
    (hpair : commitsPair target config argmax specDisable history pending = true)
    (hopen : ¬ (job.client.cancelled state.completion = true ∨ state.completion ≥ job.limit))
    (hstop : job.isStop first = false)
    (hroom : history.length + 2 ≤ config.graphCtxSize)
    (hafter : Synced target after (history ++ [first, second])) (call : Nat)
    (hwaits : Waits config argmax specDisable after (answers call).draft)
    {replyFuel : Nat} (hfuel : job.limit - state.completion ≤ fuel + 1)
    (hreply : job.limit - state.completion ≤ replyFuel + 1)
    (hctx : history.length + (job.limit - state.completion) ≤ config.ctxSize) :
    Served
      (settle target config argmax job specDisable answers fuel (call + 1) after
        (handOut job [first, second] state))
      (greedyReply target config argmax job (replyFuel + 1) history state) history
      (wholeCalls target config argmax specDisable (fun call => (answers call).draft)
        (greedyReply target config argmax job (replyFuel + 1) history state).tokens.length call
        history pending) := by
  have hlimit := (not_or.mp hopen).2
  have hone : wholeCalls target config argmax specDisable (fun call => (answers call).draft) 1 call
      history pending = false := by simp [wholeCalls, hpair]
  have hcount := (feed_spec job.request job.client state (job.vocab.tokenText first)).1
  rw [handOut_cons hopen hstop,
    greedyReply_cons hopen (hfirst ▸ hstop) (by omega), ← hfirst]
  cases hfeed : feed job.request job.client state (job.vocab.tokenText first) with
  | mk fed ended =>
    rw [hfeed] at hcount
    simp only at hcount
    cases ended with
    | some ending =>
      have h := served_token hafter.checkpoint (Nat.le_refl 1) fed ending
      simpa [settle, hone] using h
    | none =>
      -- the reply goes on behind `first`; is the second token handed out?
      simp only
      by_cases hover : job.client.cancelled fed.completion = true ∨ fed.completion ≥ job.limit
      · rw [greedyReply_over hover]
        have h := served_inside hafter.checkpoint fed (show Ending.length ≠ .stopString by decide)
        have hout : settle target config argmax job specDisable answers fuel (call + 1) after
            (handOut job [second] fed) = ⟨after, fed, .length⟩ := by
          unfold handOut
          by_cases hfull : fed.completion ≥ job.limit
          · rw [if_pos hfull]
            exact decodeLoop_over (Or.inr hfull) ..
          · rw [if_neg hfull, if_pos (hover.resolve_right hfull)]
            rfl
        rw [hout]
        simpa [hone] using h
      obtain ⟨rest, rfl⟩ : ∃ rest, replyFuel = rest + 1 := ⟨replyFuel - 1, by
        have := (not_or.mp hover).2
        omega⟩
      cases hsecondStop : job.isStop second with
      | true =>
        have h := served_inside hafter.checkpoint fed (show Ending.stop ≠ .stopString by decide)
        have hout : handOut job [second] fed = (fed, some .stop) := by
          obtain ⟨hcancelled, hfull⟩ := not_or.mp hover
          unfold handOut
          rw [if_neg hfull, if_neg hcancelled, hsecondStop, if_pos rfl]
        have hend : greedyReply target config argmax job (rest + 1) (history ++ [first]) fed =
            ⟨[], fed, .stop⟩ := by
          unfold greedyReply
          rw [if_neg hover]
          simp only [← hsecond, hsecondStop, if_true]
        rw [hout, hend]
        simpa [settle, hone] using h
      | false =>
        have hcountSecond :=
          (feed_spec job.request job.client fed (job.vocab.tokenText second)).1
        rw [handOut_cons hover hsecondStop, greedyReply_cons hover (hsecond ▸ hsecondStop)
          (by rw [List.length_append, List.length_singleton]; omega), ← hsecond]
        cases hfeedSecond : feed job.request job.client fed (job.vocab.tokenText second) with
        | mk last endedSecond =>
          rw [hfeedSecond] at hcountSecond
          simp only at hcountSecond
          have hfed := (not_or.mp hover).2
          cases endedSecond with
          | some ending =>
            have hcheckpoint : after.checkpoint = (history ++ [first]) ++ second :: [] := by
              rw [hafter.checkpoint, List.append_assoc]
              rfl
            have h := (served_token hcheckpoint (Nat.zero_le 1) last ending).after
            have htwo : wholeCalls target config argmax specDisable
                (fun call => (answers call).draft) 2 call history pending = true := by
              simp [wholeCalls, hpair]
            simpa [settle, htwo] using h
          | none =>
            simp only [List.length_cons, wholeCalls_pair _ hpair, ← hfirst, ← hsecond, List.append_assoc,
              List.singleton_append]
            refine Served.after (ih rest (call + 1) after _ last _ hafter hwaits ?_ ?_ ?_)
            · omega
            · omega
            · intro _
              simp only [List.length_append, List.length_cons, List.length_nil]
              omega

theorem decodeLoop_settle {session after : Ds4Session σ Λ} {state : DecodeState}
    (hopen : ¬ (job.client.cancelled state.completion = true ∨ state.completion ≥ job.limit))
    (hctx : session.checkpoint.length < config.ctxSize)
    (hstop : job.isStop (argmax session.logits) = false) {fuel call : Nat} {tokens : List Nat}
    (heval : evalTokens target config argmax specDisable session (argmax session.logits)
      (job.limit - state.completion) (answers call) = (after, .ok tokens)) :
    decodeLoop target config argmax job specDisable answers (fuel + 1) call session state =
      settle target config argmax job specDisable answers fuel (call + 1) after
        (handOut job tokens state) := by
  have hguard : ¬ (job.client.cancelled state.completion = true ∨ state.completion ≥ job.limit ∨
      session.checkpoint.length ≥ config.ctxSize) := by
    rintro (h | h | h)
    · exact hopen (Or.inl h)
    · exact hopen (Or.inr h)
    · omega
  conv => lhs; unfold decodeLoop
  rw [if_neg hguard]
  simp only [hstop, Bool.false_eq_true, if_false, heval]
  unfold settle
  rfl

theorem servesFrom (hsmooth : ∀ call, Smooth (answers call)) (fuel : Nat) :
    ServesFrom target config argmax job specDisable answers fuel := by
  induction fuel with
  | zero =>
    intro replyFuel call session history state pending hsynced _ hfuel _ _
    have hover : job.client.cancelled state.completion = true ∨ state.completion ≥ job.limit :=
      Or.inr (by omega)
    rw [decodeLoop_over hover, greedyReply_over hover]
    exact served_here hsynced.checkpoint state (by decide)
  | succ fuel ih =>
    intro replyFuel call session history state pending hsynced hwaits hfuel hreply hctx
    by_cases hover : job.client.cancelled state.completion = true ∨ state.completion ≥ job.limit
    · rw [decodeLoop_over hover, greedyReply_over hover]
      exact served_here hsynced.checkpoint state (by decide)
    have hlimit := (not_or.mp hover).2
    have hctx := hctx (by omega)
    obtain ⟨rest, rfl⟩ : ∃ rest, replyFuel = rest + 1 := ⟨replyFuel - 1, by omega⟩
    have hfirst : argmax session.logits = greedyNext target argmax history := by
      rw [hsynced.logits]
      rfl
    have hpos : session.checkpoint.length < config.ctxSize := by
      rw [hsynced.checkpoint]
      omega
    cases hstop : job.isStop (greedyNext target argmax history) with
    | true =>
      have hguard : ¬ (job.client.cancelled state.completion = true ∨
          state.completion ≥ job.limit ∨ session.checkpoint.length ≥ config.ctxSize) := by
        rw [← or_assoc]
        exact not_or.mpr ⟨hover, by omega⟩
      unfold decodeLoop greedyReply
      rw [if_neg hguard, if_neg hover]
      simp only [hfirst, hstop, if_true]
      exact served_here hsynced.checkpoint state (by decide)
    | false =>
      by_cases hfull : config.graphCtxSize ≤ history.length
      · -- the evaluation is refused, with and without speculation
        obtain ⟨after, message, heval, hkept⟩ := evalTokens_full argmax specDisable hsynced
          hfull (show 0 < job.limit - state.completion by omega) (hsmooth call)
        have hguard : ¬ (job.client.cancelled state.completion = true ∨
            state.completion ≥ job.limit ∨ session.checkpoint.length ≥ config.ctxSize) := by
          rw [← or_assoc]
          exact not_or.mpr ⟨hover, by omega⟩
        unfold decodeLoop greedyReply
        rw [if_neg hguard, if_neg hover]
        rw [hfirst] at heval
        simp only [hfirst, hstop, Bool.false_eq_true, if_false, heval, if_pos hfull]
        exact served_here hkept state (by decide)
      · have hroom : history.length < config.graphCtxSize := Nat.lt_of_not_le hfull
        obtain ⟨after, heval, hafter, hnext⟩ := evalTokens_greedy hsynced hwaits hroom
          (show 0 < job.limit - state.completion by omega) (hsmooth call)
        rw [decodeLoop_settle hover hpos (hfirst ▸ hstop) heval]
        cases hpair : commitsPair target config argmax specDisable history pending with
        | false =>
          simp only [committed, hpair, Bool.false_eq_true, if_false] at hafter ⊢
          exact serve_single ih hpair hover hstop hroom hafter call hnext hfuel hreply hctx
        | true =>
          simp only [committed, hpair, if_true] at hafter ⊢
          have hfits : history.length + 2 ≤ config.graphCtxSize := by
            simp only [commitsPair, pairRefused, Bool.and_eq_true, Bool.not_eq_true',
              Bool.or_eq_false_iff, decide_eq_false_iff_not] at hpair
            omega
          exact serve_pair ih rfl rfl hpair hover hstop hfits hafter call hnext hfuel hreply hctx

/-- The text of a reply that no stop string cuts is the text of its tokens. -/
theorem greedyReply_text (target : Recurrent Nat σ Λ) (config : Config) (argmax : Λ → Nat)
    (job : Job) (fuel : Nat) : ∀ (history : List Nat) (state : DecodeState),
      (greedyReply target config argmax job fuel history state).ending ≠ .stopString →
      (greedyReply target config argmax job fuel history state).state.text =
        state.text ++ (greedyReply target config argmax job fuel history state).tokens.flatMap
          job.vocab.tokenText := by
  induction fuel with
  | zero =>
    intro history state _
    exact (List.append_nil _).symm
  | succ fuel ih =>
    intro history state hending
    unfold greedyReply at hending ⊢
    simp only at hending ⊢
    split
    · exact (List.append_nil _).symm
    · next hopen =>
      rw [if_neg hopen] at hending
      split
      · exact (List.append_nil _).symm
      · next hstop =>
        rw [if_neg hstop] at hending
        split
        · exact (List.append_nil _).symm
        · next hroom =>
          rw [if_neg hroom] at hending
          have htext := (feed_spec job.request job.client state
            (job.vocab.tokenText (greedyNext target argmax history))).2
          cases hfeed : feed job.request job.client state
              (job.vocab.tokenText (greedyNext target argmax history)) with
          | mk fed ended =>
            rw [hfeed] at htext hending
            cases ended with
            | some ending =>
              have hkept : some ending ≠ some .stopString := fun h => hending (Option.some.inj h)
              simpa using htext hkept
            | none =>
              have hkept := htext nofun
              simp only at hkept
              simp only [ih _ fed hending, hkept, List.flatMap_cons, List.append_assoc]

/-! ## Speculation from outside -/

/-- What a server with speculation owes to look like one without it. -/
structure Invisible (on off : Decoded σ Λ) (prompt appended : List Nat) : Prop where
  text : on.state.text = off.state.text
  finish : on.ending.finish = off.ending.finish
  completion : on.state.completion = off.state.completion
  session : off.ending ≠ .stopString →
    on.session.checkpoint = off.session.checkpoint ∧ on.session.checkpoint = prompt ++ appended

/-- **Speculation is invisible unless the reply ends inside a two-token call.** The client gets
the same reply in any case; the session keeps a token the client never saw exactly if the reply
ends, other than by a stop string, between the two tokens of one call. -/
theorem decode_invisible_iff (target : Recurrent Nat σ Λ) (config : Config) (argmax : Λ → Nat)
    (vocab : Vocab) (request : Request) (client : Client) (answers : Nat → CycleAnswers σ Λ)
    (session : Ds4Session σ Λ) (prompt : List Nat) (hsynced : Synced target session prompt)
    (hsmooth : ∀ call, Smooth (answers call)) (limit : Nat)
    (hlimit : limit = clampLimit config session request.maxTokens) (on off : Decoded σ Λ)
    (hon : on = decode target config argmax vocab request client false answers session)
    (hoff : off = decode target config argmax vocab request client true answers session)
    (reply : Reply)
    (hreply : reply = greedyReply target config argmax ⟨vocab, request, client, limit⟩ limit prompt
      (startState request)) :
    (on.state = off.state ∧ on.ending = off.ending ∧
      (reply.ending ≠ .stopString → off.state.text = reply.tokens.flatMap vocab.tokenText ∧
        off.session.checkpoint = prompt ++ reply.tokens)) ∧
      (Invisible on off prompt reply.tokens ↔
        reply.ending = .stopString ∨
          wholeCalls target config argmax false (fun call => (answers call).draft)
            reply.tokens.length 0 prompt (pendingDraft session (argmax session.logits)) = true) := by
  have hstart : (startState request).completion = 0 := rfl
  have hserves : ∀ specDisable, Served
      (decode target config argmax vocab request client specDisable answers session) reply prompt
      (wholeCalls target config argmax specDisable (fun call => (answers call).draft)
        reply.tokens.length 0 prompt (pendingDraft session (argmax session.logits))) := by
    intro specDisable
    rw [hreply]
    unfold decode
    rw [← hlimit]
    refine servesFrom hsmooth limit limit 0 session prompt (startState request) _ hsynced
      (fun _ => rfl) ?_ ?_ ?_
    · simp only [hstart]
      omega
    · simp only [hstart]
      omega
    · simp only [hstart, hlimit, clampLimit, hsynced.checkpoint]
      omega
  have hofftokens : reply.ending ≠ .stopString → off.session.checkpoint = prompt ++ reply.tokens :=
    fun hkept => hoff ▸ (hserves true).level hkept (wholeCalls_plain ..)
  have hstate : on.state = off.state := by
    rw [hon, hoff, (hserves false).state, (hserves true).state]
  have hending : on.ending = off.ending := by
    rw [hon, hoff, (hserves false).ending, (hserves true).ending]
  have hoffending : off.ending = reply.ending := by
    rw [hoff, (hserves true).ending]
  refine ⟨⟨hstate, hending, fun hkept => ⟨?_, hofftokens hkept⟩⟩, fun hsame => ?_, fun hwhole => ?_⟩
  · rw [hreply] at hkept
    rw [hoff, (hserves true).state, hreply, greedyReply_text target config argmax _ limit prompt _ hkept]
    rfl
  · by_contra hfails
    obtain ⟨hkept, hinside⟩ := not_or.mp hfails
    -- the session is one token ahead of what `Invisible` says
    obtain ⟨token, hahead⟩ := (hserves false).ahead hkept (Bool.not_eq_true _ ▸ hinside)
    have hlevel := (hsame.session (hoffending ▸ hkept)).2
    rw [hon, hahead] at hlevel
    simp at hlevel
  · refine ⟨by rw [hstate], by rw [hending], by rw [hstate], fun hkept => ?_⟩
    have hkept : reply.ending ≠ .stopString := hoffending ▸ hkept
    have hontokens : on.session.checkpoint = prompt ++ reply.tokens :=
      hon ▸ (hserves false).level hkept (hwhole.resolve_left hkept)
    exact ⟨hontokens.trans (hofftokens hkept).symm, hontokens⟩

end Loop

/-- Every token is one letter. -/
def sampleVocab : Vocab where
  eosId := 99
  systemId := none
  userId := none
  assistantId := none
  observationId := none
  thinkStartId := none
  thinkEndId := none
  tokenText := fun token => [96 + token.toUInt8]

def sampleRequest (maxTokens : Int) : Request :=
  ⟨false, false, false, none, StopList.empty, maxTokens⟩

def patientClient : Client := ⟨fun _ => false, fun _ => true⟩

/-- A session right after its one-token prompt; the greedy reply counts 1, 2, 3, … -/
def syncedSession : Ds4Session (List Nat) (List Nat) :=
  (sync tokenTarget sampleConfig (newSession [] [] []) [5] smoothSync).1

/-- A drafter that is right every time. -/
def goodDrafts (call : Nat) : CycleAnswers (List Nat) (List Nat) := smoothCycle (2 * call + 3)

theorem goodDrafts_smooth (call : Nat) : Smooth (goodDrafts call) :=
  ⟨rfl, rfl, rfl, rfl, rfl, rfl, rfl, rfl⟩

theorem syncedSession_synced : Synced tokenTarget syncedSession [5] :=
  ⟨by decide, by decide, by decide, by decide⟩

/-- Three tokens are a plain call and a pair. -/
theorem decode_invisible_iff_three :
    Invisible
      (decode tokenTarget sampleConfig List.length sampleVocab (sampleRequest 3) patientClient false
        goodDrafts syncedSession)
      (decode tokenTarget sampleConfig List.length sampleVocab (sampleRequest 3) patientClient true
        goodDrafts syncedSession) [5] [1, 2, 3] := by
  have h := (decode_invisible_iff tokenTarget sampleConfig List.length sampleVocab (sampleRequest 3)
    patientClient goodDrafts syncedSession [5] syncedSession_synced goodDrafts_smooth 3 (by decide)
    _ _ rfl rfl _ rfl).2
  exact h.mpr (Or.inr (by decide))

/-- With a budget of two tokens the reply ends inside the pair: the client sees tokens 1 and 2,
and the session goes on to hold 3. -/
theorem budget_ends_inside_pair :
    Synced tokenTarget syncedSession [5] ∧ (∀ call, Smooth (goodDrafts call)) ∧
      (decode tokenTarget sampleConfig List.length sampleVocab (sampleRequest 2) patientClient false
        goodDrafts syncedSession).session.checkpoint = [5, 1, 2, 3] ∧
      (decode tokenTarget sampleConfig List.length sampleVocab (sampleRequest 2) patientClient true
        goodDrafts syncedSession).session.checkpoint = [5, 1, 2] ∧
      (decode tokenTarget sampleConfig List.length sampleVocab (sampleRequest 2) patientClient false
        goodDrafts syncedSession).state.text = bytes "ab" ∧
      (decode tokenTarget sampleConfig List.length sampleVocab (sampleRequest 2) patientClient true
        goodDrafts syncedSession).ending = .length ∧
      ¬ Invisible
        (decode tokenTarget sampleConfig List.length sampleVocab (sampleRequest 2) patientClient
          false goodDrafts syncedSession)
        (decode tokenTarget sampleConfig List.length sampleVocab (sampleRequest 2) patientClient
          true goodDrafts syncedSession) [5] [1, 2] := by
  refine ⟨syncedSession_synced, goodDrafts_smooth, by decide, by decide, by decide, by decide,
    fun h => ?_⟩
  have hsame := (h.session (by decide)).2
  revert hsame
  decide

end Spark.Server
