import Spark.Dspark.Commit

/-!
# Mirrored DSpark cycles

Under tensor parallelism the leader tells the worker the block it verifies, and then whether to keep it or how many
of its tokens to replay; `ds4_session_tp_spec_cycle` is the worker's half. The ranks exchange activations inside each
pass through the target, so both have to make the same passes.

* **`tpSpecCycle`** — the worker's half of a block.
* **`argmaxSends`**, **`stochasticSends`** — what the leader tells the worker in a cycle.
* **`Settled`** — what a block leaves behind, read off its commit frame; it holds on both ranks.
* **`rounds_mirrored`** — through any run of evals and cycles the worker stands where the leader stands.
-/

namespace Spark.Dspark

/-- `DS4_DSPARK_MAX_BLOCK_SIZE`. -/
def dsparkMaxBlockSize : Nat := 16

/-- What is answered to the worker in the course of a block. -/
structure WorkerAnswers (σ Λ : Type) where
  snapshot : Bool
  verify : Bool
  restore : Bool
  replay : Nat → Option Λ
  vocabSplit : Bool
  /-- `tensor_parallel_send_logits_half`. -/
  sendHalf : Bool
  /-- The forward pass of `ds4_session_eval_internal`. -/
  eval : Bool
  junk : σ

/-- What a worker's half comes to: its status, the tokens it replayed, and whether it sent its half of the logits. -/
structure WorkerCycle (σ Λ : Type) where
  rc : Int
  session : Session σ Λ
  replayed : List Int
  sentHalf : Bool

section Model

variable {σ Λ : Type} (target : Recurrent Int σ Λ) (answers : WorkerAnswers σ Λ)

/-- The worker's replay: how far it came, and whether it came through. -/
def workerReplay : Nat → List Int → Session σ Λ → Session σ Λ × Bool
  | _, [], session => (session, true)
  | i, token :: tokens, session =>
    if (answers.replay i).isNone then ({ session with frontier := answers.junk, checkpointValid := false }, false)
    else
      workerReplay (i + 1) tokens { session with
        frontier := target.step session.frontier token
        checkpoint := session.checkpoint ++ [token] }

/-- `ds4_session_tp_spec_cycle`, with the commit frame that arrives, if one does. -/
def tpSpecCycle (vocab : Nat) (session : Session σ Λ) (drafts : List Int) (commit : Option (Bool × Int)) :
    WorkerCycle σ Λ :=
  if drafts = [] ∨ drafts.length > dsparkMaxBlockSize then ⟨1, session, [], false⟩
  else if ¬ drafts.all (inVocab vocab) then ⟨1, session, [], false⟩
  else if (drafts.length : Int) > session.ctxSize - session.checkpoint.length then ⟨1, session, [], false⟩
  else if ¬ answers.snapshot then ⟨1, session, [], false⟩
  else
    let start := session.checkpoint.length
    let saved := session.frontier
    let verified := { session with
      checkpoint := session.checkpoint ++ drafts
      frontier := if answers.verify then target.run session.frontier drafts else answers.junk }
    match commit with
    | none => ⟨1, verified, [], false⟩
    | some (fullAccept, replayN) =>
      if fullAccept then
        if ¬ answers.verify then ⟨1, { verified with checkpointValid := false }, [], false⟩
        else ⟨0, { verified with checkpointValid := true }, [], false⟩
      else
        let rolled := { verified with checkpoint := verified.checkpoint.take start }
        if ¬ answers.restore then ⟨1, { rolled with frontier := answers.junk, checkpointValid := false }, [], false⟩
        else
          let replayN := if replayN > drafts.length then (drafts.length : Int) else replayN
          let tokens := drafts.take replayN.toNat
          match workerReplay target answers 0 tokens { rolled with frontier := saved } with
          | (session, false) => ⟨1, session, tokens, false⟩
          | (session, true) =>
            if replayN > 0 then
              let session := { session with checkpointValid := true }
              if answers.vocabSplit then
                if answers.sendHalf then ⟨0, session, tokens, true⟩ else ⟨1, session, tokens, false⟩
              else ⟨0, session, tokens, false⟩
            else ⟨0, session, tokens, false⟩

/-- What the leader tells the worker. -/
inductive Sent where
  | verify (drafts : List Int) (fullAccept : Bool) (replayN : Nat)
  | eval (token : Int)
  deriving DecidableEq, Repr

/-- A session behind one more token. -/
def evaluated (session : Session σ Λ) (token : Int) : Session σ Λ :=
  { session with
    frontier := target.step session.frontier token
    checkpoint := session.checkpoint ++ [token]
    checkpointValid := true }

/-- `ds4_session_eval` on the worker: the token, and its half of the logits. -/
def workerEval (session : Session σ Λ) (token : Int) : Session σ Λ × Bool :=
  if ¬ answers.eval then ({ session with frontier := answers.junk, checkpointValid := false }, false)
  else (evaluated target session token, !answers.vocabSplit || answers.sendHalf)

/-- The worker behind a command of the leader; one that fails stops it. -/
def obey (vocab : Nat) (session : Session σ Λ) : Sent → Option (Session σ Λ)
  | .verify drafts fullAccept replayN =>
    let cycle := tpSpecCycle target answers vocab session drafts (some (fullAccept, replayN))
    if cycle.rc ≠ 0 then none else some cycle.session
  | .eval token =>
    match workerEval target answers session token with
    | (session, true) => some session
    | (_, false) => none

def obeyAll (vocab : Nat) (session : Session σ Λ) (sent : List Sent) : Option (Session σ Λ) :=
  sent.foldlM (obey target answers vocab) session

end Model

section Leader

variable {σ Λ : Type} (answers : Answers σ Λ)

/-- The commit frame of `ds4_session_eval_dspark_speculative_argmax`. -/
def argmaxFrame (accepted : List Int) (eosToken acceptedCap : Int) (drafts : List Int) (started : Started σ Λ) :
    Bool × Nat :=
  let commitDrafts := if started.ok then 1 + agreed answers.rowTops 0 drafts.tail else 0
  if started.ok ∧ commitDrafts = drafts.length ∧ (answers.readRow (drafts.length - 1)).isSome then (true, 0)
  else if ¬ answers.restore then (false, 0)
  else if ¬ started.ok then (false, 0)
  else (false, replayBudget eosToken (acceptedCap - accepted.length) drafts commitDrafts)

/-- What `ds4_session_eval_dspark_speculative_argmax` sends where it does not fail. -/
def argmaxSends (target : Recurrent Int σ Λ) (vocab : Nat) (argmax : Λ → Int) (session : Session σ Λ)
    (accepted : List Int) (maxTokens eosToken acceptedCap : Int) : List Sent :=
  match argmaxBlock vocab argmax session accepted.length maxTokens eosToken acceptedCap with
  | (_, none) => []
  | (session, some drafts) =>
    match startVerify target answers session drafts with
    | none => []
    | some started =>
      if started.sent answers then
        let frame := argmaxFrame answers accepted eosToken acceptedCap drafts started
        [.verify drafts frame.1 frame.2]
      else []

/-- The commit frame of `ds4_session_eval_dspark_speculative_stochastic`. -/
def stochasticFrame (drafts : List Int) (started : Started σ Λ) : Bool × Nat :=
  let verdict := if started.ok then sampleRows answers 1 drafts.tail else ⟨false, 0, -1⟩
  if verdict.ok ∧ verdict.replacement < 0 ∧ verdict.acceptedDrafts = drafts.length ∧
      (answers.readRow (drafts.length - 1)).isSome then (true, 0)
  else if ¬ verdict.ok ∨ verdict.replacement < 0 then (false, 0)
  else if ¬ answers.restore then (false, 0)
  else (false, verdict.acceptedDrafts)

/-- What `ds4_session_eval_probe_tp` sends. -/
def evalSends (token : Int) : List Sent := if answers.tpLeader then [.eval token] else []

/-- The eval that puts the replacement behind a block. -/
def stochasticEval (drafts : List Int) (started : Started σ Λ) : List Sent :=
  let verdict := if started.ok then sampleRows answers 1 drafts.tail else ⟨false, 0, -1⟩
  if verdict.ok ∧ 0 ≤ verdict.replacement then evalSends answers verdict.replacement else []

/-- What `ds4_session_eval_dspark_speculative_stochastic` sends where it does not fail. -/
def stochasticSends (target : Recurrent Int σ Λ) (vocab : Nat) (session : Session σ Λ) (accepted : List Int)
    (maxTokens eosToken acceptedCap : Int) : List Sent :=
  match stochasticBlock vocab session accepted.length maxTokens eosToken acceptedCap with
  | (_, none) => []
  | (session, some drafts) =>
    if ¬ answers.probabilities 0 then []
    else if ¬ answers.pointAccept 0 then
      if answers.pointReplacement < 0 then [] else evalSends answers answers.pointReplacement
    else
      match startVerify target answers session drafts with
      | none => []
      | some started =>
        if started.sent answers then
          let frame := stochasticFrame answers drafts started
          .verify drafts frame.1 frame.2 :: stochasticEval answers drafts started
        else stochasticEval answers drafts started

end Leader

/-! ## Rounds -/

/-- What the leader is called for. -/
inductive Turn (Λ : Type) where
  | eval (token : Int)
  | argmax (argmax : Λ → Int) (accepted : List Int) (maxTokens eosToken acceptedCap : Int)
  | stochastic (accepted : List Int) (maxTokens eosToken acceptedCap : Int)

/-- A call on the leader's session, with the draft that was prepared for it and the answers on both ranks. -/
structure Round (σ Λ : Type) where
  turn : Turn Λ
  draft : List Int
  draftValid : Bool
  stochasticDraft : Bool
  leader : Answers σ Λ
  worker : WorkerAnswers σ Λ

section Rounds

variable {σ Λ : Type} (target : Recurrent Int σ Λ) (vocab : Nat)

/-- The session with the draft of a round. -/
def Round.prepared (round : Round σ Λ) (session : Session σ Λ) : Session σ Λ :=
  { session with draft := round.draft, draftValid := round.draftValid, stochasticDraft := round.stochasticDraft }

/-- The leader behind a round, and what it sent in its course; none where it failed. -/
def leaderRound (session : Session σ Λ) (round : Round σ Λ) : Option (Session σ Λ × List Sent) :=
  let before := round.prepared session
  match round.turn with
  | .eval token =>
    let out := evalProbeTp target round.leader before token
    if out.2 then some (out.1, evalSends round.leader token) else none
  | .argmax argmax accepted maxTokens eosToken acceptedCap =>
    let out := evalDsparkSpeculativeArgmax target round.leader vocab argmax before accepted maxTokens eosToken
      acceptedCap
    if out.returned < 0 then none
    else some (out.session,
      argmaxSends round.leader target vocab argmax before accepted maxTokens eosToken acceptedCap)
  | .stochastic accepted maxTokens eosToken acceptedCap =>
    let out := evalDsparkSpeculativeStochastic target round.leader vocab before accepted maxTokens eosToken
      acceptedCap
    if out.returned < 0 then none
    else some (out.session,
      stochasticSends round.leader target vocab before accepted maxTokens eosToken acceptedCap)

/-- The leader behind rounds none of which failed, with what it sent in each. -/
def leaderRun : Session σ Λ → List (Round σ Λ) → Option (Session σ Λ × List (WorkerAnswers σ Λ × List Sent))
  | session, [] => some (session, [])
  | session, round :: rounds =>
    match leaderRound target vocab session round with
    | none => none
    | some (session, sent) => (leaderRun session rounds).map fun out => (out.1, (round.worker, sent) :: out.2)

/-- The worker behind what was sent. -/
def workerRun (session : Session σ Λ) (log : List (WorkerAnswers σ Λ × List Sent)) : Option (Session σ Λ) :=
  log.foldlM (fun session entry => obeyAll target entry.1 vocab session entry.2) session

end Rounds

/-! ## Behind a block -/

section Settled

variable {σ Λ : Type} {target : Recurrent Int σ Λ} {before after session : Session σ Λ} {drafts tokens : List Int}
  {frame : Bool × Nat}

/-- The tokens of a block that its commit frame keeps. -/
def kept (drafts : List Int) (frame : Bool × Nat) : List Int := if frame.1 then drafts else drafts.take frame.2

/-- A session behind a block, as its commit frame has it. -/
structure Settled (target : Recurrent Int σ Λ) (before : Session σ Λ) (drafts : List Int) (frame : Bool × Nat)
    (after : Session σ Λ) : Prop where
  checkpoint : after.checkpoint = before.checkpoint ++ kept drafts frame
  frontier : after.frontier = target.run before.frontier (kept drafts frame)
  valid : after.checkpointValid = (before.checkpointValid || frame.1 || decide (0 < frame.2))
  ctxSize : after.ctxSize = before.ctxSize

/-- The two ranks at the same place. -/
structure Mirrors (leader worker : Session σ Λ) : Prop where
  checkpoint : worker.checkpoint = leader.checkpoint
  frontier : worker.frontier = leader.frontier
  valid : worker.checkpointValid = leader.checkpointValid
  ctxSize : worker.ctxSize = leader.ctxSize

/-- Sessions that start at the same place settle at the same place. -/
theorem Settled.mirrors {leader worker leader' worker' : Session σ Λ} (hmirrors : Mirrors leader worker)
    (hleader : Settled target leader drafts frame leader') (hworker : Settled target worker drafts frame worker') :
    Mirrors leader' worker' where
  checkpoint := by rw [hworker.checkpoint, hleader.checkpoint, hmirrors.checkpoint]
  frontier := by rw [hworker.frontier, hleader.frontier, hmirrors.frontier]
  valid := by rw [hworker.valid, hleader.valid, hmirrors.valid]
  ctxSize := by rw [hworker.ctxSize, hleader.ctxSize, hmirrors.ctxSize]

theorem Settled.of_mirrors {before' : Session σ Λ} (hsettled : Settled target before' drafts frame after)
    (hmirrors : Mirrors before before') : Settled target before drafts frame after where
  checkpoint := by rw [hsettled.checkpoint, hmirrors.checkpoint]
  frontier := by rw [hsettled.frontier, hmirrors.frontier]
  valid := by rw [hsettled.valid, hmirrors.valid]
  ctxSize := by rw [hsettled.ctxSize, hmirrors.ctxSize]

/-- Nothing of the block is kept. -/
theorem settled_none (hcheckpoint : after.checkpoint = before.checkpoint)
    (hfrontier : after.frontier = before.frontier) (hvalid : after.checkpointValid = before.checkpointValid)
    (hctx : after.ctxSize = before.ctxSize) : Settled target before drafts (false, 0) after where
  checkpoint := by rw [hcheckpoint]; exact (List.append_nil _).symm
  frontier := hfrontier
  valid := by rw [hvalid]; simp
  ctxSize := hctx

/-! ### The worker -/

/-- Nothing fails on the worker. -/
structure Answering (answers : WorkerAnswers σ Λ) : Prop where
  snapshot : answers.snapshot = true
  verify : answers.verify = true
  restore : answers.restore = true
  replay : ∀ i, (answers.replay i).isSome = true
  sendHalf : answers.sendHalf = true
  eval : answers.eval = true

/-- A block that the worker takes on. -/
structure Takes (vocab : Nat) (session : Session σ Λ) (drafts : List Int) : Prop where
  nonempty : drafts ≠ []
  short : drafts.length ≤ dsparkMaxBlockSize
  tokens : drafts.all (inVocab vocab) = true
  room : (drafts.length : Int) ≤ session.ctxSize - session.checkpoint.length

variable {answers : WorkerAnswers σ Λ}

theorem workerReplay_all (hreplay : ∀ i, (answers.replay i).isSome = true) (i : Nat) (tokens : List Int)
    (session : Session σ Λ) :
    workerReplay target answers i tokens session = ({ session with
      frontier := target.run session.frontier tokens
      checkpoint := session.checkpoint ++ tokens }, true) := by
  induction tokens generalizing i session with
  | nil =>
    rw [workerReplay, List.append_nil]
    rfl
  | cons token tokens ih =>
    have hsome : ¬ (answers.replay i).isNone = true := by
      rw [Option.isNone_iff_eq_none, ← Option.not_isSome_iff_eq_none, not_not]
      exact hreplay i
    rw [workerReplay, if_neg hsome, ih]
    dsimp only
    rw [List.append_assoc]
    rfl

/-- The worker settles a block as the frame has it. -/
theorem tpSpecCycle_settled (vocab : Nat) (hanswering : Answering answers) (htakes : Takes vocab session drafts)
    (hframe : frame.2 ≤ drafts.length) :
    (tpSpecCycle target answers vocab session drafts (some (frame.1, frame.2))).rc = 0 ∧
      Settled target session drafts frame
        (tpSpecCycle target answers vocab session drafts (some (frame.1, frame.2))).session := by
  obtain ⟨fullAccept, replayN⟩ := frame
  have hblock : ¬ (drafts = [] ∨ drafts.length > dsparkMaxBlockSize) := by
    rw [not_or, Nat.not_lt]
    exact ⟨htakes.nonempty, htakes.short⟩
  rw [tpSpecCycle, if_neg hblock, if_neg (not_not.mpr htakes.tokens), if_neg (Int.not_lt.mpr htakes.room),
    if_neg (not_not.mpr hanswering.snapshot)]
  dsimp only
  cases fullAccept with
  | true =>
    rw [if_pos rfl, if_neg (not_not.mpr hanswering.verify), if_pos hanswering.verify]
    exact ⟨rfl, rfl, rfl, by simp, rfl⟩
  | false =>
    have hcut : ¬ (replayN : Int) > drafts.length := by
      have hle : replayN ≤ drafts.length := hframe
      omega
    rw [if_neg Bool.false_ne_true, if_neg (not_not.mpr hanswering.restore), if_neg hcut, Int.toNat_natCast,
      workerReplay_all hanswering.replay]
    dsimp only
    rw [List.take_left]
    by_cases hpositive : 0 < replayN
    · rw [if_pos (show (replayN : Int) > 0 by omega), if_pos hanswering.sendHalf]
      have hsettled : Settled target session drafts (false, replayN) { session with
          frontier := target.run session.frontier (drafts.take replayN)
          checkpoint := session.checkpoint ++ drafts.take replayN
          checkpointValid := true } := ⟨rfl, rfl, by simp [hpositive], rfl⟩
      split
      · exact ⟨rfl, hsettled⟩
      · exact ⟨rfl, hsettled⟩
    · rw [if_neg (show ¬ (replayN : Int) > 0 by omega)]
      exact ⟨rfl, rfl, rfl, by simp [hpositive], rfl⟩

theorem obey_verify (vocab : Nat) (hanswering : Answering answers) (htakes : Takes vocab session drafts)
    (hframe : frame.2 ≤ drafts.length) :
    ∃ after, obey target answers vocab session (.verify drafts frame.1 frame.2) = some after ∧
      Settled target session drafts frame after := by
  obtain ⟨hrc, hsettled⟩ := @tpSpecCycle_settled σ Λ target session drafts frame answers vocab hanswering htakes
    hframe
  refine ⟨_, ?_, hsettled⟩
  rw [obey]
  exact if_neg (not_not.mpr hrc)

theorem obey_eval (vocab : Nat) (hanswering : Answering answers) (token : Int) :
    obey target answers vocab session (.eval token) = some (evaluated target session token) := by
  rw [obey, workerEval, if_neg (not_not.mpr hanswering.eval), hanswering.sendHalf, Bool.or_true]

end Settled

/-! ### The leader -/

section Leads

variable {σ Λ : Type} {target : Recurrent Int σ Λ} {answers : Answers σ Λ} {before session session' : Session σ Λ}
  {drafts tokens accepted : List Int} {started : Started σ Λ} {maxTokens acceptedCap eosToken : Int}

/-- The sessions differ in their drafts and rows at most. -/
theorem Mirrors.refl (session : Session σ Λ) : Mirrors session session := ⟨rfl, rfl, rfl, rfl⟩

/-- A block that the verifier was told of on both ranks. -/
structure Told (target : Recurrent Int σ Λ) (before : Session σ Λ) (drafts : List Int) (started : Started σ Λ) :
    Prop where
  mutated : started.mutated = true
  checkpoint : started.session.checkpoint = before.checkpoint ++ drafts
  frontier : started.ok = true → started.session.frontier = target.run before.frontier drafts
  valid : started.session.checkpointValid = before.checkpointValid
  ctxSize : started.session.ctxSize = before.ctxSize

theorem startVerify_told (hleader : answers.tpLeader = true)
    (hstart : startVerify target answers before drafts = some started) :
    started.sent answers = false ∧ started = ⟨before, false, false⟩ ∨
      started.sent answers = true ∧ Told target before drafts started := by
  unfold startVerify at hstart
  split at hstart
  case isFalse =>
    cases hstart
    exact .inl ⟨Bool.and_false _, rfl⟩
  case isTrue =>
    split at hstart
    case isTrue => cases hstart
    case isFalse =>
      unfold verifySuffixTops at hstart
      split at hstart
      case isFalse =>
        cases hstart
        refine .inr ⟨?_, rfl, rfl, fun hok => absurd hok Bool.false_ne_true, rfl, rfl⟩
        rw [Started.sent, hleader]
        rfl
      case isTrue =>
        cases hstart
        refine .inr ⟨?_, rfl, rfl, fun _ => ?_, rfl, rfl⟩
        · rw [Started.sent, hleader]
          rfl
        · show target.run before.frontier _ = _
          rw [List.drop_left, List.take_length]

theorem rollback_kept (hrollback : rollback answers before session = (session', true)) :
    answers.restore = true ∧ session'.checkpointValid = session.checkpointValid ∧
      session'.ctxSize = session.ctxSize := by
  unfold rollback frontierRestore at hrollback
  split at hrollback
  case h_1 hrestore =>
    split at hrestore
    case isTrue hdone =>
      cases hrestore
      cases hrollback
      exact ⟨hdone, rfl, rfl⟩
    case isFalse => cases hrestore
  case h_2 => cases hrollback

/-- A replay that comes through goes through all of its tokens, where no last one stands among them, and it has a row
behind them. -/
theorem replayFrom_all (last : Int → Bool) (i : Nat) (tokens : List Int) (replayed : Replayed σ Λ)
    (hlast : ∀ token ∈ tokens.dropLast, last token = false)
    (hok : (replayFrom target answers last i tokens replayed).ok = true) :
    ∃ row, replayFrom target answers last i tokens replayed =
        ⟨{ replayed.session with
            frontier := target.run replayed.session.frontier tokens
            checkpoint := replayed.session.checkpoint ++ tokens },
          replayed.tokens ++ tokens, row, true⟩ ∧
      row.isSome = (replayed.row.isSome || decide (tokens ≠ [])) := by
  induction tokens generalizing i replayed with
  | nil =>
    refine ⟨replayed.row, ?_, by simp⟩
    rw [replayFrom] at hok ⊢
    rw [List.append_nil, List.append_nil, ← hok]
    rfl
  | cons token tokens ih =>
    rw [replayFrom] at hok ⊢
    cases hrow : answers.replay i with
    | none =>
      rw [hrow] at hok
      cases hok
    | some row =>
      rw [hrow] at hok
      dsimp only at hok ⊢
      rcases eq_or_ne tokens [] with rfl | hne
      · refine ⟨some row, ?_, by simp⟩
        split
        · rfl
        · rfl
      · -- the token is not the last one of the replay, so it does not end it
        rw [List.dropLast_cons_of_ne_nil hne] at hlast
        have hgoes : ¬ last token = true := by
          rw [hlast token List.mem_cons_self]
          exact Bool.false_ne_true
        rw [if_neg hgoes] at hok ⊢
        obtain ⟨row', hreplayed, hsome⟩ := ih _ _ (fun t hmem => hlast t (List.mem_cons_of_mem _ hmem)) hok
        refine ⟨row', ?_, by rw [hsome]; simp⟩
        rw [hreplayed]
        dsimp only
        rw [List.append_assoc, List.append_assoc]
        rfl

/-- What the leader settles by a replay. -/
theorem settled_replay {n : Nat} {valid : Bool}
    (hrollback : rollback answers before session = (session', true))
    (hfront : session.checkpoint.take before.checkpoint.length = before.checkpoint)
    (hvalid : valid = (before.checkpointValid || decide (0 < n))) (hctx : session.ctxSize = before.ctxSize)
    (logits : Λ) :
    Settled target before drafts (false, n) { session' with
      frontier := target.run session'.frontier (drafts.take n)
      checkpoint := session'.checkpoint ++ drafts.take n
      checkpointValid := valid
      logits } := by
  obtain ⟨hcheckpoint, hfrontier⟩ := rollback_done hrollback
  obtain ⟨-, -, hctx'⟩ := rollback_kept hrollback
  refine ⟨?_, ?_, ?_, ?_⟩
  · show session'.checkpoint ++ drafts.take n = before.checkpoint ++ drafts.take n
    rw [hcheckpoint, hfront]
  · show target.run session'.frontier (drafts.take n) = target.run before.frontier (drafts.take n)
    rw [hfrontier]
  · show valid = (before.checkpointValid || false || decide (0 < n))
    rw [hvalid, Bool.or_false]
  · exact hctx'.trans hctx

end Leads

/-! ### Greedy cycles -/

/-- A replay budget stays in its block, and no token in front of its last one is eos. -/
theorem replayBudget_spec (eosToken room : Int) (drafts : List Int) (n : Nat) :
    replayBudget eosToken room drafts n ≤ drafts.length ∧
      eosToken ∉ (drafts.take (replayBudget eosToken room drafts n)).dropLast := by
  rw [replayBudget]
  generalize (if (if (n : Int) > room then room else (n : Int)) < 0 then 0
    else if (n : Int) > room then room else (n : Int)).toNat = m
  have hfront : upToEos eosToken (drafts.take m) <+: drafts := upToEos_isFront.trans (List.take_prefix m drafts)
  refine ⟨hfront.length_le, ?_⟩
  rw [← List.prefix_iff_eq_take.mp hfront]
  exact eos_notMem_upToEos

section Greedy

variable {σ Λ : Type} {target : Recurrent Int σ Λ} {answers : Answers σ Λ} {before session : Session σ Λ}
  {drafts accepted : List Int} {started : Started σ Λ} {maxTokens acceptedCap eosToken : Int} {vocab : Nat}

/-- What stands to be rolled back. -/
structure Unsettled (before session : Session σ Λ) : Prop where
  front : session.checkpoint.take before.checkpoint.length = before.checkpoint
  valid : session.checkpointValid = before.checkpointValid
  ctxSize : session.ctxSize = before.ctxSize

theorem Told.unsettled (htold : Told target before drafts started) : Unsettled before started.session where
  front := by rw [htold.checkpoint, List.take_left]
  valid := htold.valid
  ctxSize := htold.ctxSize

theorem failed_returned : ¬ 0 ≤ (Cycle.failed accepted session).returned :=
  Int.not_le.mpr (Int.negSucc_lt_zero 0)

/-- A rolled back block is settled by as many tokens as its budget. -/
theorem argmaxReplay_settled (htold : Told target before drafts started)
    (hunsettled : Unsettled before session) {n : Nat}
    (hreturned : 0 ≤ (argmaxReplay target answers before accepted eosToken acceptedCap drafts started n
      session).returned) :
    answers.restore = true ∧
      Settled target before drafts
        (false, if started.ok then replayBudget eosToken (acceptedCap - accepted.length) drafts n else 0)
        (argmaxReplay target answers before accepted eosToken acceptedCap drafts started n session).session := by
  unfold argmaxReplay at hreturned ⊢
  rw [if_pos htold.mutated] at hreturned ⊢
  rcases hrollback : rollback answers before session with ⟨session', _ | _⟩
  · rw [hrollback] at hreturned
    exact absurd hreturned failed_returned
  · obtain ⟨hcheckpoint, hfrontier⟩ := rollback_done hrollback
    obtain ⟨hrestore, hvalid, hctx⟩ := rollback_kept hrollback
    refine ⟨hrestore, ?_⟩
    rw [hrollback] at hreturned
    dsimp only at hreturned ⊢
    by_cases hok : started.ok = true
    · rw [if_neg (not_not.mpr hok)] at hreturned ⊢
      rw [if_pos hok]
      by_cases hcommit : started.sent answers = true ∧ ¬ answers.sendCommit = true
      · rw [if_pos hcommit] at hreturned
        exact absurd hreturned failed_returned
      · rw [if_neg hcommit] at hreturned ⊢
        obtain ⟨hbudget, heos⟩ := replayBudget_spec eosToken (acceptedCap - accepted.length) drafts n
        generalize replayBudget eosToken (acceptedCap - accepted.length) drafts n = budget at hreturned hbudget heos ⊢
        by_cases hreplayed : (replayFrom target answers (fun token => token = eosToken) 0 (drafts.take budget)
            ⟨session', [], none, true⟩).ok = true
        · have hlast : ∀ token ∈ (drafts.take budget).dropLast, decide (token = eosToken) = false := by
            intro token hmem
            rw [decide_eq_false_iff_not]
            rintro rfl
            exact heos hmem
          obtain ⟨row, hall, hsome⟩ := replayFrom_all _ _ _ _ hlast hreplayed
          rw [hall] at hreturned ⊢
          rw [if_neg (not_not.mpr rfl)] at hreturned ⊢
          dsimp only at hreturned hsome ⊢
          rw [Option.isSome_none, Bool.false_or] at hsome
          have hempty : drafts.take budget = [] ↔ budget = 0 := by
            rw [List.take_eq_nil_iff]
            refine or_iff_left_of_imp fun hnil => ?_
            rw [hnil, List.length_nil] at hbudget
            exact Nat.le_zero.mp hbudget
          cases row with
          | none =>
            -- nothing was replayed, so the session is as it was
            have hzero : budget = 0 := hempty.mp (not_not.mp (of_decide_eq_false hsome.symm))
            subst hzero
            rw [List.take_zero]
            exact settled_replay hrollback hunsettled.front
              (by rw [hvalid, hunsettled.valid]; simp) hunsettled.ctxSize session'.logits
          | some row =>
            have hpositive : 0 < budget := by
              rw [Nat.pos_iff_ne_zero, Ne, ← hempty]
              exact of_decide_eq_true hsome.symm
            dsimp only at hreturned ⊢
            cases hmerged : replayedRow answers (started.sent answers) row with
            | none =>
              rw [hmerged] at hreturned
              exact absurd hreturned failed_returned
            | some logits =>
              exact settled_replay hrollback hunsettled.front (by simp [hpositive]) hunsettled.ctxSize logits
        · rw [if_pos hreplayed] at hreturned
          exact absurd hreturned failed_returned
    · rw [if_pos hok] at hreturned ⊢
      rw [if_neg hok]
      have hidle : Settled target before drafts (false, 0) session' :=
        settled_none (hcheckpoint.trans hunsettled.front) hfrontier (hvalid.trans hunsettled.valid)
          (hctx.trans hunsettled.ctxSize)
      split at hreturned
      case isTrue => exact absurd hreturned failed_returned
      case isFalse hcommit =>
        rw [if_neg hcommit]
        exact hidle

theorem argmaxFrame_le : (argmaxFrame answers accepted eosToken acceptedCap drafts started).2 ≤ drafts.length := by
  unfold argmaxFrame
  dsimp only
  generalize (if started.ok = true then 1 + agreed answers.rowTops 0 drafts.tail else 0) = n
  split
  case isTrue => exact Nat.zero_le _
  case isFalse =>
    split
    case isTrue => exact Nat.zero_le _
    case isFalse =>
      split
      case isTrue => exact Nat.zero_le _
      case isFalse => exact (replayBudget_spec eosToken _ drafts n).1

/-- Without a verifier the cycle leaves the session alone. -/
theorem argmaxVerified_idle :
    argmaxVerified target answers before accepted eosToken acceptedCap drafts ⟨before, false, false⟩ =
      .done accepted before := by
  simp [argmaxVerified, argmaxReplay, Started.sent]

/-- The leader settles a block as the frame it sends has it. -/
theorem argmaxVerified_settled (htold : Told target before drafts started) (hsent : started.sent answers = true)
    (hreturned : 0 ≤ (argmaxVerified target answers before accepted eosToken acceptedCap drafts started).returned) :
    Settled target before drafts (argmaxFrame answers accepted eosToken acceptedCap drafts started)
      (argmaxVerified target answers before accepted eosToken acceptedCap drafts started).session := by
  unfold argmaxVerified at hreturned ⊢
  unfold argmaxFrame
  dsimp only at hreturned ⊢
  generalize hcommitDrafts : (if started.ok = true then 1 + agreed answers.rowTops 0 drafts.tail else 0) = n
    at hreturned ⊢
  have hreplay (hnot : ¬ (started.ok = true ∧ n = drafts.length ∧
        (answers.readRow (drafts.length - 1)).isSome = true))
      (hreturned : 0 ≤ (argmaxReplay target answers before accepted eosToken acceptedCap drafts started n
        started.session).returned) :
      Settled target before drafts
        (if started.ok = true ∧ n = drafts.length ∧ (answers.readRow (drafts.length - 1)).isSome = true then (true, 0)
        else if ¬ answers.restore = true then (false, 0)
        else if ¬ started.ok = true then (false, 0)
        else (false, replayBudget eosToken (acceptedCap - accepted.length) drafts n))
        (argmaxReplay target answers before accepted eosToken acceptedCap drafts started n
          started.session).session := by
    obtain ⟨hrestore, hsettled⟩ := argmaxReplay_settled htold htold.unsettled hreturned
    rw [if_neg hnot, if_neg (not_not.mpr hrestore)]
    by_cases hok : started.ok = true
    · rw [if_pos hok] at hsettled
      rwa [if_neg (not_not.mpr hok)]
    · rw [if_neg hok] at hsettled
      rwa [if_pos hok]
  have hmirrored (hcut : started.ok = true ∧ ¬ started.sent answers = true ∧ n > 0 ∧ n < drafts.length ∧
      n ≤ specPrefixSlots) : False := hcut.2.1 hsent
  by_cases hwhole : started.ok = true ∧ n = drafts.length
  · rw [if_pos hwhole] at hreturned ⊢
    cases hrow : answers.readRow (drafts.length - 1) with
    | none =>
      have hnot : ¬ (started.ok = true ∧ n = drafts.length ∧
          (answers.readRow (drafts.length - 1)).isSome = true) := by
        rw [hrow]
        exact fun h => Bool.false_ne_true h.2.2
      rw [hrow] at hreturned
      dsimp only at hreturned ⊢
      rw [if_neg hmirrored] at hreturned ⊢
      have hsettled := hreplay hnot hreturned
      rwa [hrow] at hsettled
    | some logits =>
      rw [hrow] at hreturned
      dsimp only at hreturned ⊢
      rw [if_pos ⟨hwhole.1, hwhole.2, rfl⟩]
      split at hreturned
      case isTrue => exact absurd hreturned failed_returned
      case isFalse hcommit =>
        rw [if_neg hcommit]
        exact ⟨htold.checkpoint, htold.frontier hwhole.1, by simp [Cycle.done], htold.ctxSize⟩
  · rw [if_neg hwhole] at hreturned ⊢
    dsimp only at hreturned ⊢
    rw [if_neg hmirrored] at hreturned ⊢
    exact hreplay (fun h => hwhole ⟨h.1, h.2.1⟩) hreturned

theorem draftCount_room (session : Session σ Λ) (nAccept maxTokens acceptedCap : Int) :
    draftCount session nAccept maxTokens acceptedCap < session.ctxSize - session.checkpoint.length := by
  rw [draftCount]
  split
  · omega
  · omega

/-- The part of a draft that a call may use is taken on by the worker. -/
theorem takes_take (hshort : session.draft.length ≤ dsparkMaxBlockSize) (hdraft : session.draft ≠ [])
    {draftN : Int} (hpositive : ¬ draftN ≤ 0) (hroom : draftN < session.ctxSize - session.checkpoint.length)
    (htokens : (session.draft.take draftN.toNat).all (inVocab vocab) = true) :
    Takes vocab session (session.draft.take draftN.toNat) where
  nonempty := by
    rw [Ne, List.take_eq_nil_iff, not_or]
    exact ⟨by omega, hdraft⟩
  short := by
    rw [List.length_take]
    exact Nat.le_trans (Nat.min_le_right _ _) hshort
  tokens := htokens
  room := by
    have hlength := List.length_take_le draftN.toNat session.draft
    omega

theorem Takes.front {newly : List Int} (htakes : Takes vocab session drafts) (hbegins : newly <+: drafts)
    (hne : newly ≠ []) : Takes vocab session newly where
  nonempty := hne
  short := Nat.le_trans hbegins.length_le htakes.short
  tokens := by
    have htokens := htakes.tokens
    rw [List.all_eq_true] at htokens ⊢
    exact fun token hmem => htokens token (hbegins.subset hmem)
  room := by
    have hlength := hbegins.length_le
    have hroom := htakes.room
    omega

theorem Takes.of_mirrors {worker : Session σ Λ} (hmirrors : Mirrors session worker)
    (htakes : Takes vocab session drafts) : Takes vocab worker drafts where
  nonempty := htakes.nonempty
  short := htakes.short
  tokens := htakes.tokens
  room := by
    rw [hmirrors.ctxSize, hmirrors.checkpoint]
    exact htakes.room

theorem argmaxBlock_takes {argmax : Λ → Int} (nAccept : Int)
    (hshort : session.draft.length ≤ dsparkMaxBlockSize) :
    Mirrors session (argmaxBlock vocab argmax session nAccept maxTokens eosToken acceptedCap).1 ∧
      ∀ drafts, (argmaxBlock vocab argmax session nAccept maxTokens eosToken acceptedCap).2 = some drafts →
        Takes vocab session drafts := by
  unfold argmaxBlock
  split
  case isTrue => exact ⟨.refl session, fun drafts hnone => by cases hnone⟩
  case isFalse hdraft =>
    rw [not_or] at hdraft
    have hdropped : Mirrors session session.dropDraft := ⟨rfl, rfl, rfl, rfl⟩
    have hroom := draftCount_room session nAccept maxTokens acceptedCap
    dsimp only
    generalize draftCount session nAccept maxTokens acceptedCap = draftN at hroom ⊢
    split
    case isTrue => exact ⟨hdropped, fun drafts hnone => by cases hnone⟩
    case isFalse hpositive =>
      split
      case isTrue => exact ⟨hdropped, fun drafts hnone => by cases hnone⟩
      case isFalse htokens =>
        have htakes := takes_take hshort hdraft.2 hpositive hroom (not_not.mp htokens)
        split
        case isTrue => exact ⟨hdropped, fun drafts hnone => by cases hnone⟩
        case isFalse =>
          split
          case isTrue =>
            refine ⟨hdropped, fun drafts hsome => ?_⟩
            cases hsome
            refine htakes.front (List.take_prefix 1 _) fun hnil => ?_
            rw [List.take_eq_nil_iff] at hnil
            exact htakes.nonempty (hnil.resolve_left Nat.one_ne_zero)
          case isFalse =>
            refine ⟨hdropped, fun drafts hsome => ?_⟩
            cases hsome
            exact htakes

/-- What the leader sends in a greedy cycle, and what it leaves. -/
theorem argmax_sends {argmax : Λ → Int} (hleader : answers.tpLeader = true)
    (hshort : session.draft.length ≤ dsparkMaxBlockSize)
    (hreturned : 0 ≤ (evalDsparkSpeculativeArgmax target answers vocab argmax session accepted maxTokens eosToken
      acceptedCap).returned) :
    (argmaxSends answers target vocab argmax session accepted maxTokens eosToken acceptedCap = [] ∧
      Mirrors session (evalDsparkSpeculativeArgmax target answers vocab argmax session accepted maxTokens eosToken
        acceptedCap).session) ∨
    ∃ drafts frame,
      argmaxSends answers target vocab argmax session accepted maxTokens eosToken acceptedCap =
        [.verify drafts frame.1 frame.2] ∧
      Takes vocab session drafts ∧ frame.2 ≤ drafts.length ∧
      Settled target session drafts frame (evalDsparkSpeculativeArgmax target answers vocab argmax session accepted
        maxTokens eosToken acceptedCap).session := by
  obtain ⟨hsame, htakes⟩ := @argmaxBlock_takes σ Λ session maxTokens acceptedCap eosToken vocab argmax
    accepted.length hshort
  unfold evalDsparkSpeculativeArgmax at hreturned ⊢
  unfold argmaxSends
  generalize argmaxBlock vocab argmax session accepted.length maxTokens eosToken acceptedCap = taken
    at hsame htakes hreturned ⊢
  obtain ⟨before, _ | drafts⟩ := taken
  · exact .inl ⟨rfl, hsame⟩
  · dsimp only at hsame hreturned ⊢
    cases hstart : startVerify target answers before drafts with
    | none =>
      rw [hstart] at hreturned
      exact absurd hreturned failed_returned
    | some started =>
      rw [hstart] at hreturned
      dsimp only at hreturned ⊢
      rcases startVerify_told hleader hstart with ⟨hsent, rfl⟩ | ⟨hsent, htold⟩
      · rw [hsent, if_neg Bool.false_ne_true]
        rw [argmaxVerified_idle]
        exact .inl ⟨rfl, hsame⟩
      · rw [if_pos hsent]
        exact .inr ⟨drafts, _, rfl, htakes drafts rfl, argmaxFrame_le,
          (argmaxVerified_settled htold hsent hreturned).of_mirrors hsame⟩

end Greedy

/-! ### Stochastic cycles -/

section Sampled

variable {σ Λ : Type} {target : Recurrent Int σ Λ} {answers : Answers σ Λ} {before session session' : Session σ Λ}
  {drafts accepted : List Int} {started : Started σ Λ} {maxTokens acceptedCap eosToken : Int} {vocab : Nat}

/-- A token on the leader leads where it leads on the worker. -/
theorem evalProbeTp_evaluated {token : Int} (heval : evalProbeTp target answers session token = (session', true)) :
    Mirrors (evaluated target session token) session' := by
  unfold evalProbeTp at heval
  split at heval
  case isTrue => cases heval
  case isFalse =>
    cases hlogits : answers.eval with
    | none =>
      rw [hlogits] at heval
      cases heval
    | some logits =>
      rw [hlogits] at heval
      dsimp only at heval
      cases hsettle : answers.settle logits with
      | none =>
        rw [hsettle] at heval
        cases heval
      | some settled =>
        rw [hsettle] at heval
        cases heval
        exact ⟨rfl, rfl, rfl, rfl⟩

theorem evaluated_mirrors {leader worker : Session σ Λ} (hmirrors : Mirrors leader worker) (token : Int) :
    Mirrors (evaluated target leader token) (evaluated target worker token) where
  checkpoint := by rw [evaluated, evaluated, hmirrors.checkpoint]
  frontier := by rw [evaluated, evaluated, hmirrors.frontier]
  valid := rfl
  ctxSize := hmirrors.ctxSize

/-- A replacement behind a session. -/
theorem stochasticReplace_evaluated {verdict : Verdict}
    (hreturned : 0 ≤ (stochasticReplace target answers accepted acceptedCap drafts verdict session).returned) :
    Mirrors (evaluated target session verdict.replacement)
      (stochasticReplace target answers accepted acceptedCap drafts verdict session).session := by
  unfold stochasticReplace at hreturned ⊢
  rcases heval : evalProbeTp target answers session verdict.replacement with ⟨session', _ | _⟩
  · rw [heval] at hreturned
    exact absurd hreturned failed_returned
  · exact evalProbeTp_evaluated heval

/-- Where nothing of a block is accepted the leader rolls it back. -/
theorem stochasticGiveUp_settled (htold : Told target before drafts started)
    (hreturned : 0 ≤ (stochasticGiveUp answers before accepted started).returned) :
    Settled target before drafts (false, 0) (stochasticGiveUp answers before accepted started).session := by
  have hunsettled := htold.unsettled
  unfold stochasticGiveUp at hreturned ⊢
  rw [if_pos htold.mutated] at hreturned ⊢
  rcases hrollback : rollback answers before started.session with ⟨session', _ | _⟩
  · rw [hrollback] at hreturned
    exact absurd hreturned failed_returned
  · rw [hrollback] at hreturned
    dsimp only at hreturned ⊢
    obtain ⟨hcheckpoint, hfrontier⟩ := rollback_done hrollback
    obtain ⟨-, hvalid, hctx⟩ := rollback_kept hrollback
    split at hreturned
    case isTrue => exact absurd hreturned failed_returned
    case isFalse hcommit =>
      rw [if_neg hcommit]
      exact settled_none (hcheckpoint.trans hunsettled.front) hfrontier (hvalid.trans hunsettled.valid)
        (hctx.trans hunsettled.ctxSize)

/-- A rolled back block is settled by its accepted tokens, and the replacement stands behind them. -/
theorem stochasticReplay_settled (htold : Told target before drafts started) {verdict : Verdict}
    (hpositive : 0 < verdict.acceptedDrafts)
    (hreturned : 0 ≤ (stochasticReplay target answers before accepted acceptedCap drafts started verdict
      started.session).returned) :
    answers.restore = true ∧ ∃ middle, Settled target before drafts (false, verdict.acceptedDrafts) middle ∧
      Mirrors (evaluated target middle verdict.replacement)
        (stochasticReplay target answers before accepted acceptedCap drafts started verdict
          started.session).session := by
  have hunsettled := htold.unsettled
  unfold stochasticReplay at hreturned ⊢
  rcases hrollback : rollback answers before started.session with ⟨session', _ | _⟩
  · rw [hrollback] at hreturned
    exact absurd hreturned failed_returned
  · refine ⟨(rollback_kept hrollback).1, ?_⟩
    rw [hrollback] at hreturned
    dsimp only at hreturned ⊢
    split at hreturned
    case isTrue => exact absurd hreturned failed_returned
    case isFalse hcommit =>
      rw [if_neg hcommit]
      by_cases hreplayed : (replayFrom target answers (fun _ => false) 0 (drafts.take verdict.acceptedDrafts)
          ⟨session', [], none, true⟩).ok = true
      · obtain ⟨row, hall, -⟩ := replayFrom_all _ _ _ _ (fun _ _ => rfl) hreplayed
        rw [hall] at hreturned ⊢
        rw [if_neg (not_not.mpr rfl)] at hreturned ⊢
        dsimp only at hreturned ⊢
        have hmiddle := @settled_replay σ Λ target answers before started.session session' drafts
          verdict.acceptedDrafts true hrollback hunsettled.front (by simp [hpositive]) hunsettled.ctxSize
          session'.logits
        cases hrow : row.map (replayedRow answers (started.sent answers)) with
        | none =>
          rw [hrow] at hreturned
          exact ⟨_, hmiddle, stochasticReplace_evaluated hreturned⟩
        | some merged =>
          cases merged with
          | none =>
            rw [hrow] at hreturned
            exact absurd hreturned failed_returned
          | some logits =>
            rw [hrow] at hreturned
            exact ⟨_, hmiddle, stochasticReplace_evaluated hreturned⟩
      · rw [if_pos hreplayed] at hreturned
        exact absurd hreturned failed_returned

/-- What the sampler makes of a block that the verifier ran through, or did not. -/
theorem verdict_accepts (hok : (if started.ok = true then sampleRows answers 1 drafts.tail
      else ⟨false, 0, -1⟩ : Verdict).ok = true) (hne : drafts ≠ []) :
    started.ok = true ∧
      0 < (if started.ok = true then sampleRows answers 1 drafts.tail else ⟨false, 0, -1⟩ : Verdict).acceptedDrafts ∧
      (if started.ok = true then sampleRows answers 1 drafts.tail
        else ⟨false, 0, -1⟩ : Verdict).acceptedDrafts ≤ drafts.length := by
  by_cases hstarted : started.ok = true
  · rw [if_pos hstarted] at hok ⊢
    obtain ⟨hle, hcase⟩ := sampleRows_spec answers 1 hok
    have hlength := List.length_pos_iff.mpr hne
    rw [List.length_tail] at hcase
    exact ⟨hstarted, by omega, by omega⟩
  · rw [if_neg hstarted] at hok
    cases hok

/-- The leader settles a block as the frame it sends has it, and the eval behind it leads on from there. -/
theorem stochasticVerified_settled (hleader : answers.tpLeader = true) (hne : drafts ≠ [])
    (htold : Told target before drafts started) (hsent : started.sent answers = true)
    (hreturned : 0 ≤ (stochasticVerified target answers before accepted eosToken acceptedCap drafts
      started).returned) :
    (stochasticFrame answers drafts started).2 ≤ drafts.length ∧
    (stochasticEval answers drafts started = [] ∧
        Settled target before drafts (stochasticFrame answers drafts started)
          (stochasticVerified target answers before accepted eosToken acceptedCap drafts started).session ∨
      ∃ middle replacement, stochasticEval answers drafts started = [.eval replacement] ∧
        Settled target before drafts (stochasticFrame answers drafts started) middle ∧
        Mirrors (evaluated target middle replacement)
          (stochasticVerified target answers before accepted eosToken acceptedCap drafts started).session) := by
  have haccepts := @verdict_accepts σ Λ answers drafts started
  unfold stochasticVerified at hreturned ⊢
  unfold stochasticFrame stochasticEval
  dsimp only at hreturned ⊢
  generalize (if started.ok = true then sampleRows answers 1 drafts.tail else ⟨false, 0, -1⟩ : Verdict) = verdict
    at haccepts hreturned ⊢
  by_cases hwhole : verdict.ok = true ∧ verdict.replacement < 0 ∧ verdict.acceptedDrafts = drafts.length
  · -- the whole block is accepted, and there is no replacement to evaluate
    have hnone : ¬ (verdict.ok = true ∧ 0 ≤ verdict.replacement) := fun h => by
      have hnegative := hwhole.2.1
      omega
    rw [if_pos hwhole] at hreturned ⊢
    rw [if_neg hnone]
    cases hrow : answers.readRow (drafts.length - 1) with
    | none =>
      rw [hrow] at hreturned
      rw [if_neg (fun h => Bool.false_ne_true h.2.2.2), if_pos (.inr hwhole.2.1)]
      exact ⟨Nat.zero_le _, .inl ⟨rfl, stochasticGiveUp_settled htold hreturned⟩⟩
    | some logits =>
      rw [hrow] at hreturned
      dsimp only at hreturned ⊢
      rw [if_pos ⟨hwhole.1, hwhole.2.1, hwhole.2.2, rfl⟩]
      split at hreturned
      case isTrue => exact absurd hreturned failed_returned
      case isFalse hcommit =>
        rw [if_neg hcommit]
        have hfrontier := htold.frontier (haccepts hwhole.1 hne).1
        exact ⟨Nat.zero_le _, .inl ⟨rfl, htold.checkpoint, hfrontier, by simp [Cycle.done], htold.ctxSize⟩⟩
  · rw [if_neg hwhole] at hreturned ⊢
    have hpart : ¬ (verdict.ok = true ∧ verdict.replacement < 0 ∧ verdict.acceptedDrafts = drafts.length ∧
        (answers.readRow (drafts.length - 1)).isSome = true) := fun h => hwhole ⟨h.1, h.2.1, h.2.2.1⟩
    rw [if_neg hpart]
    by_cases hgives : ¬ verdict.ok = true ∨ verdict.replacement < 0
    · have hnone : ¬ (verdict.ok = true ∧ 0 ≤ verdict.replacement) := by
        rintro ⟨hok, hreplacement⟩
        rcases hgives with hnot | hnegative
        · exact hnot hok
        · omega
      rw [if_pos hgives] at hreturned ⊢
      rw [if_neg hnone, if_pos hgives]
      exact ⟨Nat.zero_le _, .inl ⟨rfl, stochasticGiveUp_settled htold hreturned⟩⟩
    · rw [not_or, not_not, Int.not_lt] at hgives
      obtain ⟨-, hpositive, hle⟩ := haccepts hgives.1 hne
      have hmirrored : ¬ (¬ started.sent answers = true ∧ verdict.acceptedDrafts > 0 ∧
          verdict.acceptedDrafts ≤ specPrefixSlots) := fun h => h.1 hsent
      have hkeeps : ¬ (¬ verdict.ok = true ∨ verdict.replacement < 0) := by
        rw [not_or, not_not, Int.not_lt]
        exact hgives
      rw [if_neg hkeeps, if_neg hmirrored] at hreturned ⊢
      obtain ⟨hrestore, middle, hsettled, hmirrors⟩ := stochasticReplay_settled htold hpositive hreturned
      rw [if_pos hgives, if_neg hkeeps, if_neg (not_not.mpr hrestore), evalSends, if_pos hleader]
      exact ⟨hle, .inr ⟨middle, verdict.replacement, rfl, hsettled, hmirrors⟩⟩

/-- Without a verifier the cycle leaves the session alone, and sends no eval. -/
theorem stochasticVerified_idle :
    stochasticVerified target answers before accepted eosToken acceptedCap drafts ⟨before, false, false⟩ =
        .done accepted before ∧
      stochasticEval answers drafts (⟨before, false, false⟩ : Started σ Λ) = [] := by
  simp [stochasticVerified, stochasticGiveUp, stochasticEval, Started.sent]

theorem stochasticBlock_takes (nAccept : Int) (hshort : session.draft.length ≤ dsparkMaxBlockSize) :
    Mirrors session (stochasticBlock vocab session nAccept maxTokens eosToken acceptedCap).1 ∧
      ∀ drafts, (stochasticBlock vocab session nAccept maxTokens eosToken acceptedCap).2 = some drafts →
        Takes vocab session drafts := by
  unfold stochasticBlock
  split
  case isTrue => exact ⟨.refl session, fun drafts hnone => by cases hnone⟩
  case isFalse hdraft =>
    rw [not_or, not_or] at hdraft
    have hdropped : Mirrors session { session.dropDraft with stochasticDraft := false } := ⟨rfl, rfl, rfl, rfl⟩
    have hroom := draftCount_room session nAccept maxTokens acceptedCap
    dsimp only
    generalize draftCount session nAccept maxTokens acceptedCap = draftN at hroom ⊢
    split
    case isTrue => exact ⟨hdropped, fun drafts hnone => by cases hnone⟩
    case isFalse hpositive =>
      split
      case isTrue => exact ⟨hdropped, fun drafts hnone => by cases hnone⟩
      case isFalse htokens =>
        have htakes := takes_take hshort hdraft.2.2 hpositive hroom (not_not.mp htokens)
        refine ⟨hdropped, fun drafts hsome => ?_⟩
        cases hsome
        exact htakes.front upToEos_isFront (upToEos_ne_nil htakes.nonempty)

end Sampled

/-! ### Both ranks -/

section Both

variable {σ Λ : Type} {target : Recurrent Int σ Λ} {answers : Answers σ Λ} {worker : WorkerAnswers σ Λ}
  {leading following session after : Session σ Λ} {drafts accepted : List Int} {frame : Bool × Nat}
  {maxTokens acceptedCap eosToken : Int} {vocab : Nat}

theorem obeyed_verify (hanswering : Answering worker) (hmirrors : Mirrors leading following)
    (htakes : Takes vocab leading drafts) (hframe : frame.2 ≤ drafts.length)
    (hsettled : Settled target leading drafts frame after) :
    ∃ following', obey target worker vocab following (.verify drafts frame.1 frame.2) = some following' ∧
      Mirrors after following' := by
  obtain ⟨following', hobey, hworker⟩ :=
    @obey_verify σ Λ target following drafts frame worker vocab hanswering (htakes.of_mirrors hmirrors) hframe
  exact ⟨following', hobey, hsettled.mirrors hmirrors hworker⟩

theorem obeyed_eval (hanswering : Answering worker) (hmirrors : Mirrors leading following) {token : Int}
    (hafter : Mirrors (evaluated target leading token) after) :
    ∃ following', obey target worker vocab following (.eval token) = some following' ∧ Mirrors after following' := by
  refine ⟨_, obey_eval vocab hanswering token, ?_⟩
  have hevaluated := @evaluated_mirrors σ Λ target leading following hmirrors token
  exact ⟨hevaluated.checkpoint.trans hafter.checkpoint.symm, hevaluated.frontier.trans hafter.frontier.symm,
    hevaluated.valid.trans hafter.valid.symm, hevaluated.ctxSize.trans hafter.ctxSize.symm⟩

/-- The worker follows the leader through a greedy cycle. -/
theorem argmax_obeyed {argmax : Λ → Int} (hleader : answers.tpLeader = true) (hanswering : Answering worker)
    (hshort : leading.draft.length ≤ dsparkMaxBlockSize) (hmirrors : Mirrors leading following)
    (hreturned : 0 ≤ (evalDsparkSpeculativeArgmax target answers vocab argmax leading accepted maxTokens eosToken
      acceptedCap).returned) :
    ∃ following', obeyAll target worker vocab following
        (argmaxSends answers target vocab argmax leading accepted maxTokens eosToken acceptedCap) = some following' ∧
      Mirrors (evalDsparkSpeculativeArgmax target answers vocab argmax leading accepted maxTokens eosToken
        acceptedCap).session following' := by
  rcases argmax_sends hleader hshort hreturned with
    ⟨hsends, hsame⟩ | ⟨drafts, frame, hsends, htakes, hframe, hsettled⟩
  · rw [hsends]
    refine ⟨following, rfl, ?_⟩
    exact ⟨hmirrors.checkpoint.trans hsame.checkpoint.symm, hmirrors.frontier.trans hsame.frontier.symm,
      hmirrors.valid.trans hsame.valid.symm, hmirrors.ctxSize.trans hsame.ctxSize.symm⟩
  · rw [hsends]
    obtain ⟨following', hobey, hfollows⟩ :=
      @obeyed_verify σ Λ target worker leading following _ drafts frame vocab hanswering hmirrors htakes hframe
        hsettled
    refine ⟨following', ?_, hfollows⟩
    rw [obeyAll, List.foldlM_cons, hobey]
    rfl

/-- The worker follows the leader through a stochastic cycle. -/
theorem stochastic_obeyed (hleader : answers.tpLeader = true) (hanswering : Answering worker)
    (hshort : leading.draft.length ≤ dsparkMaxBlockSize) (hmirrors : Mirrors leading following)
    (hreturned : 0 ≤ (evalDsparkSpeculativeStochastic target answers vocab leading accepted maxTokens eosToken
      acceptedCap).returned) :
    ∃ following', obeyAll target worker vocab following
        (stochasticSends answers target vocab leading accepted maxTokens eosToken acceptedCap) = some following' ∧
      Mirrors (evalDsparkSpeculativeStochastic target answers vocab leading accepted maxTokens eosToken
        acceptedCap).session following' := by
  obtain ⟨hsame, htakes⟩ := @stochasticBlock_takes σ Λ leading maxTokens acceptedCap eosToken vocab
    accepted.length hshort
  unfold evalDsparkSpeculativeStochastic at hreturned ⊢
  unfold stochasticSends
  generalize stochasticBlock vocab leading accepted.length maxTokens eosToken acceptedCap = taken
    at hsame htakes hreturned ⊢
  obtain ⟨before, block⟩ := taken
  have hbefore : Mirrors before following :=
    ⟨hmirrors.checkpoint.trans hsame.checkpoint.symm, hmirrors.frontier.trans hsame.frontier.symm,
      hmirrors.valid.trans hsame.valid.symm, hmirrors.ctxSize.trans hsame.ctxSize.symm⟩
  cases block with
  | none => exact ⟨following, rfl, hbefore⟩
  | some drafts =>
    dsimp only at hsame hreturned ⊢
    by_cases hprobabilities : answers.probabilities 0 = true
    · rw [if_neg (not_not.mpr hprobabilities)] at hreturned ⊢
      rw [if_neg (not_not.mpr hprobabilities)]
      by_cases htake : answers.pointAccept 0 = true
      · rw [if_neg (not_not.mpr htake)] at hreturned ⊢
        rw [if_neg (not_not.mpr htake)]
        cases hstart : startVerify target answers before drafts with
        | none =>
          rw [hstart] at hreturned
          exact absurd hreturned failed_returned
        | some started =>
          rw [hstart] at hreturned
          dsimp only at hreturned ⊢
          rcases startVerify_told hleader hstart with ⟨hsent, rfl⟩ | ⟨hsent, htold⟩
          · obtain ⟨hidle, hnothing⟩ := @stochasticVerified_idle σ Λ target answers before drafts accepted
              acceptedCap eosToken
            rw [hsent, if_neg Bool.false_ne_true, hidle, hnothing]
            exact ⟨following, rfl, hbefore⟩
          · have hdrafts := htakes drafts rfl
            rw [if_pos hsent]
            obtain ⟨hframe, hcase⟩ := stochasticVerified_settled hleader hdrafts.nonempty htold hsent hreturned
            rcases hcase with ⟨hnothing, hsettled⟩ | ⟨middle, replacement, heval, hsettled, hafter⟩
            · obtain ⟨following', hobey, hfollows⟩ := @obeyed_verify σ Λ target worker before following _ drafts
                (stochasticFrame answers drafts started) vocab hanswering hbefore (hdrafts.of_mirrors hsame) hframe
                hsettled
              refine ⟨following', ?_, hfollows⟩
              rw [obeyAll, List.foldlM_cons, hobey, hnothing]
              rfl
            · -- the worker settles the block, and evaluates the replacement from there
              obtain ⟨settled, hobey, hfollows⟩ := @obeyed_verify σ Λ target worker before following _ drafts
                (stochasticFrame answers drafts started) vocab hanswering hbefore (hdrafts.of_mirrors hsame) hframe
                hsettled
              obtain ⟨following', hobey', hfollows'⟩ := @obeyed_eval σ Λ target worker middle settled _ vocab
                hanswering hfollows replacement hafter
              refine ⟨following', ?_, hfollows'⟩
              rw [obeyAll, List.foldlM_cons, hobey, heval]
              show (obey target worker vocab settled (.eval replacement) >>= fun session => some session) = _
              rw [hobey']
              rfl
      · rw [if_pos htake] at hreturned ⊢
        rw [if_pos htake]
        by_cases hnegative : answers.pointReplacement < 0
        · rw [if_pos hnegative] at hreturned
          exact absurd hreturned failed_returned
        · rw [if_neg hnegative] at hreturned ⊢
          rw [if_neg hnegative, evalSends, if_pos hleader]
          rcases heval : evalProbeTp target answers before answers.pointReplacement with ⟨session', _ | _⟩
          · rw [heval] at hreturned
            exact absurd hreturned failed_returned
          · obtain ⟨following', hobey, hfollows⟩ := @obeyed_eval σ Λ target worker before following session' vocab
              hanswering hbefore answers.pointReplacement (evalProbeTp_evaluated heval)
            refine ⟨following', ?_, hfollows⟩
            rw [obeyAll, List.foldlM_cons, hobey]
            rfl
    · rw [if_pos hprobabilities] at hreturned ⊢
      rw [if_pos hprobabilities]
      exact ⟨following, rfl, hbefore⟩

/-- A round between a leader of two ranks and a worker on which nothing fails, with a draft as long as a block. -/
structure Round.Fair (round : Round σ Λ) : Prop where
  leader : round.leader.tpLeader = true
  worker : Answering round.worker
  short : round.draft.length ≤ dsparkMaxBlockSize

/-- One round: the worker does not stop, and stands where the leader stands. -/
theorem round_mirrored {round : Round σ Λ} {sent : List Sent} (hfair : round.Fair)
    (hmirrors : Mirrors leading following) (hround : leaderRound target vocab leading round = some (after, sent)) :
    ∃ following', obeyAll target round.worker vocab following sent = some following' ∧ Mirrors after following' := by
  have hprepared : Mirrors (round.prepared leading) following :=
    ⟨hmirrors.checkpoint, hmirrors.frontier, hmirrors.valid, hmirrors.ctxSize⟩
  obtain ⟨turn, draft, draftValid, stochasticDraft, answers, worker⟩ := round
  unfold leaderRound at hround
  cases turn with
  | eval token =>
    dsimp only at hround
    split at hround
    case isTrue heval =>
      cases hround
      obtain ⟨following', hobey, hfollows⟩ := @obeyed_eval σ Λ target worker _ following _ vocab hfair.worker
        hprepared token (evalProbeTp_evaluated (Prod.ext rfl heval))
      refine ⟨following', ?_, hfollows⟩
      have hleader : answers.tpLeader = true := hfair.leader
      show obeyAll target worker vocab following (evalSends answers token) = some following'
      rw [evalSends, if_pos hleader, obeyAll, List.foldlM_cons, hobey]
      rfl
    case isFalse => cases hround
  | argmax argmax accepted maxTokens eosToken acceptedCap =>
    dsimp only at hround
    split at hround
    case isTrue => cases hround
    case isFalse hreturned =>
      cases hround
      exact argmax_obeyed hfair.leader hfair.worker hfair.short hprepared (Int.not_lt.mp hreturned)
  | stochastic accepted maxTokens eosToken acceptedCap =>
    dsimp only at hround
    split at hround
    case isTrue => cases hround
    case isFalse hreturned =>
      cases hround
      exact stochastic_obeyed hfair.leader hfair.worker hfair.short hprepared (Int.not_lt.mp hreturned)

/-- Through any run of evals and speculative cycles on the leader none of which fails, whatever is drafted, accepted
and sampled, the worker obeys every command and stands where the leader stands. -/
theorem rounds_mirrored (target : Recurrent Int σ Λ) (vocab : Nat) (leading following after : Session σ Λ)
    (rounds : List (Round σ Λ)) (log : List (WorkerAnswers σ Λ × List Sent))
    (hfair : ∀ round ∈ rounds, round.Fair) (hmirrors : Mirrors leading following)
    (hrun : leaderRun target vocab leading rounds = some (after, log)) :
    ∃ following', workerRun target vocab following log = some following' ∧ Mirrors after following' := by
  induction rounds generalizing leading following log with
  | nil =>
    cases hrun
    exact ⟨following, rfl, hmirrors⟩
  | cons round rounds ih =>
    rw [leaderRun] at hrun
    cases hround : leaderRound target vocab leading round with
    | none =>
      rw [hround] at hrun
      cases hrun
    | some out =>
      obtain ⟨middle, sent⟩ := out
      rw [hround] at hrun
      dsimp only at hrun
      cases hrest : leaderRun target vocab middle rounds with
      | none =>
        rw [hrest] at hrun
        cases hrun
      | some rest =>
        obtain ⟨last, tail⟩ := rest
        rw [hrest] at hrun
        cases hrun
        obtain ⟨settled, hobey, hfollows⟩ := round_mirrored (hfair round List.mem_cons_self) hmirrors hround
        obtain ⟨following', hfollow, hlast⟩ := ih middle settled tail
          (fun r hmem => hfair r (List.mem_cons_of_mem round hmem)) hfollows hrest
        refine ⟨following', ?_, hlast⟩
        rw [workerRun, List.foldlM_cons]
        show (obeyAll target round.worker vocab following sent >>= fun session =>
          tail.foldlM (fun session entry => obeyAll target entry.1 vocab session entry.2) session) = some following'
        rw [hobey]
        exact hfollow

end Both

/-! ## Two rounds -/

/-- Nothing fails on the worker. -/
def obliging : WorkerAnswers (List Int) Int where
  snapshot := true
  verify := true
  restore := true
  replay := fun _ => some 0
  vocabSplit := true
  sendHalf := true
  eval := true
  junk := []

theorem obliging_answering : Answering obliging := ⟨rfl, rfl, rfl, fun _ => rfl, rfl, rfl⟩

/-- Two of three tokens are kept in a greedy cycle, and one of two in a stochastic one, with a replacement. -/
def twoRounds : List (Round (List Int) Int) :=
  [{ turn := .argmax id [] 16 7 16, draft := [0, 1, 2], draftValid := true, stochasticDraft := false,
     leader := { agreeing 2 with tpLeader := true, vocabSplit := true }, worker := obliging },
   { turn := .stochastic [] 16 7 16, draft := [4, 5], draftValid := true, stochasticDraft := true,
     leader := { agreeing 2 with tpLeader := true, pointAccept := fun i => decide (i < 1), pointReplacement := 6 },
     worker := obliging }]

theorem rounds_mirrored_sample :
    ∃ after log, leaderRun transcript 32 (drafted []) twoRounds = some (after, log) ∧
      after.checkpoint = [9, 0, 1, 4, 6] ∧
      ∃ following, workerRun transcript 32 (drafted []) log = some following ∧ Mirrors after following := by
  refine ⟨_, _, rfl, by decide, ?_⟩
  refine rounds_mirrored transcript 32 (drafted []) (drafted []) _ twoRounds _ (fun round hround => ?_)
    (.refl (drafted [])) rfl
  rcases List.mem_cons.mp hround with rfl | hround
  · exact ⟨rfl, obliging_answering, by decide⟩
  · rw [List.mem_singleton.mp hround]
    exact ⟨rfl, obliging_answering, by decide⟩

end Spark.Dspark
