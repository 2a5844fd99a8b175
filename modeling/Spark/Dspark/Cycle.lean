import Mathlib.Data.Nat.Notation
import Spark.Lib.Recurrent

/-!
# DSpark cycles of the GLM engine

`ds4_session_eval_dspark_speculative_argmax` and its stochastic variant: a drafted block goes through the target at
once, and a front of it is committed. The compressors and their row counters are the state of a `Recurrent` target.
Whatever the device, the sampler or the other rank decides is an argument; statistics, logging and the scheduler are
left out.

* **`verifySuffixTops`**, **`commitPrefix`**, **`frontierRestore`** — the verifier and its frontier.
* **`evalDsparkSpeculativeArgmax`**, **`evalDsparkSpeculativeStochastic`** — the two cycles.
-/

namespace Spark.Dspark

/-- `DS4_SPEC_PREFIX_SLOTS`. -/
def specPrefixSlots : Nat := 4

/-- The part of a session and its graph that a cycle reads and writes. -/
structure Session (σ Λ : Type) where
  checkpoint : List Int
  checkpointValid : Bool
  logits : Λ
  /-- The compressor states and the row counters. -/
  frontier : σ
  /-- The prefix slots: the first holds a state behind one token. -/
  prefixes : Nat → σ
  draftValid : Bool
  stochasticDraft : Bool
  /-- `dspark_draft_tokens`, as many as `dspark_draft_len`. -/
  draft : List Int
  ctxSize : Int

/-- What is answered in the course of a cycle. A step that fails leaves `junk` in what it writes. -/
structure Answers (σ Λ : Type) where
  /-- `spec_frontier_snapshot`. -/
  snapshot : Bool
  /-- `spec_row_logits` is there. -/
  rowBuffer : Bool
  tpLeader : Bool
  sendVerify : Bool
  verify : Bool
  rowTops : Nat → Int
  /-- `metal_graph_read_spec_logits_row`. -/
  readRow : Nat → Option Λ
  commitPrefix : Bool
  restore : Bool
  sendCommit : Bool
  /-- `metal_graph_eval_token_raw_swa`, for one token of the block after the other. -/
  replay : Nat → Option Λ
  vocabSplit : Bool
  /-- The logits with the half of the other rank. -/
  mergeHalf : Λ → Option Λ
  /-- `sample_build_probabilities` in front of a token of the block. -/
  probabilities : Nat → Bool
  /-- `speculative_point_accept`. -/
  pointAccept : Nat → Bool
  /-- `speculative_point_replacement`. -/
  pointReplacement : Int
  sendEval : Bool
  /-- The forward pass of `ds4_session_eval_internal`. -/
  eval : Option Λ
  /-- What `ds4_session_eval_probe_tp` makes of its logits. -/
  settle : Λ → Option Λ
  junk : σ
  junkPrefixes : Nat → σ

/-- What a cycle returns, the number of tokens in `accepted` or -1, and what it leaves. -/
structure Cycle (σ Λ : Type) where
  returned : Int
  accepted : List Int
  session : Session σ Λ

section Model

variable {σ Λ : Type} (target : Recurrent Int σ Λ) (answers : Answers σ Λ)

def Cycle.done (accepted : List Int) (session : Session σ Λ) : Cycle σ Λ := ⟨accepted.length, accepted, session⟩

def Cycle.failed (accepted : List Int) (session : Session σ Λ) : Cycle σ Λ := ⟨-1, accepted, session⟩

/-! ## The frontier -/

/-- `metal_graph_verify_suffix_tops` on the last `n` tokens of the checkpoint. -/
def verifySuffixTops (session : Session σ Λ) (start n : Nat) (capturePrefix1 : Bool) : Session σ Λ × Bool :=
  if answers.verify then
    let block := (session.checkpoint.drop start).take n
    let captures := capturePrefix1 && decide (1 < n) && decide (n ≤ specPrefixSlots + 1)
    ({ session with
        frontier := target.run session.frontier block
        prefixes := fun slot =>
          if captures ∧ slot + 1 < n then target.run session.frontier (block.take (slot + 1))
          else session.prefixes slot }, true)
  else ({ session with frontier := answers.junk, prefixes := answers.junkPrefixes }, false)

/-- `spec_frontier_restore`. -/
def frontierRestore (saved : σ) (session : Session σ Λ) : Session σ Λ × Bool :=
  if answers.restore then ({ session with frontier := saved }, true)
  else ({ session with frontier := answers.junk }, false)

/-- `spec_frontier_commit_prefix`. -/
def commitPrefix (session : Session σ Λ) (prefixLen : Nat) : Session σ Λ × Bool :=
  if prefixLen = 0 ∨ prefixLen > specPrefixSlots then (session, false)
  else if answers.commitPrefix then ({ session with frontier := session.prefixes (prefixLen - 1) }, true)
  else ({ session with frontier := answers.junk }, false)

/-- `ds4_session_invalidate`. -/
def invalidate (session : Session σ Λ) : Session σ Λ := { session with checkpointValid := false, checkpoint := [] }

/-- `ds4_session_eval_probe_tp` without a probe. -/
def evalProbeTp (session : Session σ Λ) (token : Int) : Session σ Λ × Bool :=
  if answers.tpLeader ∧ ¬ answers.sendEval then (session, false)
  else
    match answers.eval with
    | none =>
      let session := { session with frontier := answers.junk, checkpointValid := false }
      (if answers.tpLeader then invalidate session else session, false)
    | some logits =>
      let session := { session with
        frontier := target.step session.frontier token
        checkpoint := session.checkpoint ++ [token]
        checkpointValid := true }
      match answers.settle logits with
      | none => (if answers.tpLeader then invalidate session else session, false)
      | some logits => ({ session with logits }, true)

/-! ## The block -/

/-- `draft_n`. -/
def draftCount (session : Session σ Λ) (nAccept maxTokens acceptedCap : Int) : Int :=
  let draftN : Int := session.draft.length
  let draftN := if draftN > maxTokens - nAccept then maxTokens - nAccept else draftN
  let draftN := if draftN > acceptedCap - nAccept then acceptedCap - nAccept else draftN
  let room := session.ctxSize - session.checkpoint.length
  if draftN > room - 1 then room - 1 else draftN

def inVocab (vocab : Nat) (token : Int) : Bool := 0 ≤ token && token < vocab

/-- The tokens up to the first eos. -/
def upToEos (eos : Int) : List Int → List Int
  | [] => []
  | token :: tokens => if token = eos then [token] else token :: upToEos eos tokens

/-- The tokens that are appended to the accepted ones, where there is room for so many. -/
def emitted (eos : Int) : Int → List Int → List Int
  | _, [] => []
  | room, token :: tokens =>
    if 0 < room then token :: (if token = eos then [] else emitted eos (room - 1) tokens) else []

def Session.dropDraft (session : Session σ Λ) : Session σ Λ := { session with draftValid := false, draft := [] }

/-- A session whose block may have gone through the verifier. -/
structure Started (σ Λ : Type) where
  session : Session σ Λ
  ok : Bool
  /-- `verifier_may_have_mutated`. -/
  mutated : Bool

/-- The snapshot and the verifier; none where the other rank could not be told. -/
def startVerify (session : Session σ Λ) (drafts : List Int) : Option (Started σ Λ) :=
  if answers.snapshot ∧ answers.rowBuffer then
    if answers.tpLeader ∧ ¬ answers.sendVerify then none
    else
      let start := session.checkpoint.length
      let session := { session with checkpoint := session.checkpoint ++ drafts }
      let (session, ok) := verifySuffixTops target answers session start drafts.length
        (decide (drafts.length > 1) && decide (drafts.length ≤ specPrefixSlots + 1))
      some ⟨session, ok, true⟩
  else some ⟨session, false, false⟩

/-- `tp_verify_sent`. -/
def Started.sent (started : Started σ Λ) (answers : Answers σ Λ) : Bool := answers.tpLeader && started.mutated

/-- The session as it was in front of the verifier. -/
def rollback (before session : Session σ Λ) : Session σ Λ × Bool :=
  match frontierRestore answers before.frontier
      { session with checkpoint := session.checkpoint.take before.checkpoint.length } with
  | (session, true) => (session, true)
  | (session, false) => ({ session with checkpointValid := false }, false)

/-- What a replay has come to. -/
structure Replayed (σ Λ : Type) where
  session : Session σ Λ
  tokens : List Int
  row : Option Λ
  ok : Bool

/-- The tokens one by one, from the `i`-th on, up to one that is the last. -/
def replayFrom (last : Int → Bool) : Nat → List Int → Replayed σ Λ → Replayed σ Λ
  | _, [], replayed => replayed
  | i, token :: tokens, replayed =>
    match answers.replay i with
    | none =>
      let session := { replayed.session with frontier := answers.junk, checkpointValid := false }
      { replayed with session, ok := false }
    | some row =>
      let session := { replayed.session with
        frontier := target.step replayed.session.frontier token
        checkpoint := replayed.session.checkpoint ++ [token] }
      let replayed := ⟨session, replayed.tokens ++ [token], some row, true⟩
      if last token then replayed else replayFrom last (i + 1) tokens replayed

/-- The logits behind a replay, with the half of the other rank. -/
def replayedRow (sent : Bool) (row : Λ) : Option Λ :=
  if sent ∧ answers.vocabSplit then answers.mergeHalf row else some row

/-! ## Greedy cycles -/

/-- The session behind the draft, and the block that goes to the verifier. -/
def argmaxBlock (vocab : Nat) (argmax : Λ → Int) (session : Session σ Λ)
    (nAccept maxTokens eosToken acceptedCap : Int) : Session σ Λ × Option (List Int) :=
  if session.draftValid = false ∨ session.draft = [] then (session, none)
  else
    let draftN := draftCount session nAccept maxTokens acceptedCap
    if draftN ≤ 0 then (session.dropDraft, none)
    else
      let drafts := session.draft.take draftN.toNat
      if ¬ drafts.all (inVocab vocab) then (session.dropDraft, none)
      else if argmax session.logits ≠ drafts.headD 0 then (session.dropDraft, none)
      else if drafts.headD 0 = eosToken then (session.dropDraft, some (drafts.take 1))
      else (session.dropDraft, some drafts)

/-- How many tokens of a block agree with the rows in front of them. -/
def agreed (rowTops : Nat → Int) : Nat → List Int → Nat
  | _, [] => 0
  | i, token :: tokens => if rowTops i ≠ token then 0 else 1 + agreed rowTops (i + 1) tokens

/-- `replay_budget`. -/
def replayBudget (eosToken room : Int) (drafts : List Int) (commitDrafts : Nat) : Nat :=
  let budget : Int := commitDrafts
  let budget := if budget > room then room else budget
  let budget := if budget < 0 then 0 else budget
  (upToEos eosToken (drafts.take budget.toNat)).length

/-- Behind a block that could not be committed directly. -/
def argmaxReplay (before : Session σ Λ) (accepted : List Int) (eosToken acceptedCap : Int) (drafts : List Int)
    (started : Started σ Λ) (commitDrafts : Nat) (session : Session σ Λ) : Cycle σ Λ :=
  match (if started.mutated then rollback answers before session else (session, true)) with
  | (session, false) => .failed accepted session
  | (session, true) =>
    if ¬ started.ok then
      if started.sent answers ∧ ¬ answers.sendCommit then .failed accepted session else .done accepted session
    else if started.sent answers ∧ ¬ answers.sendCommit then .failed accepted session
    else
      let budget := replayBudget eosToken (acceptedCap - accepted.length) drafts commitDrafts
      let replayed := replayFrom target answers (fun token => token = eosToken) 0 (drafts.take budget)
        ⟨session, [], none, true⟩
      let accepted := accepted ++ replayed.tokens
      if ¬ replayed.ok then .failed accepted replayed.session
      else
        match replayed.row with
        | none => .done accepted replayed.session
        | some row =>
          match replayedRow answers (started.sent answers) row with
          | none => .failed accepted { replayed.session with checkpointValid := false }
          | some logits => .done accepted { replayed.session with logits, checkpointValid := true }

/-- Behind the verifier. -/
def argmaxVerified (before : Session σ Λ) (accepted : List Int) (eosToken acceptedCap : Int) (drafts : List Int)
    (started : Started σ Λ) : Cycle σ Λ :=
  let commitDrafts := if started.ok then 1 + agreed answers.rowTops 0 drafts.tail else 0
  match (if started.ok ∧ commitDrafts = drafts.length then answers.readRow (drafts.length - 1) else none) with
  | some logits =>
    if started.sent answers ∧ ¬ answers.sendCommit then
      .failed accepted { started.session with checkpointValid := false }
    else
      .done (accepted ++ emitted eosToken (acceptedCap - accepted.length) drafts)
        { started.session with logits, checkpointValid := true }
  | none =>
    if started.ok ∧ ¬ started.sent answers ∧ commitDrafts > 0 ∧ commitDrafts < drafts.length ∧
        commitDrafts ≤ specPrefixSlots then
      let row := answers.readRow (commitDrafts - 1)
      let session := { started.session with
        checkpoint := started.session.checkpoint.take before.checkpoint.length }
      match row with
      | none => argmaxReplay target answers before accepted eosToken acceptedCap drafts started commitDrafts session
      | some logits =>
        match commitPrefix answers session commitDrafts with
        | (session, false) =>
          argmaxReplay target answers before accepted eosToken acceptedCap drafts started commitDrafts session
        | (session, true) =>
          let emits := emitted eosToken (acceptedCap - accepted.length) (drafts.take commitDrafts)
          .done (accepted ++ emits)
            { session with logits, checkpoint := session.checkpoint ++ emits, checkpointValid := true }
    else argmaxReplay target answers before accepted eosToken acceptedCap drafts started commitDrafts started.session

/-- `ds4_session_eval_dspark_speculative_argmax`. -/
def evalDsparkSpeculativeArgmax (vocab : Nat) (argmax : Λ → Int) (session : Session σ Λ) (accepted : List Int)
    (maxTokens eosToken acceptedCap : Int) : Cycle σ Λ :=
  match argmaxBlock vocab argmax session accepted.length maxTokens eosToken acceptedCap with
  | (session, none) => .done accepted session
  | (session, some drafts) =>
    match startVerify target answers session drafts with
    | none => .failed accepted session
    | some started => argmaxVerified target answers session accepted eosToken acceptedCap drafts started

/-! ## Stochastic cycles -/

/-- The session behind the draft, and its block up to an eos. -/
def stochasticBlock (vocab : Nat) (session : Session σ Λ) (nAccept maxTokens eosToken acceptedCap : Int) :
    Session σ Λ × Option (List Int) :=
  if session.draftValid = false ∨ session.stochasticDraft = false ∨ session.draft = [] then (session, none)
  else
    let dropped := { session.dropDraft with stochasticDraft := false }
    let draftN := draftCount session nAccept maxTokens acceptedCap
    if draftN ≤ 0 then (dropped, none)
    else
      let drafts := session.draft.take draftN.toNat
      if ¬ drafts.all (inVocab vocab) then (dropped, none)
      else (dropped, some (upToEos eosToken drafts))

/-- What the sampler makes of the rows of a block. -/
structure Verdict where
  ok : Bool
  acceptedDrafts : Nat
  replacement : Int
  deriving DecidableEq, Repr

/-- The tokens of a block from the `i`-th on, each against the row in front of it. -/
def sampleRows : Nat → List Int → Verdict
  | i, [] => ⟨true, i, -1⟩
  | i, _ :: tokens =>
    if (answers.readRow (i - 1)).isNone ∨ ¬ answers.probabilities i then ⟨false, i, -1⟩
    else if ¬ answers.pointAccept i then ⟨decide (0 ≤ answers.pointReplacement), i, answers.pointReplacement⟩
    else sampleRows (i + 1) tokens

/-- Behind a block of which nothing is committed. -/
def stochasticGiveUp (before : Session σ Λ) (accepted : List Int) (started : Started σ Λ) : Cycle σ Λ :=
  match (if started.mutated then rollback answers before started.session else (started.session, true)) with
  | (session, false) => .failed accepted session
  | (session, true) =>
    if started.sent answers ∧ ¬ answers.sendCommit then .failed accepted session else .done accepted session

/-- The replacement behind the accepted tokens of a block. -/
def stochasticReplace (accepted : List Int) (acceptedCap : Int) (drafts : List Int) (verdict : Verdict)
    (session : Session σ Λ) : Cycle σ Λ :=
  match evalProbeTp target answers session verdict.replacement with
  | (session, false) => .failed accepted session
  | (session, true) =>
    let accepted := accepted ++ (drafts.take verdict.acceptedDrafts).take (acceptedCap - accepted.length).toNat
    .done (if (accepted.length : Int) < acceptedCap then accepted ++ [verdict.replacement] else accepted) session

/-- Behind a block that could not be committed directly. -/
def stochasticReplay (before : Session σ Λ) (accepted : List Int) (acceptedCap : Int) (drafts : List Int)
    (started : Started σ Λ) (verdict : Verdict) (session : Session σ Λ) : Cycle σ Λ :=
  match rollback answers before session with
  | (session, false) => .failed accepted session
  | (session, true) =>
    if started.sent answers ∧ ¬ answers.sendCommit then .failed accepted session
    else
      let replayed := replayFrom target answers (fun _ => false) 0 (drafts.take verdict.acceptedDrafts)
        ⟨session, [], none, true⟩
      if ¬ replayed.ok then .failed accepted replayed.session
      else
        match replayed.row.map (replayedRow answers (started.sent answers)) with
        | some none => .failed accepted { replayed.session with checkpointValid := false }
        | _ =>
          stochasticReplace target answers accepted acceptedCap drafts verdict
            { replayed.session with checkpointValid := true }

/-- Behind the verifier. -/
def stochasticVerified (before : Session σ Λ) (accepted : List Int) (eosToken acceptedCap : Int) (drafts : List Int)
    (started : Started σ Λ) : Cycle σ Λ :=
  let verdict := if started.ok then sampleRows answers 1 drafts.tail else ⟨false, 0, -1⟩
  if verdict.ok ∧ verdict.replacement < 0 ∧ verdict.acceptedDrafts = drafts.length then
    match answers.readRow (drafts.length - 1) with
    | none => stochasticGiveUp answers before accepted started
    | some logits =>
      if started.sent answers ∧ ¬ answers.sendCommit then
        .failed accepted { started.session with checkpointValid := false }
      else
        .done (accepted ++ emitted eosToken (acceptedCap - accepted.length) drafts)
          { started.session with logits, checkpointValid := true }
  else if ¬ verdict.ok ∨ verdict.replacement < 0 then stochasticGiveUp answers before accepted started
  else if ¬ started.sent answers ∧ verdict.acceptedDrafts > 0 ∧ verdict.acceptedDrafts ≤ specPrefixSlots then
    let session := { started.session with checkpoint := started.session.checkpoint.take before.checkpoint.length }
    match commitPrefix answers session verdict.acceptedDrafts with
    | (session, false) =>
      stochasticReplay target answers before accepted acceptedCap drafts started verdict session
    | (session, true) =>
      stochasticReplace target answers accepted acceptedCap drafts verdict { session with
        checkpoint := session.checkpoint ++ drafts.take verdict.acceptedDrafts
        checkpointValid := true }
  else stochasticReplay target answers before accepted acceptedCap drafts started verdict started.session

/-- `ds4_session_eval_dspark_speculative_stochastic`. -/
def evalDsparkSpeculativeStochastic (vocab : Nat) (session : Session σ Λ) (accepted : List Int)
    (maxTokens eosToken acceptedCap : Int) : Cycle σ Λ :=
  match stochasticBlock vocab session accepted.length maxTokens eosToken acceptedCap with
  | (session, none) => .done accepted session
  | (session, some drafts) =>
    if ¬ answers.probabilities 0 then .done accepted session
    else if ¬ answers.pointAccept 0 then
      if answers.pointReplacement < 0 then .failed accepted session
      else
        match evalProbeTp target answers session answers.pointReplacement with
        | (session, false) => .failed accepted session
        | (session, true) => .done (accepted ++ [answers.pointReplacement]) session
    else
      match startVerify target answers session drafts with
      | none => .failed accepted session
      | some started => stochasticVerified target answers session accepted eosToken acceptedCap drafts started

end Model

end Spark.Dspark
