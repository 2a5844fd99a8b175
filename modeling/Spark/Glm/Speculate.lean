import Spark.Glm.Timeline
import Spark.Lib.Greedy

/-!
# Speculative decoding on a GLM-5.3 session

`ds4_session_eval_speculative_argmax` commits one or two tokens a call. This module follows a
caller that always passes the argmax of the session's logits, while no target pass fails and the
drafter answers anything.

* **`Synced`** — checkpoint, graph and logits are those of a token list; the pending draft, the
  dense counter and the rollback record are not mentioned, so they may be left over from anything.
* **`specCycle_greedy`** — one call commits a piece of the greedy continuation.
* **`rewind_after_pair`** — a rewind right after a two-token call.
* **`speculativeRounds_lossless`** — any number of calls.
-/

namespace Spark.Glm

variable {σ Λ : Type} {target : Recurrent Nat σ Λ} {config : Config} {argmax : Λ → Nat}

/-- The greedy next token after a token list. -/
def greedyNext (target : Recurrent Nat σ Λ) (argmax : Λ → Nat) (tokens : List Nat) : Nat :=
  argmax (target.score tokens)

structure Synced (target : Recurrent Nat σ Λ) (session : Ds4Session σ Λ) (tokens : List Nat) :
    Prop where
  valid : session.checkpointValid = true
  checkpoint : session.checkpoint = tokens
  graph : session.graph = target.fold tokens
  logits : session.logits = target.score tokens

/-- Without its rollback record a synced session satisfies the invariant. -/
theorem Synced.forgotten {session : Ds4Session σ Λ} {tokens : List Nat}
    (h : Synced target session tokens) : Inv target { session with rollbackValid := false } where
  graph := fun _ => by
    show session.graph = target.fold session.checkpoint
    rw [h.checkpoint, h.graph]
  rollback := nofun

/-- No target pass, copy or allocation fails; the drafter is not mentioned. -/
structure Smooth (answers : CycleAnswers σ Λ) : Prop where
  scratch : answers.scratch = true
  plain : answers.plain = .ok
  mtpEnsure : answers.mtpEnsure = true
  save : answers.save = .ok
  verify : answers.verify = .ok
  head : answers.head = true
  restore : answers.restore = .ok
  replay : answers.replay = .ok

/-- `ds4_session_eval_speculative_argmax` on a GLM session; `max_tokens` is only tested for being
positive. -/
def evalSpeculativeArgmax (target : Recurrent Nat σ Λ) (config : Config) (argmax : Λ → Nat)
    (session : Ds4Session σ Λ) (firstToken maxTokens acceptedCap : Nat)
    (answers : CycleAnswers σ Λ) : Ds4Session σ Λ × Except String (List Nat) :=
  if maxTokens = 0 ∨ acceptedCap = 0 then (session, .ok [])
  else if config.glmMtp then
    specCycle target config argmax session false none firstToken acceptedCap answers
  else
    match evalInternal target config session firstToken false answers.plain with
    | (session, .error message) => (session, .error message)
    | (session, .ok ()) => (session, .ok [firstToken])

/-! ## One call -/

theorem evalInternal_smooth (target : Recurrent Nat σ Λ) {session : Ds4Session σ Λ} (token : Nat)
    (inside : Bool) (hroom : session.checkpoint.length < config.graphCtxSize) :
    (evalInternal target config session token inside .ok).2 = .ok () := by
  unfold evalInternal
  rw [if_neg (by omega)]
  rfl

/-- A plain step forgets the rollback record too. -/
theorem evalInternal_clears (session : Ds4Session σ Λ) (token : Nat) (answer : Forward σ Λ)
    (hroom : session.checkpoint.length < config.graphCtxSize) :
    evalInternal target config session token false answer =
      evalInternal target config { session with rollbackValid := false } token false answer := by
  have hopen : ¬ session.checkpoint.length ≥ config.graphCtxSize := by omega
  simp only [evalInternal, if_neg hopen, Bool.false_eq_true, if_false]

theorem Committed.synced {session after : Ds4Session σ Λ} {accepted tokens : List Nat}
    (h : Committed target session after accepted) (hcheckpoint : session.checkpoint = tokens) :
    Synced target after (tokens ++ accepted) where
  valid := h.scored.1
  checkpoint := by rw [h.checkpoint, hcheckpoint]
  graph := by rw [h.inv.graph h.scored.1, h.checkpoint, hcheckpoint]
  logits := by rw [h.scored.2, h.checkpoint, hcheckpoint]

/-- One plain step from a synced session. -/
theorem evalInternal_committed {session : Ds4Session σ Λ} {tokens : List Nat}
    (hsynced : Synced target session tokens) (hroom : tokens.length < config.graphCtxSize)
    (token : Nat) :
    ∃ after, evalInternal target config session token false .ok = (after, .ok ()) ∧
      Committed target session after [token] := by
  have hsession : session.checkpoint.length < config.graphCtxSize := by
    rw [hsynced.checkpoint]
    exact hroom
  have hok := evalInternal_smooth target token false hsession
  cases heval : evalInternal target config session token false .ok with
  | mk after outcome =>
    rw [heval] at hok
    simp only at hok
    subst hok
    obtain ⟨hinv, hdone, -⟩ := evalInternal_spec hsynced.forgotten hsynced.valid (fun _ => rfl)
      ((evalInternal_clears session token .ok hsession).symm.trans heval)
    obtain ⟨hcheckpoint, hscored, -⟩ := hdone rfl
    exact ⟨after, rfl, hinv, hcheckpoint, hscored⟩

/-- The draft a call with `firstToken` would verify. -/
def pendingDraft (session : Ds4Session σ Λ) (firstToken : Nat) : Option Nat :=
  if session.glmMtpHave = true ∧ firstToken = session.glmMtpParent then some session.glmMtpDraft
  else none

theorem pendingDraft_seedDraft (session : Ds4Session σ Λ) (parent : Nat) (draft : Option Nat) :
    pendingDraft (seedDraft session parent draft) parent = draft := by
  cases draft with
  | none => simp [pendingDraft, seedDraft]
  | some draft => simp [pendingDraft, seedDraft]

/-- What a call commits when nothing fails: `firstToken`, and the target's token after it if
that is the pending draft. -/
def cycleTokens (config : Config) (pos acceptedCap firstToken second : Nat)
    (pending : Option Nat) : List Nat :=
  if pairRefused config pos acceptedCap = false ∧ pending = some second then [firstToken, second]
  else [firstToken]

theorem plainCycle_smooth (target : Recurrent Nat σ Λ) (argmax : Λ → Nat)
    {session : Ds4Session σ Λ} (firstToken : Nat) {answers : CycleAnswers σ Λ}
    (hsmooth : Smooth answers) (hroom : session.checkpoint.length < config.graphCtxSize) :
    ∃ after, plainCycle target config argmax session firstToken answers =
        (after, .ok [firstToken]) ∧
      pendingDraft after (argmax after.logits) = answers.draft := by
  have hok := evalInternal_smooth target firstToken true hroom
  unfold plainCycle
  rw [hsmooth.plain]
  cases heval : evalInternal target config session firstToken true .ok with
  | mk middle outcome =>
    rw [heval] at hok
    simp only at hok
    subst hok
    refine ⟨_, rfl, ?_⟩
    rw [((noteMinPos_frame middle session.checkpoint.length).trans
      (seedDraft_frame _ (argmax middle.logits) answers.draft)).logits]
    exact pendingDraft_seedDraft ..

/-- A verified cycle without exact sampling takes the draft exactly if it is the target's own
token; then it can be rolled back. -/
theorem verifyCycle_smooth (target : Recurrent Nat σ Λ) (config : Config) (argmax : Λ → Nat)
    (session : Ds4Session σ Λ) (firstToken : Nat) {answers : CycleAnswers σ Λ} (hsmooth : Smooth answers) :
    ∃ after,
      verifyCycle target config argmax session false none firstToken answers =
        (after, .ok (if session.glmMtpDraft =
            argmax (target.logits (target.step session.graph firstToken)) then
          [firstToken, argmax (target.logits (target.step session.graph firstToken))]
          else [firstToken])) ∧
      (session.glmMtpDraft = argmax (target.logits (target.step session.graph firstToken)) →
        after.rollbackValid = true ∧ after.rollbackPos = session.checkpoint.length) ∧
      pendingDraft after (argmax after.logits) = answers.draft := by
  unfold verifyCycle settleCycle
  simp only [hsmooth.mtpEnsure, hsmooth.save, hsmooth.verify, hsmooth.head, hsmooth.restore,
    hsmooth.replay, Bool.not_true, Bool.false_eq_true, if_false, saveKdaState, forward,
    restoreKdaState, Bool.false_and, decide_eq_true_eq]
  by_cases hdraft : argmax (target.logits (target.step session.graph firstToken)) =
      session.glmMtpDraft
  · simp only [← hdraft, if_true]
    refine ⟨_, rfl, fun _ => ⟨rfl, rfl⟩, ?_⟩
    simp only [recordRollback, List.length_cons, List.length_nil, if_true]
    rw [(seedDraft_frame _ _ answers.draft).logits]
    exact pendingDraft_seedDraft ..
  · simp only [if_neg hdraft, if_neg (Ne.symm hdraft)]
    refine ⟨_, rfl, fun h => absurd h.symm hdraft, ?_⟩
    simp only [List.length_cons, List.length_nil]
    rw [if_neg (by decide), (seedDraft_frame _ _ answers.draft).logits,
      (noteDenseCache_frame config _ _ 1).logits]
    exact pendingDraft_seedDraft ..

/-- A cycle drops whatever rollback record was there. -/
theorem specCycle_clears {session : Ds4Session σ Λ} {exactSampling : Bool} {eosToken : Option Nat}
    {firstToken acceptedCap : Nat} {answers : CycleAnswers σ Λ} (hscratch : answers.scratch = true) :
    specCycle target config argmax session exactSampling eosToken firstToken acceptedCap answers =
      specCycle target config argmax { session with rollbackValid := false } exactSampling eosToken
        firstToken acceptedCap answers := by
  unfold specCycle
  simp only [hscratch, Bool.not_true, Bool.false_eq_true, if_false]

theorem glmMtpHave_dropStaleDraft (session : Ds4Session σ Λ) (firstToken : Nat) :
    (dropStaleDraft session firstToken).glmMtpHave = (pendingDraft session firstToken).isSome ∧
      (dropStaleDraft session firstToken).glmMtpDraft = session.glmMtpDraft := by
  unfold dropStaleDraft pendingDraft
  cases hhave : session.glmMtpHave with
  | false => simp [hhave]
  | true =>
    by_cases hparent : firstToken = session.glmMtpParent
    · simp [hhave, hparent]
    · simp [hparent]

theorem specCycle_smooth (target : Recurrent Nat σ Λ) (argmax : Λ → Nat)
    (session : Ds4Session σ Λ) (firstToken acceptedCap : Nat)
    (hroom : session.checkpoint.length < config.graphCtxSize) {answers : CycleAnswers σ Λ}
    (hsmooth : Smooth answers) :
    ∃ after,
      specCycle target config argmax session false none firstToken acceptedCap answers =
        (after, .ok (cycleTokens config session.checkpoint.length acceptedCap firstToken
          (argmax (target.logits (target.step session.graph firstToken)))
          (pendingDraft session firstToken))) ∧
      ((cycleTokens config session.checkpoint.length acceptedCap firstToken
          (argmax (target.logits (target.step session.graph firstToken)))
          (pendingDraft session firstToken)).length = 2 →
        after.rollbackValid = true ∧ after.rollbackPos = session.checkpoint.length) ∧
      pendingDraft after (argmax after.logits) = answers.draft := by
  have hpend : pendingDraft { session with rollbackValid := false } firstToken =
      pendingDraft session firstToken := rfl
  have hframe := dropStaleDraft_frame { session with rollbackValid := false } firstToken
  obtain ⟨hhave, hdraft⟩ :=
    glmMtpHave_dropStaleDraft { session with rollbackValid := false } firstToken
  rw [hpend] at hhave
  unfold specCycle
  simp only [hsmooth.scratch, Bool.not_true, Bool.false_eq_true, if_false]
  generalize dropStaleDraft { session with rollbackValid := false } firstToken = start at *
  unfold cycleTokens
  cases hrefused : pairRefused config session.checkpoint.length acceptedCap with
  | true =>
    rw [Bool.or_true, if_pos rfl]
    obtain ⟨after, hplain, hnext⟩ := plainCycle_smooth target argmax firstToken
      hsmooth (by rw [hframe.checkpoint]; exact hroom)
    exact ⟨after, by rw [hplain]; simp, by simp, hnext⟩
  | false =>
    rw [hhave, Bool.or_false]
    cases hpending : pendingDraft session firstToken with
    | none =>
      obtain ⟨after, hplain, hnext⟩ := plainCycle_smooth target argmax firstToken
        hsmooth (by rw [hframe.checkpoint]; exact hroom)
      exact ⟨after, by simpa using hplain, by simp, hnext⟩
    | some draft =>
      have hvalue : draft = session.glmMtpDraft := by
        unfold pendingDraft at hpending
        split at hpending
        · exact (Option.some.inj hpending).symm
        · cases hpending
      obtain ⟨after, hverify, hrecord, hnext⟩ := verifyCycle_smooth target config argmax start
        firstToken hsmooth
      simp only [hdraft, hframe.graph, hframe.checkpoint, ← hvalue] at hverify hrecord
      refine ⟨after, by simpa using hverify, fun htwo => hrecord ?_, hnext⟩
      by_contra hother
      simp [hother] at htwo

/-- One cycle from a synced session commits a piece of the greedy continuation. -/
theorem specCycle_greedy (argmax : Λ → Nat) {session : Ds4Session σ Λ} {tokens : List Nat}
    (hsynced : Synced target session tokens) (hroom : tokens.length < config.graphCtxSize)
    {acceptedCap : Nat} (hcap : 1 ≤ acceptedCap) {answers : CycleAnswers σ Λ}
    (hsmooth : Smooth answers) :
    ∃ after accepted,
      specCycle target config argmax session false none (argmax session.logits) acceptedCap
        answers = (after, .ok accepted) ∧
      accepted = cycleTokens config tokens.length acceptedCap (argmax session.logits)
        (greedyNext target argmax (tokens ++ [argmax session.logits]))
        (pendingDraft session (argmax session.logits)) ∧
      accepted = Greedy.continuation (greedyNext target argmax) tokens accepted.length ∧
      1 ≤ accepted.length ∧ accepted.length ≤ acceptedCap ∧
      Committed target session after accepted ∧
      (accepted.length = 2 → after.rollbackValid = true ∧ after.rollbackPos = tokens.length) ∧
      pendingDraft after (argmax after.logits) = answers.draft := by
  have hfirst : argmax session.logits = greedyNext target argmax tokens := by
    rw [hsynced.logits]
    rfl
  have hsecond : argmax (target.logits (target.step session.graph (argmax session.logits))) =
      greedyNext target argmax (tokens ++ [argmax session.logits]) := by
    rw [greedyNext, Recurrent.score, ← target.run_fold, ← hsynced.graph]
    rfl
  obtain ⟨after, hcycle, hrecord, hnext⟩ := specCycle_smooth target argmax session
    (argmax session.logits) acceptedCap (by rw [hsynced.checkpoint]; exact hroom) hsmooth
  rw [hsecond, hsynced.checkpoint] at hcycle hrecord
  -- the cycle forgets the rollback record, so the spec applies without knowing it
  have hsound : CycleSound target { session with rollbackValid := false } (argmax session.logits)
      after _ := specCycle_spec hsynced.forgotten hsynced.valid
    ((specCycle_clears hsmooth.scratch).symm.trans hcycle)
  obtain ⟨-, -, hcommitted⟩ := hsound.accepted _ rfl
  refine ⟨after, _, hcycle, rfl, ?_, ?_, ?_,
    ⟨hcommitted.inv, hcommitted.checkpoint, hcommitted.scored⟩, hrecord, hnext⟩
  · unfold cycleTokens
    split
    · simp [Greedy.continuation, hfirst]
    · simp [Greedy.continuation, hfirst]
  · unfold cycleTokens
    split <;> simp
  · unfold cycleTokens
    split
    · next hpair =>
      have hroom := hpair.1
      simp only [pairRefused, Bool.or_eq_false_iff, decide_eq_false_iff_not] at hroom
      simp only [List.length_cons, List.length_nil]
      omega
    · exact hcap

/-- At a full context a cycle fails and the checkpoint stays. -/
theorem specCycle_full (target : Recurrent Nat σ Λ) (argmax : Λ → Nat)
    (session : Ds4Session σ Λ) (firstToken acceptedCap : Nat)
    (hfull : config.graphCtxSize ≤ session.checkpoint.length) {answers : CycleAnswers σ Λ}
    (hscratch : answers.scratch = true) :
    ∃ after message,
      specCycle target config argmax session false none firstToken acceptedCap answers =
        (after, .error message) ∧ after.checkpoint = session.checkpoint := by
  have hframe := dropStaleDraft_frame { session with rollbackValid := false } firstToken
  have hrefused : pairRefused config session.checkpoint.length acceptedCap = true := by
    have hpair : session.checkpoint.length + 2 > config.graphCtxSize := by omega
    simp [pairRefused, hpair]
  unfold specCycle
  simp only [hscratch, Bool.not_true, Bool.false_eq_true, if_false, hrefused, Bool.or_true,
    if_true]
  unfold plainCycle evalInternal
  rw [hframe.checkpoint, if_pos hfull]
  exact ⟨_, _, rfl, hframe.checkpoint⟩

/-- Right after a two-token call, a rewind to either shorter position keeps the checkpoint valid
and leaves the graph of exactly that position. -/
theorem rewind_after_pair {session : Ds4Session σ Λ} (hinv : Inv target session)
    (hvalid : session.checkpointValid = true) (hrecord : session.rollbackValid = true)
    (hlength : session.checkpoint.length = session.rollbackPos + 2) {pos : Nat}
    (hlow : session.rollbackPos ≤ pos) (hhigh : pos < session.checkpoint.length) :
    (rewind target config session pos .ok .ok).checkpointValid = true ∧
      (rewind target config session pos .ok .ok).checkpoint = session.checkpoint.take pos ∧
      (rewind target config session pos .ok .ok).graph =
        target.fold (session.checkpoint.take pos) := by
  have hmtp : (mtpRewind target config session pos .ok .ok).2 = true := by
    unfold mtpRewind
    rw [if_neg (by simp [hrecord, hlength]; omega)]
    simp only [restoreKdaState, forward, Bool.true_and]
    split
    · rfl
    · rfl
  have hkeep : min (pos : Int).toNat session.checkpoint.length = pos := by
    rw [Int.toNat_natCast]
    omega
  cases hrun : mtpRewind target config session pos .ok .ok with
  | mk middle answer =>
    rw [hrun] at hmtp
    simp only at hmtp
    subst hmtp
    obtain ⟨hcheckpoint, hstill, hgraph, -⟩ := mtpRewind_spec hinv hrun
    unfold rewind
    simp only [hkeep, if_pos hhigh, hrun, Bool.and_true]
    have hframe := capDenseCache_frame config
      { middle with
        checkpoint := middle.checkpoint.take pos, glmMtpHave := false, rollbackValid := false }
    refine ⟨hframe.checkpointValid.trans (hstill.trans hvalid), hframe.checkpoint.trans ?_,
      hframe.graph.trans hgraph⟩
    simp only [hcheckpoint]

/-! ## Any number of calls -/

/-- The arguments of one call, apart from its first token, and the answers it gets. -/
structure Round (σ Λ : Type) where
  maxTokens : Nat
  acceptedCap : Nat
  answers : CycleAnswers σ Λ

structure Call (σ Λ : Type) where
  before : Ds4Session σ Λ
  acceptedCap : Nat
  accepted : List Nat
  after : Ds4Session σ Λ

/-- The caller's loop: it stops at a full context, and passes the argmax otherwise. -/
def speculativeRounds (target : Recurrent Nat σ Λ) (config : Config) (argmax : Λ → Nat) :
    List (Round σ Λ) → Ds4Session σ Λ → List (Call σ Λ) × Except String (Ds4Session σ Λ)
  | [], session => ([], .ok session)
  | round :: rounds, session =>
    if session.checkpoint.length ≥ config.graphCtxSize then ([], .ok session)
    else
      match evalSpeculativeArgmax target config argmax session (argmax session.logits)
          round.maxTokens round.acceptedCap round.answers with
      | (_, .error message) => ([], .error message)
      | (after, .ok accepted) =>
        let later := speculativeRounds target config argmax rounds after
        (⟨session, round.acceptedCap, accepted, after⟩ :: later.1, later.2)

/-- What one call has to do. -/
structure CallSound (target : Recurrent Nat σ Λ) (config : Config) (call : Call σ Λ) : Prop where
  nonempty : 1 ≤ call.accepted.length
  capped : call.accepted.length ≤ call.acceptedCap
  checkpoint : call.after.checkpoint = call.before.checkpoint ++ call.accepted
  graph : call.after.graph = target.fold call.after.checkpoint
  logits : call.after.logits = target.score call.after.checkpoint
  rewinds : call.accepted.length = 2 → ∀ pos : Nat, call.before.checkpoint.length ≤ pos →
    pos < call.after.checkpoint.length →
    (rewind target config call.after pos .ok .ok).checkpointValid = true ∧
      (rewind target config call.after pos .ok .ok).checkpoint =
        call.after.checkpoint.take pos ∧
      (rewind target config call.after pos .ok .ok).graph =
        target.fold (call.after.checkpoint.take pos)

theorem evalSpeculativeArgmax_greedy {session : Ds4Session σ Λ} {tokens : List Nat}
    (hsynced : Synced target session tokens) (hroom : tokens.length < config.graphCtxSize)
    {maxTokens acceptedCap : Nat} (hmax : 1 ≤ maxTokens) (hcap : 1 ≤ acceptedCap)
    {answers : CycleAnswers σ Λ} (hsmooth : Smooth answers) :
    ∃ after accepted,
      evalSpeculativeArgmax target config argmax session (argmax session.logits) maxTokens
        acceptedCap answers = (after, .ok accepted) ∧
      accepted = Greedy.continuation (greedyNext target argmax) tokens accepted.length ∧
      Synced target after (tokens ++ accepted) ∧
      CallSound target config ⟨session, acceptedCap, accepted, after⟩ := by
  unfold evalSpeculativeArgmax
  rw [if_neg (by omega)]
  cases hmtp : config.glmMtp with
  | true =>
    rw [if_pos rfl]
    obtain ⟨after, accepted, hcycle, -, hpiece, hnonempty, hcapped, hcommitted, hrecord, -⟩ :=
      specCycle_greedy argmax hsynced hroom hcap hsmooth
    refine ⟨after, accepted, hcycle, hpiece, hcommitted.synced hsynced.checkpoint, hnonempty,
      hcapped, hcommitted.checkpoint, hcommitted.inv.graph hcommitted.scored.1,
      hcommitted.scored.2, fun htwo pos hlow hhigh => ?_⟩
    obtain ⟨hvalid, hpos⟩ := hrecord htwo
    simp only [hsynced.checkpoint] at hlow
    refine rewind_after_pair hcommitted.inv hcommitted.scored.1 hvalid ?_ (hpos ▸ hlow) hhigh
    rw [hcommitted.checkpoint, List.length_append, htwo, hsynced.checkpoint, hpos]
  | false =>
    rw [if_neg Bool.false_ne_true, hsmooth.plain]
    obtain ⟨after, heval, hcommitted⟩ := evalInternal_committed hsynced hroom (argmax session.logits)
    rw [heval]
    refine ⟨after, [argmax session.logits], rfl, ?_, hcommitted.synced hsynced.checkpoint,
      Nat.le_refl 1, hcap, hcommitted.checkpoint, hcommitted.inv.graph hcommitted.scored.1,
      hcommitted.scored.2, nofun⟩
    simp only [List.length_singleton, Greedy.continuation, greedyNext, hsynced.logits]

/-- **Speculation is lossless.** From a synced session, with any pending draft and any rollback
record left in it, the calls commit the greedy continuation of the prompt, piece by piece. -/
theorem speculativeRounds_lossless (target : Recurrent Nat σ Λ) (config : Config)
    (argmax : Λ → Nat) (rounds : List (Round σ Λ)) :
    ∀ (session : Ds4Session σ Λ) (prompt : List Nat), Synced target session prompt →
      (∀ round ∈ rounds, 1 ≤ round.maxTokens ∧ 1 ≤ round.acceptedCap ∧ Smooth round.answers) →
      ∃ calls final,
        speculativeRounds target config argmax rounds session = (calls, .ok final) ∧
        calls.flatMap Call.accepted =
          Greedy.continuation (greedyNext target argmax) prompt
            (calls.flatMap Call.accepted).length ∧
        Synced target final (prompt ++ calls.flatMap Call.accepted) ∧
        (∀ call ∈ calls, CallSound target config call) ∧
        (calls.length = rounds.length ∨ config.graphCtxSize ≤ final.checkpoint.length) := by
  induction rounds with
  | nil =>
    intro session prompt hsynced _
    exact ⟨[], session, rfl, rfl, by simpa using hsynced, nofun, Or.inl rfl⟩
  | cons round rounds ih =>
    intro session prompt hsynced hrounds
    unfold speculativeRounds
    split
    · next hfull => exact ⟨[], session, rfl, rfl, by simpa using hsynced, nofun, Or.inr hfull⟩
    · next hroom =>
      rw [hsynced.checkpoint] at hroom
      obtain ⟨hmax, hcap, hsmooth⟩ := hrounds round List.mem_cons_self
      obtain ⟨after, accepted, hcall, hpiece, hafter, hsound⟩ :=
        evalSpeculativeArgmax_greedy hsynced (Nat.lt_of_not_le hroom) hmax hcap hsmooth
      obtain ⟨calls, final, hlater, hrest, hfinal, hsounds, hend⟩ :=
        ih after _ hafter fun other hother => hrounds other (List.mem_cons_of_mem round hother)
      refine ⟨⟨session, round.acceptedCap, accepted, after⟩ :: calls, final, ?_, ?_, ?_, ?_, ?_⟩
      · rw [hcall]
        simp only [hlater]
      · rw [List.flatMap_cons, List.length_append, Greedy.continuation_add, ← hpiece, ← hrest]
      · rw [List.flatMap_cons, ← List.append_assoc]
        exact hfinal
      · intro call hmem
        rcases List.mem_cons.mp hmem with rfl | hmem
        · exact hsound
        · exact hsounds call hmem
      · rcases hend with hall | hfull
        · exact Or.inl (by simp only [List.length_cons, hall])
        · exact Or.inr hfull

/-- A session at `[5]` that still carries a draft after token 1 and a rollback record. -/
def leftoverSession : Ds4Session (List Nat) (List Nat) :=
  { newSession [5] [5] [9, 9] with
    checkpoint := [5], checkpointValid := true, glmMtpHave := true, glmMtpDraft := 2,
    glmMtpParent := 1, rollbackValid := true, rollbackPos := 7, rollbackFirstToken := 9 }

/-- The left-over draft happens to be right, the second is wrong, the third cannot be used. -/
def sampleRounds : List (Round (List Nat) (List Nat)) :=
  [⟨8, 17, smoothCycle 9⟩, ⟨6, 17, smoothCycle 5⟩, ⟨5, 1, smoothCycle 6⟩]

theorem speculativeRounds_lossless_sample :
    Synced tokenTarget leftoverSession [5] ∧
      (speculativeRounds tokenTarget sampleConfig List.length sampleRounds
        leftoverSession).1.flatMap Call.accepted = [1, 2, 3, 4] ∧
      ∃ calls final,
        speculativeRounds tokenTarget sampleConfig List.length sampleRounds leftoverSession =
          (calls, .ok final) ∧
        Synced tokenTarget final ([5] ++ calls.flatMap Call.accepted) := by
  have hstart : Synced tokenTarget leftoverSession [5] := ⟨rfl, rfl, rfl, rfl⟩
  have hsmooth : ∀ draft, Smooth (smoothCycle draft) :=
    fun _ => ⟨rfl, rfl, rfl, rfl, rfl, rfl, rfl, rfl⟩
  refine ⟨hstart, by decide, ?_⟩
  obtain ⟨calls, final, hrun, -, hfinal, -⟩ := speculativeRounds_lossless tokenTarget sampleConfig
    List.length sampleRounds leftoverSession [5] hstart (by
      intro round hround
      simp only [sampleRounds, List.mem_cons, List.not_mem_nil, or_false] at hround
      rcases hround with rfl | rfl | rfl
      · exact ⟨by decide, by decide, hsmooth 9⟩
      · exact ⟨by decide, by decide, hsmooth 5⟩
      · exact ⟨by decide, by decide, hsmooth 6⟩)
  exact ⟨calls, final, hrun, hfinal⟩

end Spark.Glm
