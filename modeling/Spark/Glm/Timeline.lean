import Spark.Glm.Session

/-!
# Runs of a GLM-5.3 session

The invariant of a session: while the checkpoint is marked valid the graph holds the fold of its
tokens, and a rollback record always describes the checkpoint it was made on. Whether the logits
buffer belongs to the last token is a separate matter. Two operations move a valid checkpoint
without scoring it: a `sync` that is interrupted after a chunk, and a `rewind` to the position
before a two-token cycle.

* **`prefillLoop_spec`**, **`evalInternal_spec`**, **`specCycle_spec`**, **`rewind_spec`** — one
  spec per operation.
* **`rewound_sync_keeps_stale_logits`** — a `sync` that returns 0 over the logits of another position.
* **`session_sound`** — what holds along every run.
-/

namespace Spark.Glm

variable {σ Λ : Type} {target : Recurrent Nat σ Λ} {config : Config} {argmax : Λ → Nat}

/-- The graph follows the checkpoint, and a rollback record describes the checkpoint. -/
structure Inv (target : Recurrent Nat σ Λ) (session : Ds4Session σ Λ) : Prop where
  graph : session.checkpointValid = true → session.graph = target.fold session.checkpoint
  rollback : session.rollbackValid = true →
    session.rollbackPos + 2 ≤ session.checkpoint.length ∧
      session.kdaBackup = target.fold (session.checkpoint.take session.rollbackPos) ∧
      session.checkpoint[session.rollbackPos]? = some session.rollbackFirstToken

/-- The session is valid and its logits are those after its last token. -/
def Scored (target : Recurrent Nat σ Λ) (session : Ds4Session σ Λ) : Prop :=
  session.checkpointValid = true ∧ session.logits = target.score session.checkpoint

/-- `after` is either given up or still where `before` was, with its logits. -/
def Unmoved (before after : Ds4Session σ Λ) : Prop :=
  after.checkpointValid = true →
    before.checkpointValid = true ∧ after.checkpoint = before.checkpoint ∧
      after.logits = before.logits

theorem unmoved_of_invalid {before after : Ds4Session σ Λ} (h : after.checkpointValid = false) :
    Unmoved before after := by
  intro hvalid
  rw [h] at hvalid
  cases hvalid

/-! ## Bookkeeping changes nothing else -/

/-- `after` differs from `before` at most in the dense counter and the pending draft. -/
structure Frame (before after : Ds4Session σ Λ) : Prop where
  checkpoint : after.checkpoint = before.checkpoint
  checkpointValid : after.checkpointValid = before.checkpointValid
  logits : after.logits = before.logits
  graph : after.graph = before.graph
  kdaBackup : after.kdaBackup = before.kdaBackup
  rollbackValid : after.rollbackValid = before.rollbackValid
  rollbackPos : after.rollbackPos = before.rollbackPos
  rollbackFirstToken : after.rollbackFirstToken = before.rollbackFirstToken

theorem Frame.refl (session : Ds4Session σ Λ) : Frame session session :=
  ⟨rfl, rfl, rfl, rfl, rfl, rfl, rfl, rfl⟩

theorem Frame.trans {first second third : Ds4Session σ Λ} (h : Frame first second)
    (h' : Frame second third) : Frame first third where
  checkpoint := h'.checkpoint.trans h.checkpoint
  checkpointValid := h'.checkpointValid.trans h.checkpointValid
  logits := h'.logits.trans h.logits
  graph := h'.graph.trans h.graph
  kdaBackup := h'.kdaBackup.trans h.kdaBackup
  rollbackValid := h'.rollbackValid.trans h.rollbackValid
  rollbackPos := h'.rollbackPos.trans h.rollbackPos
  rollbackFirstToken := h'.rollbackFirstToken.trans h.rollbackFirstToken

theorem capDenseCache_frame (config : Config) (session : Ds4Session σ Λ) :
    Frame session (capDenseCache config session) := by
  unfold capDenseCache
  split
  · exact ⟨rfl, rfl, rfl, rfl, rfl, rfl, rfl, rfl⟩
  · exact ⟨rfl, rfl, rfl, rfl, rfl, rfl, rfl, rfl⟩

theorem noteDenseCache_frame (config : Config) (session : Ds4Session σ Λ) (pos0 tokens : Nat) :
    Frame session (noteDenseCache config session pos0 tokens) := by
  unfold noteDenseCache
  split
  · exact Frame.refl session
  · refine Frame.trans ?_ (capDenseCache_frame config _)
    exact ⟨rfl, rfl, rfl, rfl, rfl, rfl, rfl, rfl⟩

theorem noteChunk_frame (config : Config) (session : Ds4Session σ Λ) (pos chunk : Nat) :
    Frame session (noteChunk config session pos chunk) := by
  unfold noteChunk
  split
  · exact noteDenseCache_frame ..
  · exact Frame.refl session

theorem noteDecode_frame (config : Config) (session : Ds4Session σ Λ) (pos : Nat) :
    Frame session (noteDecode config session pos) := by
  unfold noteDecode
  split
  · exact noteDenseCache_frame ..
  · exact Frame.refl session

theorem noteMinPos_frame (session : Ds4Session σ Λ) (pos : Nat) :
    Frame session (noteMinPos session pos) := by
  unfold noteMinPos
  split
  · exact ⟨rfl, rfl, rfl, rfl, rfl, rfl, rfl, rfl⟩
  · exact Frame.refl session

theorem dropStaleDraft_frame (session : Ds4Session σ Λ) (firstToken : Nat) :
    Frame session (dropStaleDraft session firstToken) := by
  unfold dropStaleDraft
  split
  · exact ⟨rfl, rfl, rfl, rfl, rfl, rfl, rfl, rfl⟩
  · exact Frame.refl session

theorem seedDraft_frame (session : Ds4Session σ Λ) (parent : Nat) (draft : Option Nat) :
    Frame session (seedDraft session parent draft) := by
  cases draft with
  | none => exact ⟨rfl, rfl, rfl, rfl, rfl, rfl, rfl, rfl⟩
  | some draft => exact ⟨rfl, rfl, rfl, rfl, rfl, rfl, rfl, rfl⟩

theorem Frame.inv {before after : Ds4Session σ Λ} (hframe : Frame before after)
    (h : Inv target before) : Inv target after where
  graph := by
    rw [hframe.checkpointValid, hframe.graph, hframe.checkpoint]
    exact h.graph
  rollback := by
    rw [hframe.rollbackValid, hframe.rollbackPos, hframe.checkpoint, hframe.kdaBackup,
      hframe.rollbackFirstToken]
    exact h.rollback

theorem Frame.scored {before after : Ds4Session σ Λ} (hframe : Frame before after)
    (h : Scored target before) : Scored target after := by
  unfold Scored
  rw [hframe.checkpointValid, hframe.logits, hframe.checkpoint]
  exact h

/-- A session that is given up and has no rollback record satisfies the invariant. -/
theorem inv_of_invalid {session : Ds4Session σ Λ} (hvalid : session.checkpointValid = false)
    (hrollback : session.rollbackValid = false) : Inv target session where
  graph := by
    rw [hvalid]
    intro h
    cases h
  rollback := by
    rw [hrollback]
    intro h
    cases h

/-- A rollback record stays true of a longer checkpoint. -/
theorem rollback_append {checkpoint tail : List Nat} {backup : σ} {pos token : Nat}
    (h : pos + 2 ≤ checkpoint.length ∧ backup = target.fold (checkpoint.take pos) ∧
      checkpoint[pos]? = some token) :
    pos + 2 ≤ (checkpoint ++ tail).length ∧
      backup = target.fold ((checkpoint ++ tail).take pos) ∧
      (checkpoint ++ tail)[pos]? = some token := by
  obtain ⟨hlength, hbackup, htoken⟩ := h
  refine ⟨?_, ?_, ?_⟩
  · rw [List.length_append]
    omega
  · rw [List.take_append_of_le_length (by omega)]
    exact hbackup
  · rw [List.getElem?_append_left (by omega)]
    exact htoken

/-! ## `sync` -/

theorem chunkTokens_bounds (config : Config) (pos : Nat) {remaining : Nat} (h : 0 < remaining) :
    0 < chunkTokens config pos remaining ∧ chunkTokens config pos remaining ≤ remaining := by
  unfold chunkTokens prefillChunkTokens
  have hindexed := config.indexed_pos
  simp only
  split
  · next huse =>
    have hcap : 0 < config.indexedPrefillCap := by
      rcases Bool.or_eq_true_iff.mp huse with huse | huse
      · exact hindexed huse
      · simp only [Bool.and_eq_true, decide_eq_true_eq] at huse
        omega
    split
    · omega
    · omega
  · split
    · omega
    · omega

/-- The chunk loop from a graph that follows the checkpoint. -/
theorem prefillLoop_spec (answers : SyncAnswers σ Λ) :
    ∀ (fuel round : Nat) (rest : List Nat) (session after : Ds4Session σ Λ) (result : SyncResult),
      prefillLoop target config answers fuel round rest session = (after, result) →
      rest.length ≤ fuel → session.graph = target.fold session.checkpoint →
      Inv target session →
      Inv target after ∧
        (rest = [] → after = session ∧ result = .ok) ∧
        (rest ≠ [] → result = .ok →
          after.checkpoint = session.checkpoint ++ rest ∧ Scored target after) ∧
        (rest ≠ [] → answers.cancel (round + 1) = true →
          result = .interrupted ∧
            after.checkpointValid = !session.checkpoint.isEmpty ∧
            after.checkpoint = session.checkpoint ∧ after.logits = session.logits) ∧
        ((∃ message, result = .failed message) → after.checkpointValid = false) := by
  intro fuel
  induction fuel with
  | zero =>
    intro round rest session after result hrun hfuel hgraph hinv
    have hnil : rest = [] := List.length_eq_zero_iff.mp (by omega)
    subst hnil
    cases hrun
    refine ⟨hinv, fun _ => ⟨rfl, rfl⟩, fun h => absurd rfl h, fun h => absurd rfl h, ?_⟩
    rintro ⟨message, hmessage⟩
    cases hmessage
  | succ fuel ih =>
    intro round rest session after result hrun hfuel hgraph hinv
    unfold prefillLoop at hrun
    by_cases hnil : rest = []
    · rw [if_pos hnil] at hrun
      cases hrun
      refine ⟨hinv, fun _ => ⟨rfl, rfl⟩, fun h => absurd hnil h, fun h => absurd hnil h, ?_⟩
      rintro ⟨message, hmessage⟩
      cases hmessage
    · rw [if_neg hnil] at hrun
      have hlength : 0 < rest.length := List.length_pos_iff.mpr hnil
      obtain ⟨hpos, hle⟩ := chunkTokens_bounds config session.checkpoint.length hlength
      cases hcancel : answers.cancel (round + 1) with
      | true =>
        rw [hcancel, if_pos rfl] at hrun
        cases hrun
        have hframe := capDenseCache_frame config
          { session with checkpointValid := !session.checkpoint.isEmpty }
        refine ⟨hframe.inv ⟨fun _ => hgraph, hinv.rollback⟩, fun h => absurd h hnil, ?_,
          fun _ _ => ⟨rfl, hframe.checkpointValid, hframe.checkpoint, hframe.logits⟩, ?_⟩
        · intro _ h
          cases h
        · rintro ⟨message, hmessage⟩
          cases hmessage
      | false =>
        rw [hcancel, if_neg Bool.false_ne_true] at hrun
        simp only at hrun
        generalize hsize : chunkTokens config session.checkpoint.length rest.length = chunk at *
        cases hanswer : answers.forward round with
        | failed graph logits =>
          rw [hanswer] at hrun
          cases hrun
          have hframe := capDenseCache_frame config
            { session with graph := graph, logits := logits, checkpointValid := false }
          refine ⟨hframe.inv ⟨nofun, hinv.rollback⟩, fun h => absurd h hnil, ?_, ?_,
            fun _ => hframe.checkpointValid⟩
          · intro _ h
            cases h
          · intro _ h
            cases h
        | ok =>
          rw [hanswer] at hrun
          simp only [forward] at hrun
          have hfold : target.run session.graph (rest.take chunk) =
              target.fold (session.checkpoint ++ rest.take chunk) := by
            rw [hgraph, target.run_fold]
          -- the session once the chunk is committed; the dense counter does not matter
          generalize hcommit : ({ session with
              graph := target.run session.graph (rest.take chunk)
              logits := if decide (chunk = rest.length) = true then
                  target.logits (target.run session.graph (rest.take chunk))
                else session.logits
              checkpoint := session.checkpoint ++ rest.take chunk
              checkpointValid := true } : Ds4Session σ Λ) = committed at hrun
          have hframe := noteChunk_frame config committed session.checkpoint.length chunk
          generalize noteChunk config committed session.checkpoint.length chunk = noted at hrun hframe
          have hnotedGraph : noted.graph = target.fold noted.checkpoint := by
            rw [hframe.graph, hframe.checkpoint, ← hcommit]
            exact hfold
          have hnotedInv : Inv target noted := by
            refine hframe.inv ?_
            rw [← hcommit]
            exact ⟨fun _ => hfold, fun h => rollback_append (hinv.rollback h)⟩
          obtain ⟨hinvAfter, hdone, hmore, -, hfailed⟩ := ih (round + 1) (rest.drop chunk) noted
            after result hrun (by rw [List.length_drop]; omega) hnotedGraph hnotedInv
          refine ⟨hinvAfter, fun h => absurd h hnil, fun _ hok => ?_, ?_, hfailed⟩
          · by_cases hlast : rest.drop chunk = []
            · -- the last chunk is the one that asked for logits
              have hall : chunk = rest.length := by
                have hdropped := congrArg List.length hlast
                rw [List.length_drop, List.length_nil] at hdropped
                omega
              obtain ⟨rfl, -⟩ := hdone hlast
              rw [hall, List.take_length] at hfold
              refine ⟨?_, hframe.scored ?_⟩
              · rw [hframe.checkpoint, ← hcommit, hall, List.take_length]
              · rw [← hcommit, hall, List.take_length]
                refine ⟨rfl, ?_⟩
                simp only [decide_true, if_true]
                rw [hfold]
                rfl
            · obtain ⟨hcheckpoint, hscored⟩ := hmore hlast hok
              refine ⟨?_, hscored⟩
              rw [hcheckpoint, hframe.checkpoint, ← hcommit, List.append_assoc,
                List.take_append_drop]
          · intro _ h
            cases h

/-- `sync`: an `ok` leaves exactly the prompt, scored unless nothing was evaluated. Otherwise the
session stays where it was or is given up, except when it is cut off after its first chunk. -/
theorem sync_spec {session after : Ds4Session σ Λ} {prompt : List Nat}
    {answers : SyncAnswers σ Λ} {result : SyncResult} (hinv : Inv target session)
    (hrun : sync target config session prompt answers = (after, result)) :
    Inv target after ∧
      (result = .ok → after.checkpoint = prompt ∧
        (Scored target after ∨
          session.checkpointValid = true ∧ session.checkpoint = prompt ∧ after = session)) ∧
      (result ≠ .ok →
        (result = .interrupted → answers.cancel 0 = true ∨ answers.cancel 1 = true) →
        Unmoved session after) := by
  have hstay : Unmoved session session := fun h => ⟨h, rfl, rfl⟩
  unfold sync at hrun
  by_cases hempty : prompt = []
  · rw [if_pos hempty] at hrun
    cases hrun
    exact ⟨hinv, nofun, fun _ _ => hstay⟩
  rw [if_neg hempty] at hrun
  by_cases hlong : prompt.length ≥ config.ctxSize
  · rw [if_pos hlong] at hrun
    cases hrun
    exact ⟨hinv, nofun, fun _ _ => hstay⟩
  rw [if_neg hlong] at hrun
  cases hfirst : answers.cancel 0 with
  | true =>
    rw [hfirst, if_pos rfl] at hrun
    cases hrun
    exact ⟨hinv, nofun, fun _ _ => hstay⟩
  | false =>
    rw [hfirst, if_neg Bool.false_ne_true] at hrun
    by_cases hroom : prompt.length ≥ config.graphCtxSize
    · rw [if_pos hroom] at hrun
      cases hrun
      exact ⟨inv_of_invalid rfl rfl, nofun, fun _ _ => unmoved_of_invalid rfl⟩
    rw [if_neg hroom] at hrun
    by_cases hresume : (session.checkpointValid && session.checkpoint.isPrefixOf prompt) = true
    · -- the checkpoint is kept and only the suffix is evaluated
      rw [if_pos hresume] at hrun
      obtain ⟨hvalid, hprefix⟩ := Bool.and_eq_true_iff.mp hresume
      obtain ⟨suffix, rfl⟩ := List.isPrefixOf_iff_prefix.mp hprefix
      rw [List.drop_left] at hrun
      obtain ⟨hinvAfter, hnone, hmore, hcut, hfailed⟩ := prefillLoop_spec answers _ 0 suffix
        session after result hrun (by rw [List.length_append]; omega) (hinv.graph hvalid) hinv
      refine ⟨hinvAfter, fun hok => ?_, fun hnot hearly => ?_⟩
      · by_cases hsuffix : suffix = []
        · obtain ⟨rfl, -⟩ := hnone hsuffix
          subst hsuffix
          exact ⟨by simp, .inr ⟨hvalid, by simp, rfl⟩⟩
        · obtain ⟨hcheckpoint, hscored⟩ := hmore hsuffix hok
          exact ⟨hcheckpoint, .inl hscored⟩
      · have hsuffix : suffix ≠ [] := fun h => hnot (hnone h).2
        cases hresult : result with
        | ok => exact absurd hresult hnot
        | failed message => exact unmoved_of_invalid (hfailed ⟨message, hresult⟩)
        | interrupted =>
          rcases hearly hresult with h | h
          · cases h
          · obtain ⟨-, -, hcheckpoint, hlogits⟩ := hcut hsuffix h
            exact fun _ => ⟨hvalid, hcheckpoint, hlogits⟩
    · -- the state is refilled from token zero
      rw [if_neg hresume] at hrun
      cases hreset : answers.reset with
      | failed junk =>
        rw [hreset] at hrun
        cases hrun
        exact ⟨inv_of_invalid rfl rfl, nofun, fun _ _ => unmoved_of_invalid rfl⟩
      | ok =>
        rw [hreset] at hrun
        simp only [resetKdaState, resetDenseCache] at hrun
        obtain ⟨hinvAfter, -, hmore, hcut, hfailed⟩ := prefillLoop_spec answers _ 0 prompt
          _ after result hrun (Nat.le_refl _) rfl (inv_of_invalid rfl rfl)
        refine ⟨hinvAfter, fun hok => ?_, fun hnot hearly => ?_⟩
        · obtain ⟨hcheckpoint, hscored⟩ := hmore hempty hok
          exact ⟨by simpa using hcheckpoint, .inl hscored⟩
        · cases hresult : result with
          | ok => exact absurd hresult hnot
          | failed message => exact unmoved_of_invalid (hfailed ⟨message, hresult⟩)
          | interrupted =>
            rcases hearly hresult with h | h
            · cases h
            · obtain ⟨-, hvalid, -, -⟩ := hcut hempty h
              exact unmoved_of_invalid (by simpa using hvalid)

/-! ## `eval` and the speculative cycle -/

/-- A token evaluated on a valid checkpoint: it is appended and scored, or the session stays where
it was, or it is given up. -/
theorem evalInternal_spec {session after : Ds4Session σ Λ} {token : Nat} {inside : Bool}
    {answer : Forward σ Λ} {result : Except String Unit} (hinv : Inv target session)
    (hvalid : session.checkpointValid = true)
    (hinside : inside = true → session.rollbackValid = false)
    (hrun : evalInternal target config session token inside answer = (after, result)) :
    Inv target after ∧
      (result = .ok () → after.checkpoint = session.checkpoint ++ [token] ∧
        Scored target after ∧ after.rollbackValid = false) ∧
      (result ≠ .ok () → Unmoved session after) := by
  unfold evalInternal at hrun
  split at hrun
  · cases hrun
    exact ⟨hinv, nofun, fun _ h => ⟨h, rfl, rfl⟩⟩
  · -- the rollback record is gone by now
    have hcleared : (if inside = true then session else
        { session with rollbackValid := false }) = { session with rollbackValid := false } := by
      cases inside with
      | true => rw [if_pos rfl, ← hinside rfl]
      | false => rfl
    simp only [hcleared] at hrun
    cases answer with
    | failed graph logits =>
      cases hrun
      have hframe := capDenseCache_frame config
        { session with
          rollbackValid := false, graph := graph, logits := logits, checkpointValid := false }
      exact ⟨inv_of_invalid hframe.checkpointValid hframe.rollbackValid, nofun,
        fun _ => unmoved_of_invalid hframe.checkpointValid⟩
    | ok =>
      simp only [forward, if_true] at hrun
      cases hrun
      have hfold : target.run session.graph [token] =
          target.fold (session.checkpoint ++ [token]) := by
        rw [hinv.graph hvalid, target.run_fold]
      have hframe := noteDecode_frame config
        { session with
          rollbackValid := false
          graph := target.run session.graph [token]
          logits := target.logits (target.run session.graph [token])
          checkpoint := session.checkpoint ++ [token]
          checkpointValid := true } session.checkpoint.length
      refine ⟨hframe.inv ⟨fun _ => hfold, nofun⟩,
        fun _ => ⟨hframe.checkpoint, hframe.scored ⟨rfl, ?_⟩, hframe.rollbackValid⟩,
        fun h => absurd rfl h⟩
      simp only [hfold]
      rfl

/-- What an operation that commits `accepted` on top of `session` has to leave. -/
structure Committed (target : Recurrent Nat σ Λ) (session after : Ds4Session σ Λ)
    (accepted : List Nat) : Prop where
  inv : Inv target after
  checkpoint : after.checkpoint = session.checkpoint ++ accepted
  scored : Scored target after

theorem plainCycle_spec {session after : Ds4Session σ Λ} {firstToken : Nat}
    {answers : CycleAnswers σ Λ} {result : Except String (List Nat)} (hinv : Inv target session)
    (hvalid : session.checkpointValid = true) (hrollback : session.rollbackValid = false)
    (hrun : plainCycle target config argmax session firstToken answers = (after, result)) :
    (∀ accepted, result = .ok accepted →
        accepted = [firstToken] ∧ Committed target session after accepted) ∧
      ((∃ message, result = .error message) → Inv target after ∧ Unmoved session after) := by
  unfold plainCycle at hrun
  cases heval : evalInternal target config session firstToken true answers.plain with
  | mk middle outcome =>
    obtain ⟨hmiddle, hok, hnot⟩ := evalInternal_spec hinv hvalid (fun _ => hrollback) heval
    rw [heval] at hrun
    cases outcome with
    | error message =>
      cases hrun
      exact ⟨nofun, fun _ => ⟨hmiddle, hnot nofun⟩⟩
    | ok =>
      obtain ⟨hcheckpoint, hscored, hcleared⟩ := hok rfl
      simp only at hrun
      cases hrun
      -- seeding the draft leaves checkpoint, graph and logits alone
      have hframe := (noteMinPos_frame middle session.checkpoint.length).trans
        (seedDraft_frame _ (argmax middle.logits) answers.draft)
      refine ⟨fun accepted haccepted => ?_, nofun⟩
      cases haccepted
      exact ⟨rfl, hframe.inv hmiddle, hframe.checkpoint.trans hcheckpoint,
        hframe.scored hscored⟩

/-- The rest of a verified cycle. `session` is the session after the two-row pass, with the state
before it in the backup; `before` is the session the cycle started from. -/
theorem settleCycle_spec {before session after : Ds4Session σ Λ} {exactSampling accept : Bool}
    {eosToken : Option Nat} {firstToken draft replacement : Nat} {logits0 : Λ}
    {answers : CycleAnswers σ Λ} {result : Except String (List Nat)}
    (hcheckpoint : session.checkpoint = before.checkpoint)
    (hgraph : session.graph = target.fold (before.checkpoint ++ [firstToken, draft]))
    (hbackup : session.kdaBackup = target.fold before.checkpoint)
    (hlogits : session.logits = target.score (before.checkpoint ++ [firstToken, draft]))
    (hrollback : session.rollbackValid = false)
    (hrun : settleCycle target config argmax session exactSampling eosToken
      before.checkpoint.length firstToken draft logits0 accept replacement answers =
        (after, result)) :
    after.rollbackValid = false ∧
      (∀ accepted, result = .ok accepted →
        (∃ tail, accepted = firstToken :: tail) ∧ accepted.length ≤ 2 ∧
          after.kdaBackup = target.fold before.checkpoint ∧
          Committed target before after accepted) ∧
      ((∃ message, result = .error message) → after.checkpointValid = false) := by
  unfold settleCycle at hrun
  simp only at hrun
  cases accept with
  | true =>
    rw [if_pos rfl] at hrun
    cases hrun
    have hframe := fun parent => (noteDenseCache_frame config
      { session with
        checkpoint := session.checkpoint ++ [firstToken] ++ [draft], checkpointValid := true }
      before.checkpoint.length 2).trans (seedDraft_frame _ parent answers.draft)
    have hpushed : session.checkpoint ++ [firstToken] ++ [draft] =
        before.checkpoint ++ [firstToken, draft] := by
      rw [hcheckpoint, List.append_assoc]
      rfl
    refine ⟨(hframe _).rollbackValid.trans hrollback, fun accepted haccepted => ?_, nofun⟩
    cases haccepted
    refine ⟨⟨_, rfl⟩, Nat.le_refl 2, (hframe _).kdaBackup.trans hbackup,
      (hframe _).inv ⟨fun _ => ?_, fun h => ?_⟩, (hframe _).checkpoint.trans hpushed,
      (hframe _).scored ⟨rfl, ?_⟩⟩
    · rw [hpushed]
      exact hgraph
    · rw [hrollback] at h
      cases h
    · rw [hpushed]
      exact hlogits
  | false =>
    rw [if_neg Bool.false_ne_true] at hrun
    cases hrestore : answers.restore with
    | failed junk =>
      rw [hrestore] at hrun
      cases hrun
      exact ⟨hrollback, nofun, fun _ => rfl⟩
    | ok =>
      rw [hrestore] at hrun
      simp only [restoreKdaState] at hrun
      cases hreplay : answers.replay with
      | failed graph logits =>
        rw [hreplay] at hrun
        cases hrun
        exact ⟨hrollback, nofun, fun _ => rfl⟩
      | ok =>
        rw [hreplay] at hrun
        simp only [forward, if_true] at hrun
        have hfirst : target.run session.kdaBackup [firstToken] =
            target.fold (session.checkpoint ++ [firstToken]) := by
          rw [hbackup, target.run_fold, hcheckpoint]
        cases exactSampling with
        | false =>
          rw [if_neg Bool.false_ne_true] at hrun
          cases hrun
          have hframe := (noteDenseCache_frame config
            { session with
              checkpoint := session.checkpoint ++ [firstToken]
              checkpointValid := true
              graph := target.run session.kdaBackup [firstToken]
              logits := target.logits (target.run session.kdaBackup [firstToken]) }
            before.checkpoint.length 1).trans (seedDraft_frame _ (argmax logits0) answers.draft)
          refine ⟨hframe.rollbackValid.trans hrollback, fun accepted haccepted => ?_, nofun⟩
          cases haccepted
          refine ⟨⟨_, rfl⟩, Nat.le_succ 1, hframe.kdaBackup.trans hbackup,
            hframe.inv ⟨fun _ => hfirst, fun h => ?_⟩, ?_,
            hframe.scored ⟨rfl, ?_⟩⟩
          · rw [hrollback] at h
            cases h
          · rw [hframe.checkpoint, hcheckpoint]
          · simp only [hfirst]
            rfl
        | true =>
          rw [if_pos rfl] at hrun
          cases hsecond : answers.replayReplacement with
          | failed graph logits =>
            rw [hsecond] at hrun
            cases hrun
            exact ⟨hrollback, nofun, fun _ => rfl⟩
          | ok =>
            rw [hsecond] at hrun
            cases hrun
            have hboth : target.run (target.run session.kdaBackup [firstToken]) [replacement] =
                target.fold (session.checkpoint ++ [firstToken] ++ [replacement]) := by
              rw [hfirst, target.run_fold]
            have hframe := fun parent => (noteDenseCache_frame config
              { session with
                checkpoint := session.checkpoint ++ [firstToken] ++ [replacement]
                checkpointValid := true
                graph := target.run (target.run session.kdaBackup [firstToken]) [replacement]
                logits := target.logits
                  (target.run (target.run session.kdaBackup [firstToken]) [replacement]) }
              before.checkpoint.length 2).trans (seedDraft_frame _ parent
                (if eosToken = some replacement then none else answers.draft))
            refine ⟨(hframe _).rollbackValid.trans hrollback, fun accepted haccepted => ?_, nofun⟩
            cases haccepted
            refine ⟨⟨_, rfl⟩, Nat.le_refl 2, (hframe _).kdaBackup.trans hbackup,
              (hframe _).inv ⟨fun _ => hboth, fun h => ?_⟩, ?_,
              (hframe _).scored ⟨rfl, ?_⟩⟩
            · rw [hrollback] at h
              cases h
            · rw [(hframe _).checkpoint, hcheckpoint, List.append_assoc]
              rfl
            · simp only [hboth]
              rfl

/-- An abandoned cycle is given up without a rollback record. -/
theorem abandonCycle_spec {session after : Ds4Session σ Λ} {saved : Bool} {restore : Copy σ}
    {message : String} {result : Except String (List Nat)} (hrollback : session.rollbackValid = false)
    (hrun : abandonCycle session saved restore message = (after, result)) :
    result = .error message ∧ after.checkpointValid = false ∧ after.rollbackValid = false := by
  unfold abandonCycle at hrun
  cases hrun
  refine ⟨rfl, rfl, ?_⟩
  cases saved with
  | false => exact hrollback
  | true =>
    cases restore with
    | ok => exact hrollback
    | failed junk => exact hrollback

/-- What a cycle does to a session that satisfies the invariant. -/
structure CycleSound (target : Recurrent Nat σ Λ) (session : Ds4Session σ Λ) (firstToken : Nat)
    (after : Ds4Session σ Λ) (result : Except String (List Nat)) : Prop where
  accepted : ∀ accepted, result = .ok accepted →
    (∃ tail, accepted = firstToken :: tail) ∧ accepted.length ≤ 2 ∧
      Committed target session after accepted
  failed : (∃ message, result = .error message) → Inv target after ∧ Unmoved session after

theorem cycleSound_abandon (middle : Ds4Session σ Λ) {session after : Ds4Session σ Λ}
    {firstToken : Nat} {saved : Bool} {restore : Copy σ} {message : String} {result : Except String (List Nat)}
    (hrollback : middle.rollbackValid = false)
    (hrun : abandonCycle middle saved restore message = (after, result)) :
    CycleSound target session firstToken after result := by
  obtain ⟨rfl, hvalid, hcleared⟩ := abandonCycle_spec hrollback hrun
  exact ⟨nofun, fun _ => ⟨inv_of_invalid hvalid hcleared, unmoved_of_invalid hvalid⟩⟩

theorem verifyCycle_spec {session after : Ds4Session σ Λ} {exactSampling : Bool}
    {eosToken : Option Nat} {firstToken : Nat} {answers : CycleAnswers σ Λ}
    {result : Except String (List Nat)} (hinv : Inv target session)
    (hvalid : session.checkpointValid = true) (hrollback : session.rollbackValid = false)
    (hrun : verifyCycle target config argmax session exactSampling eosToken firstToken answers =
      (after, result)) :
    CycleSound target session firstToken after result := by
  unfold verifyCycle at hrun
  simp only at hrun
  split at hrun
  · exact cycleSound_abandon { session with glmMtpHave := false } hrollback hrun
  cases hsave : answers.save with
  | failed junk =>
    rw [hsave] at hrun
    exact cycleSound_abandon { session with glmMtpHave := false, kdaBackup := junk }
      hrollback hrun
  | ok =>
    rw [hsave] at hrun
    simp only [saveKdaState] at hrun
    cases hverify : answers.verify with
    | failed graph logits =>
      rw [hverify] at hrun
      exact cycleSound_abandon
        { session with
          glmMtpHave := false, kdaBackup := session.graph, graph := graph, logits := logits }
        hrollback hrun
    | ok =>
      rw [hverify] at hrun
      simp only [forward, if_true] at hrun
      have hfold : target.run session.graph [firstToken, session.glmMtpDraft] =
          target.fold (session.checkpoint ++ [firstToken, session.glmMtpDraft]) := by
        rw [hinv.graph hvalid, target.run_fold]
      generalize hverified : ({ session with
          glmMtpHave := false
          kdaBackup := session.graph
          graph := target.run session.graph [firstToken, session.glmMtpDraft]
          logits := target.logits (target.run session.graph [firstToken, session.glmMtpDraft]) } :
        Ds4Session σ Λ) = verified at hrun
      have hcleared : verified.rollbackValid = false := by
        rw [← hverified]
        exact hrollback
      split at hrun
      · exact cycleSound_abandon _ hcleared hrun
      split at hrun
      · exact cycleSound_abandon _ hcleared hrun
      split at hrun
      · exact cycleSound_abandon _ hcleared hrun
      · next replacement hreplacement =>
        generalize (if exactSampling = true then answers.accept
          else decide (argmax (target.logits (target.step session.graph firstToken)) =
            session.glmMtpDraft)) = accept at hrun hreplacement
        cases hsettle : settleCycle target config argmax verified exactSampling eosToken
            session.checkpoint.length firstToken session.glmMtpDraft
            (target.logits (target.step session.graph firstToken)) accept replacement answers with
        | mk settled outcome =>
          rw [hsettle] at hrun
          obtain ⟨hsettled, hok, herror⟩ := settleCycle_spec (by rw [← hverified])
            (by rw [← hverified]; exact hfold)
            (by rw [← hverified]; exact hinv.graph hvalid)
            (by rw [← hverified]; simp only [hfold]; rfl) hcleared hsettle
          cases outcome with
          | error message =>
            cases hrun
            have hgiven := herror ⟨message, rfl⟩
            exact ⟨nofun, fun _ => ⟨inv_of_invalid hgiven hsettled, unmoved_of_invalid hgiven⟩⟩
          | ok accepted =>
            cases hrun
            obtain ⟨⟨tail, htail⟩, hlength, hbackup, hcommitted⟩ := hok accepted rfl
            refine ⟨fun tokens htokens => ?_, nofun⟩
            cases htokens
            refine ⟨⟨tail, htail⟩, hlength, ?_⟩
            split
            · next htwo =>
              -- the record describes the two tokens just committed
              refine ⟨⟨hcommitted.inv.graph, fun _ => ?_⟩, hcommitted.checkpoint,
                hcommitted.scored⟩
              simp only [recordRollback, hcommitted.checkpoint, htail]
              refine ⟨?_, ?_, ?_⟩
              · rw [List.length_append, ← htail, htwo]
              · rw [List.take_left]
                exact hbackup
              · simp
            · exact hcommitted

theorem specCycle_spec {session after : Ds4Session σ Λ} {exactSampling : Bool}
    {eosToken : Option Nat} {firstToken acceptedCap : Nat} {answers : CycleAnswers σ Λ}
    {result : Except String (List Nat)} (hinv : Inv target session)
    (hvalid : session.checkpointValid = true)
    (hrun : specCycle target config argmax session exactSampling eosToken firstToken acceptedCap
      answers = (after, result)) :
    CycleSound target session firstToken after result := by
  unfold specCycle at hrun
  split at hrun
  · cases hrun
    exact ⟨nofun, fun _ => ⟨hinv, fun h => ⟨h, rfl, rfl⟩⟩⟩
  simp only at hrun
  -- from here on there is no rollback record, whether or not the pending draft is dropped
  have hframe := dropStaleDraft_frame { session with rollbackValid := false } firstToken
  have hstart := (hframe.inv ⟨hinv.graph, nofun⟩ : Inv target _)
  have hsame : ∀ {accepted}, Committed target
      (dropStaleDraft { session with rollbackValid := false } firstToken) after accepted →
      Committed target session after accepted :=
    fun h => ⟨h.inv, h.checkpoint.trans (by rw [hframe.checkpoint]), h.scored⟩
  have hunmoved : Unmoved (dropStaleDraft { session with rollbackValid := false } firstToken)
      after → Unmoved session after := by
    intro h hafter
    obtain ⟨hbefore, hcheckpoint, hlogits⟩ := h hafter
    exact ⟨hframe.checkpointValid ▸ hbefore, hcheckpoint.trans hframe.checkpoint,
      hlogits.trans hframe.logits⟩
  have hkept := hframe.checkpointValid.trans hvalid
  split at hrun
  · obtain ⟨hok, herror⟩ := plainCycle_spec hstart hkept hframe.rollbackValid hrun
    refine ⟨fun accepted haccepted => ?_, fun h => ⟨(herror h).1, hunmoved (herror h).2⟩⟩
    obtain ⟨rfl, hcommitted⟩ := hok accepted haccepted
    exact ⟨⟨[], rfl⟩, Nat.le_succ 1, hsame hcommitted⟩
  · obtain ⟨hok, herror⟩ := verifyCycle_spec hstart hkept hframe.rollbackValid hrun
    refine ⟨fun accepted haccepted => ?_, fun h => ⟨(herror h).1, hunmoved (herror h).2⟩⟩
    obtain ⟨hfirst, hlength, hcommitted⟩ := hok accepted haccepted
    exact ⟨hfirst, hlength, hsame hcommitted⟩

/-! ## `rewind` and payloads -/

/-- A rollback that succeeds leaves the graph of the position it goes back to. -/
theorem mtpRewind_spec {session after : Ds4Session σ Λ} {pos : Nat} {restore : Copy σ}
    {replay : Forward σ Λ} (hinv : Inv target session)
    (hrun : mtpRewind target config session pos restore replay = (after, true)) :
    after.checkpoint = session.checkpoint ∧ after.checkpointValid = session.checkpointValid ∧
      after.graph = target.fold (session.checkpoint.take pos) ∧
      (pos = session.rollbackPos ∨ pos = session.rollbackPos + 1 ∧
        after.logits = target.score (session.checkpoint.take pos)) := by
  unfold mtpRewind at hrun
  split at hrun
  · cases hrun
  next hguard =>
  simp only [Bool.or_eq_true, Bool.not_eq_true', decide_eq_true_eq, ne_eq, Bool.and_eq_true,
    not_or, not_and, Bool.not_eq_false, not_not] at hguard
  obtain ⟨⟨hrecorded, hlength⟩, hpos⟩ := hguard
  obtain ⟨-, hbackup, htoken⟩ := hinv.rollback hrecorded
  cases restore with
  | failed junk => simp [restoreKdaState] at hrun
  | ok =>
    simp only [restoreKdaState, Bool.true_and] at hrun
    by_cases hsecond : pos = session.rollbackPos + 1
    · -- the first token of the cycle is kept: its row is run again
      have hreplayed : target.run session.kdaBackup [session.rollbackFirstToken] =
          target.fold (session.checkpoint.take pos) := by
        rw [hbackup, target.run_fold, hsecond, List.take_add_one, htoken]
        rfl
      rw [if_pos (by simp [hsecond])] at hrun
      cases replay with
      | failed graph logits => simp [forward] at hrun
      | ok =>
        simp only [forward, if_true] at hrun
        cases hrun
        have hframe := noteDenseCache_frame config
          { session with
            graph := target.run session.kdaBackup [session.rollbackFirstToken]
            logits := target.logits (target.run session.kdaBackup [session.rollbackFirstToken])
            glmDenseCacheLen := session.rollbackDenseLen } session.rollbackPos 1
        refine ⟨hframe.checkpoint, hframe.checkpointValid, hframe.graph.trans hreplayed,
          .inr ⟨hsecond, hframe.logits.trans ?_⟩⟩
        simp only [hreplayed]
        rfl
    · have hfirst : pos = session.rollbackPos := by
        by_contra hother
        exact hsecond (hpos hother)
      rw [if_neg (by simp [hsecond])] at hrun
      cases hrun
      refine ⟨rfl, rfl, ?_, .inl hfirst⟩
      rw [hfirst]
      exact hbackup

/-- `rewind` keeps the invariant. A session that is still valid was not moved, or stands at the
rolled-back position, scored unless it went back to before the cycle. -/
theorem rewind_spec (config : Config) (pos : Int) (restore : Copy σ) (replay : Forward σ Λ)
    {session : Ds4Session σ Λ} (hinv : Inv target session) :
    Inv target (rewind target config session pos restore replay) ∧
      (min pos.toNat session.checkpoint.length = session.checkpoint.length →
        Unmoved session (rewind target config session pos restore replay)) ∧
      (min pos.toNat session.checkpoint.length < session.checkpoint.length →
        min pos.toNat session.checkpoint.length ≠ session.rollbackPos →
        (rewind target config session pos restore replay).checkpointValid = true →
        Scored target (rewind target config session pos restore replay)) := by
  unfold rewind
  generalize hpos : min pos.toNat session.checkpoint.length = keep
  have hkeep : keep ≤ session.checkpoint.length := by omega
  simp only
  by_cases hless : keep < session.checkpoint.length
  · rw [if_pos hless]
    cases hmtp : mtpRewind target config session keep restore replay with
    | mk middle answer =>
      have hframe := capDenseCache_frame config
        { middle with
          checkpoint := middle.checkpoint.take keep
          glmMtpHave := false
          rollbackValid := false
          checkpointValid := middle.checkpointValid && answer }
      cases answer with
      | false =>
        have hgiven : (middle.checkpointValid && false) = false := Bool.and_false _
        refine ⟨inv_of_invalid (hframe.checkpointValid.trans hgiven) hframe.rollbackValid,
          fun h => absurd h (by omega), fun _ _ hvalid => ?_⟩
        rw [hframe.checkpointValid.trans hgiven] at hvalid
        cases hvalid
      | true =>
        obtain ⟨hcheckpoint, -, hgraph, hlogits⟩ := mtpRewind_spec hinv hmtp
        refine ⟨hframe.inv ⟨fun _ => ?_, nofun⟩, fun h => absurd h (by omega),
          fun _ hother hvalid => ?_⟩
        · simp only [hcheckpoint]
          exact hgraph
        · rcases hlogits with hlogits | ⟨-, hlogits⟩
          · exact absurd hlogits hother
          · refine ⟨hvalid, ?_⟩
            rw [hframe.logits, hframe.checkpoint]
            simp only [hcheckpoint]
            exact hlogits
  · have hall : keep = session.checkpoint.length := by omega
    rw [if_neg hless]
    simp only [hall, List.take_length, Bool.and_true]
    have hframe := capDenseCache_frame config
      { session with glmMtpHave := false, rollbackValid := false }
    refine ⟨hframe.inv ⟨hinv.graph, nofun⟩, fun _ hvalid => ?_, fun h => absurd h (by omega)⟩
    rw [hframe.checkpointValid] at hvalid
    exact ⟨hvalid, hframe.checkpoint, hframe.logits⟩

/-- A payload of the fold of its tokens, with their logits, from a session of this configuration. -/
structure GoodPayload (target : Recurrent Nat σ Λ) (config : Config) (payload : Payload σ Λ) :
    Prop where
  graph : payload.graph = target.fold payload.tokens
  logits : payload.logits = target.score payload.tokens
  compactRows : payload.compactRows = List.replicate config.layout.normalLayers
    (compactLiveRows payload.compactCap payload.tokens.length)
  indexRows : payload.indexRows =
    indexLiveRows config (compactLiveRows payload.compactCap payload.tokens.length)
  header : payload.tokens.length < config.ctxSize → checkPayload config payload = .ok ()

theorem compactLiveRows_le (compactCap checkpointLen : Nat) :
    compactLiveRows compactCap checkpointLen ≤ compactCap := by
  unfold compactLiveRows
  split
  · omega
  · omega

theorem savePayload_spec {session : Ds4Session σ Λ} {written : Bool} {payload : Payload σ Λ}
    (hinv : Inv target session)
    (hlogits : session.checkpointValid = true → session.logits = target.score session.checkpoint)
    (hrun : savePayload config session written = .ok payload) :
    payload.tokens = session.checkpoint ∧ GoodPayload target config payload := by
  unfold savePayload at hrun
  split at hrun
  · cases hrun
  next hvalid =>
  split at hrun
  · cases hrun
  cases hrun
  have hcompact := config.compact_le
  have hcap := config.ctxCap_pos
  rw [Bool.not_eq_true', Bool.not_eq_false] at hvalid
  refine ⟨rfl, hinv.graph hvalid, hlogits hvalid, rfl, rfl, fun hroom => ?_⟩
  simp only at hroom
  have hlive := compactLiveRows_le config.compactCacheCap session.checkpoint.length
  unfold checkPayload
  simp only
  rw [if_neg (by omega), if_neg (by simp), if_neg (by omega), if_neg ?_, if_neg (by omega),
    if_neg (by omega), if_neg (by omega), if_neg (by omega)]
  split
  · omega
  · omega

/-- A payload that loads replaces the checkpoint, the graph and the logits together. -/
theorem loadPayload_spec {session after : Ds4Session σ Λ} {payload : Payload σ Λ}
    {extent : Extent σ Λ} {syncBefore syncAfter : Bool}
    (hrun : loadPayload config session payload extent syncBefore syncAfter = (after, .ok ())) :
    after.checkpoint = payload.tokens ∧ after.checkpointValid = true ∧
      after.graph = payload.graph ∧ after.logits = payload.logits ∧
      after.rollbackValid = false := by
  unfold loadPayload at hrun
  cases hcheck : checkPayload config payload with
  | error message =>
    rw [hcheck] at hrun
    cases extent <;> cases hrun
  | ok =>
    rw [hcheck] at hrun
    cases extent with
    | complete =>
      simp only at hrun
      split at hrun
      · cases hrun
      split at hrun
      · cases hrun
      split at hrun
      · cases hrun
      split at hrun
      · cases hrun
      cases hrun
      exact ⟨rfl, rfl, rfl, rfl, rfl⟩
    | tensors junk =>
      simp only at hrun
      split at hrun
      · cases hrun
      split at hrun
      · cases hrun
      split at hrun
      · cases hrun
      · cases hrun
    | header => cases hrun
    | tokens => cases hrun
    | logits junk => cases hrun
    | rows => cases hrun

/-- A complete file of a good payload that leaves generation room loads into any session. -/
theorem GoodPayload.loads {payload : Payload σ Λ} (h : GoodPayload target config payload)
    (hroom : payload.tokens.length < config.ctxSize) (session : Ds4Session σ Λ) :
    (loadPayload config session payload .complete true true).2 = .ok () := by
  unfold loadPayload
  simp only [h.header hroom, h.compactRows, h.indexRows, ne_eq, not_true_eq_false, if_false,
    Bool.not_true, Bool.false_eq_true]

/-! ## Runs -/

/-- The public operations, each with the answers it gets from the device, the file system, the
cancel callback, the sampler and the drafter. -/
inductive Op (σ Λ : Type) where
  | sync (prompt : List Nat) (answers : SyncAnswers σ Λ)
  | eval (token : Nat) (answer : Forward σ Λ)
  | cycle (exactSampling : Bool) (eosToken : Option Nat) (firstToken acceptedCap : Nat)
      (answers : CycleAnswers σ Λ)
  | rewind (pos : Int) (restore : Copy σ) (replay : Forward σ Λ)
  | invalidate
  | save (written : Bool)
  | load (index : Nat) (extent : Extent σ Λ) (syncBefore syncAfter : Bool)

/-- A session, the payloads it wrote so far, and whether a valid checkpoint was last moved without
being scored. -/
structure Run (σ Λ : Type) where
  session : Ds4Session σ Λ
  payloads : List (Payload σ Λ)
  behind : Bool

section Runs

variable (target : Recurrent Nat σ Λ) (config : Config) (argmax : Λ → Nat)

def Run.step (run : Run σ Λ) : Op σ Λ → Run σ Λ
  | .sync prompt answers =>
    let synced := sync target config run.session prompt answers
    { run with
      session := synced.1
      behind :=
        match synced.2 with
        -- nothing was evaluated if the prompt was the checkpoint
        | .ok => run.behind && run.session.checkpointValid &&
            decide (run.session.checkpoint = prompt)
        -- cut off after at least one chunk
        | .interrupted => run.behind || !(answers.cancel 0 || answers.cancel 1)
        | .failed _ => run.behind }
  | .eval token answer =>
    let evaluated := evalInternal target config run.session token false answer
    { run with
      session := evaluated.1
      behind := run.behind && evaluated.2.toOption.isNone }
  | .cycle exactSampling eosToken firstToken acceptedCap answers =>
    let cycled := specCycle target config argmax run.session exactSampling eosToken firstToken
      acceptedCap answers
    { run with
      session := cycled.1
      behind := run.behind && cycled.2.toOption.isNone }
  | .rewind pos restore replay =>
    let keep := min pos.toNat run.session.checkpoint.length
    { run with
      session := rewind target config run.session pos restore replay
      -- back to before a two-token cycle: the logits stay those after it
      behind :=
        if keep < run.session.checkpoint.length then decide (keep = run.session.rollbackPos)
        else run.behind }
  | .invalidate => { run with session := invalidate run.session }
  | .save written =>
    match savePayload config run.session written with
    | .ok payload => { run with payloads := run.payloads ++ [payload] }
    | .error _ => run
  | .load index extent syncBefore syncAfter =>
    match run.payloads[index]? with
    | none => run
    | some payload =>
      match loadPayload config run.session payload extent syncBefore syncAfter with
      | (session, .ok ()) => { run with session := session, behind := false }
      -- the store invalidates the session after a failed load
      | (session, .error _) => { run with session := invalidate session }

def Run.steps (run : Run σ Λ) (ops : List (Op σ Λ)) : Run σ Λ :=
  ops.foldl (Run.step target config argmax) run

end Runs

/-- The callers' contract: tokens are evaluated on a valid checkpoint only. -/
def Op.Admissible (run : Run σ Λ) : Op σ Λ → Prop
  | .eval _ _ => run.session.checkpointValid = true
  | .cycle _ _ _ _ _ => run.session.checkpointValid = true
  | _ => True

/-- The logits are not relied on while they belong to another position: no save, and no sync to
exactly the checkpoint. -/
def Op.LogitsCurrent (run : Run σ Λ) : Op σ Λ → Prop
  | .sync prompt _ =>
    run.session.checkpointValid = true → run.session.checkpoint = prompt → run.behind = false
  | .save _ => run.session.checkpointValid = true → run.behind = false
  | _ => True

/-- The operations of a run all meet a condition on the state before them. -/
def Run.Along (target : Recurrent Nat σ Λ) (config : Config) (argmax : Λ → Nat)
    (allowed : Run σ Λ → Op σ Λ → Prop) : Run σ Λ → List (Op σ Λ) → Prop
  | _, [] => True
  | run, op :: ops =>
    allowed run op ∧ Run.Along target config argmax allowed (run.step target config argmax op) ops

/-- The invariant of a run. -/
structure RunInv (target : Recurrent Nat σ Λ) (config : Config) (run : Run σ Λ) : Prop where
  inv : Inv target run.session
  scored : run.session.checkpointValid = true → run.behind = false →
    run.session.logits = target.score run.session.checkpoint
  payloads : ∀ payload ∈ run.payloads, GoodPayload target config payload

theorem RunInv.unmoved {run : Run σ Λ} (h : RunInv target config run) {after : Ds4Session σ Λ}
    (hinv : Inv target after) (hunmoved : Unmoved run.session after) :
    RunInv target config { run with session := after } where
  inv := hinv
  scored := by
    intro hvalid hbehind
    obtain ⟨hbefore, hcheckpoint, hlogits⟩ := hunmoved hvalid
    show after.logits = target.score after.checkpoint
    rw [hlogits, hcheckpoint]
    exact h.scored hbefore hbehind
  payloads := h.payloads

theorem RunInv.scoredBy {run : Run σ Λ} (h : RunInv target config run) {after : Ds4Session σ Λ}
    (hinv : Inv target after) (hscored : Scored target after) (behind : Bool) :
    RunInv target config { run with session := after, behind := behind } where
  inv := hinv
  scored := fun _ _ => hscored.2
  payloads := h.payloads

theorem invalidate_inv (session : Ds4Session σ Λ) : Inv target (invalidate session) :=
  inv_of_invalid rfl rfl

theorem RunInv.after_sync {run : Run σ Λ} (h : RunInv target config run) (prompt : List Nat)
    (answers : SyncAnswers σ Λ) :
    RunInv target config (run.step target config argmax (.sync prompt answers)) := by
  cases hsync : sync target config run.session prompt answers with
  | mk after result =>
    obtain ⟨hinv, hok, hnot⟩ := sync_spec h.inv hsync
    simp only [Run.step, hsync]
    cases result with
    | ok =>
      obtain ⟨-, hscored | ⟨hvalid, hcheckpoint, rfl⟩⟩ := hok rfl
      · exact h.scoredBy hinv hscored _
      · simp only [hvalid, hcheckpoint, decide_true, Bool.and_true]
        exact h
    | failed message => exact h.unmoved hinv (hnot nofun nofun)
    | interrupted =>
      by_cases hearly : (answers.cancel 0 || answers.cancel 1) = true
      · rw [hearly, Bool.not_true, Bool.or_false]
        exact h.unmoved hinv (hnot nofun fun _ => Bool.or_eq_true_iff.mp hearly)
      · rw [Bool.not_eq_true] at hearly
        rw [hearly, Bool.not_false, Bool.or_true]
        exact ⟨hinv, fun _ hbehind => (by cases hbehind), h.payloads⟩

theorem RunInv.after_eval {run : Run σ Λ} (h : RunInv target config run) {token : Nat}
    {answer : Forward σ Λ} (hvalid : run.session.checkpointValid = true) :
    RunInv target config (run.step target config argmax (.eval token answer)) := by
  cases heval : evalInternal target config run.session token false answer with
  | mk after result =>
    obtain ⟨hinv, hok, hnot⟩ := evalInternal_spec h.inv hvalid Bool.false_ne_true.elim heval
    simp only [Run.step, heval]
    cases result with
    | ok =>
      obtain ⟨-, hscored, -⟩ := hok rfl
      exact h.scoredBy hinv hscored _
    | error message =>
      simp only [Except.toOption, Option.isNone_none, Bool.and_true]
      exact h.unmoved hinv (hnot nofun)

theorem RunInv.after_cycle {run : Run σ Λ} (h : RunInv target config run) {exactSampling : Bool}
    {eosToken : Option Nat} {firstToken acceptedCap : Nat} {answers : CycleAnswers σ Λ}
    (hvalid : run.session.checkpointValid = true) :
    RunInv target config (run.step target config argmax
      (.cycle exactSampling eosToken firstToken acceptedCap answers)) := by
  cases hcycle : specCycle target config argmax run.session exactSampling eosToken firstToken
      acceptedCap answers with
  | mk after result =>
    have hsound := specCycle_spec h.inv hvalid hcycle
    simp only [Run.step, hcycle]
    cases result with
    | ok accepted =>
      obtain ⟨-, -, hcommitted⟩ := hsound.accepted accepted rfl
      exact h.scoredBy hcommitted.inv hcommitted.scored _
    | error message =>
      obtain ⟨hinv, hunmoved⟩ := hsound.failed ⟨message, rfl⟩
      simp only [Except.toOption, Option.isNone_none, Bool.and_true]
      exact h.unmoved hinv hunmoved

theorem RunInv.after_rewind {run : Run σ Λ} (h : RunInv target config run) (pos : Int)
    (restore : Copy σ) (replay : Forward σ Λ) :
    RunInv target config (run.step target config argmax (.rewind pos restore replay)) := by
  obtain ⟨hinv, hstay, hback⟩ := rewind_spec config pos restore replay h.inv
  simp only [Run.step]
  by_cases hless : min pos.toNat run.session.checkpoint.length < run.session.checkpoint.length
  · simp only [if_pos hless]
    refine ⟨hinv, fun hvalid hbehind => ?_, h.payloads⟩
    exact (hback hless (by simpa using hbehind) hvalid).2
  · simp only [if_neg hless]
    exact h.unmoved hinv (hstay (by omega))

theorem RunInv.after_save {run : Run σ Λ} (h : RunInv target config run) {written : Bool}
    (hcurrent : run.session.checkpointValid = true → run.behind = false) :
    RunInv target config (run.step target config argmax (.save written)) := by
  simp only [Run.step]
  cases hsave : savePayload config run.session written with
  | error message => exact h
  | ok payload =>
    obtain ⟨-, hgood⟩ := savePayload_spec h.inv
      (fun hvalid => h.scored hvalid (hcurrent hvalid)) hsave
    refine ⟨h.inv, h.scored, fun other hother => ?_⟩
    rcases List.mem_append.mp hother with hother | hother
    · exact h.payloads other hother
    · rw [List.mem_singleton.mp hother]
      exact hgood

theorem RunInv.after_load {run : Run σ Λ} (h : RunInv target config run) (index : Nat)
    (extent : Extent σ Λ) (syncBefore syncAfter : Bool) :
    RunInv target config
      (run.step target config argmax (.load index extent syncBefore syncAfter)) := by
  simp only [Run.step]
  cases hindex : run.payloads[index]? with
  | none => exact h
  | some payload =>
    have hgood := h.payloads payload (List.mem_of_getElem? hindex)
    simp only
    cases hload : loadPayload config run.session payload extent syncBefore syncAfter with
    | mk after result =>
      cases result with
      | error message => exact h.unmoved (invalidate_inv after) (unmoved_of_invalid rfl)
      | ok =>
        obtain ⟨hcheckpoint, -, hgraph, hlogits, hrollback⟩ := loadPayload_spec hload
        refine ⟨⟨fun _ => ?_, fun hrecorded => ?_⟩, fun _ _ => ?_, h.payloads⟩
        · show after.graph = target.fold after.checkpoint
          rw [hgraph, hcheckpoint]
          exact hgood.graph
        · rw [hrollback] at hrecorded
          cases hrecorded
        · show after.logits = target.score after.checkpoint
          rw [hlogits, hcheckpoint]
          exact hgood.logits

theorem RunInv.step {run : Run σ Λ} (h : RunInv target config run) {op : Op σ Λ}
    (hadmissible : op.Admissible run) (hcurrent : op.LogitsCurrent run) :
    RunInv target config (run.step target config argmax op) := by
  cases op with
  | sync prompt answers => exact h.after_sync prompt answers
  | eval token answer => exact h.after_eval hadmissible
  | cycle exactSampling eosToken firstToken acceptedCap answers => exact h.after_cycle hadmissible
  | rewind pos restore replay => exact h.after_rewind pos restore replay
  | invalidate => exact h.unmoved (invalidate_inv _) (unmoved_of_invalid rfl)
  | save written => exact h.after_save hcurrent
  | load index extent syncBefore syncAfter => exact h.after_load index extent syncBefore syncAfter

theorem RunInv.along (ops : List (Op σ Λ)) : ∀ {run : Run σ Λ}, RunInv target config run →
    Run.Along target config argmax (fun run op => op.Admissible run ∧ op.LogitsCurrent run)
      run ops →
    RunInv target config (run.steps target config argmax ops) := by
  induction ops with
  | nil =>
    intro run h _
    exact h
  | cons op ops ih =>
    intro run h halong
    obtain ⟨⟨hadmissible, hcurrent⟩, hrest⟩ := halong
    exact ih (h.step hadmissible hcurrent) hrest

/-- A session as `ds4_session_create` leaves it; its buffers hold anything. -/
def newSession (logits : Λ) (graph kdaBackup : σ) : Ds4Session σ Λ where
  checkpoint := []
  checkpointValid := false
  logits := logits
  graph := graph
  kdaBackup := kdaBackup
  glmDenseCacheLen := 0
  glmMtpHave := false
  glmMtpDraft := 0
  glmMtpParent := 0
  glmMtpMinPos := 0
  rollbackValid := false
  rollbackPos := 0
  rollbackDenseLen := 0
  rollbackFirstToken := 0

def newRun (logits : Λ) (graph kdaBackup : σ) : Run σ Λ :=
  ⟨newSession logits graph kdaBackup, [], false⟩

/-! ## The timeline -/

/-- A target whose state and whose logits are the tokens themselves. -/
def tokenTarget : Recurrent Nat (List Nat) (List Nat) where
  reset := []
  step := fun state token => state ++ [token]
  logits := id

def sampleConfig : Config where
  ctxSize := 16
  graphCtxSize := 16
  ctxCap := 8
  compactCacheCap := 16
  indexedPrefillCap := 4
  indexerTopK := 8
  fullKvCache := true
  useIndexedPrefill := true
  glmMtp := true
  layout := ⟨2, 3, 3, 100⟩
  usesFullIndexer := fun layer => layer == 1
  backendName := "cuda"
  ctxCap_pos := by decide
  compact_le := by decide
  indexed_pos := fun _ => by decide

/-- Every device call succeeds and nothing cancels. -/
def smoothSync : SyncAnswers (List Nat) (List Nat) := ⟨fun _ => false, .ok, fun _ => .ok⟩

def smoothCycle (draft : Nat) : CycleAnswers (List Nat) (List Nat) :=
  ⟨true, .ok, true, .ok, .ok, true, true, false, none, .ok, .ok, .ok, some draft⟩

/-- **A session's timeline is sound.** In every state of every run in which the logits are not
relied on while they are behind: a valid checkpoint is the graph's, a `sync` that returns 0 leaves
exactly the prompt and its logits, and every payload holds the fold and the logits of its tokens
and, unless it fills the context, loads back into any session. -/
theorem session_sound (target : Recurrent Nat σ Λ) (config : Config) (argmax : Λ → Nat)
    (logits : Λ) (graph kdaBackup : σ) (ops : List (Op σ Λ))
    (halong : Run.Along target config argmax
      (fun run op => op.Admissible run ∧ op.LogitsCurrent run)
      (newRun logits graph kdaBackup) ops)
    (run : Run σ Λ) (hrun : run = (newRun logits graph kdaBackup).steps target config argmax ops) :
    (run.session.checkpointValid = true →
        run.session.graph = target.fold run.session.checkpoint) ∧
      (∀ prompt answers, Op.LogitsCurrent run (.sync prompt answers) →
        (sync target config run.session prompt answers).2 = .ok →
        (sync target config run.session prompt answers).1.checkpoint = prompt ∧
          (sync target config run.session prompt answers).1.logits = target.score prompt) ∧
      ∀ payload ∈ run.payloads,
        payload.graph = target.fold payload.tokens ∧
          payload.logits = target.score payload.tokens ∧
          (payload.tokens.length < config.ctxSize → ∀ session,
            (loadPayload config session payload .complete true true).2 = .ok () ∧
              (loadPayload config session payload .complete true true).1.checkpoint =
                payload.tokens ∧
              (loadPayload config session payload .complete true true).1.graph =
                target.fold payload.tokens ∧
              (loadPayload config session payload .complete true true).1.logits =
                target.score payload.tokens) := by
  have h : RunInv target config run := by
    rw [hrun]
    exact RunInv.along ops ⟨inv_of_invalid rfl rfl, nofun, nofun⟩ halong
  refine ⟨h.inv.graph, fun prompt answers hcurrent hok => ?_, fun payload hpayload => ?_⟩
  · cases hsync : sync target config run.session prompt answers with
    | mk after result =>
      rw [hsync] at hok
      obtain ⟨-, hdone, -⟩ := sync_spec h.inv hsync
      obtain ⟨hcheckpoint, hscored | ⟨hvalid, hsame, rfl⟩⟩ := hdone hok
      · refine ⟨hcheckpoint, ?_⟩
        rw [← hcheckpoint]
        exact hscored.2
      · refine ⟨hcheckpoint, ?_⟩
        rw [← hcheckpoint]
        exact h.scored hvalid (hcurrent hvalid hsame)
  · have hgood := h.payloads payload hpayload
    refine ⟨hgood.graph, hgood.logits, fun hroom session => ?_⟩
    have hloads := hgood.loads hroom session
    cases hload : loadPayload config session payload .complete true true with
    | mk after result =>
      rw [hload] at hloads
      simp only at hloads
      subst hloads
      obtain ⟨hcheckpoint, -, hgraph, hlogits, -⟩ := loadPayload_spec hload
      exact ⟨rfl, hcheckpoint, hgraph.trans hgood.graph, hlogits.trans hgood.logits⟩

/-- Two cycles, a save, a rewind into the second cycle, another turn, and the payload again. -/
def resumedOps : List (Op (List Nat) (List Nat)) :=
  [.sync [5] smoothSync, .cycle false none 1 17 (smoothCycle 3),
    .cycle false none 2 17 (smoothCycle 7), .save true, .rewind 3 .ok .ok,
    .sync [5, 1, 2, 9] smoothSync, .load 0 .complete true true]

theorem session_sound_sample :
    ((newRun [] [] []).steps tokenTarget sampleConfig List.length resumedOps).session.graph =
        tokenTarget.fold [5, 1, 2, 3] ∧
      (sync tokenTarget sampleConfig
          ((newRun [] [] []).steps tokenTarget sampleConfig List.length resumedOps).session
          [5, 1, 2, 3] smoothSync).1.logits = tokenTarget.score [5, 1, 2, 3] := by
  obtain ⟨hgraph, hsync, -⟩ := session_sound tokenTarget sampleConfig List.length [] [] []
    resumedOps
    ⟨⟨trivial, nofun⟩, ⟨rfl, trivial⟩, ⟨rfl, trivial⟩, ⟨trivial, fun _ => rfl⟩, ⟨trivial, trivial⟩,
      ⟨trivial, fun _ _ => rfl⟩, ⟨trivial, trivial⟩, trivial⟩ _ rfl
  exact ⟨hgraph (by decide), (hsync [5, 1, 2, 3] smoothSync (fun _ _ => rfl) (by decide)).2⟩

/-! ## Logits that are behind -/

/-- One prompt token, a plain cycle, a two-token cycle, and back to before it. -/
def rewoundOps : List (Op (List Nat) (List Nat)) :=
  [.sync [5] smoothSync, .cycle false none 1 17 (smoothCycle 3),
    .cycle false none 2 17 (smoothCycle 7), .rewind 2 .ok .ok]

/-- After the rewind, a `sync` to the two remaining tokens evaluates nothing and returns 0 over the
logits of the four tokens that were there before. -/
theorem rewound_sync_keeps_stale_logits :
    Run.Along tokenTarget sampleConfig List.length (fun run op => op.Admissible run)
        (newRun [] [] []) rewoundOps ∧
      (sync tokenTarget sampleConfig
          ((newRun [] [] []).steps tokenTarget sampleConfig List.length rewoundOps).session [5, 1]
          smoothSync).2 = .ok ∧
      (sync tokenTarget sampleConfig
          ((newRun [] [] []).steps tokenTarget sampleConfig List.length rewoundOps).session [5, 1]
          smoothSync).1.logits = [5, 1, 2, 3] ∧
      (sync tokenTarget sampleConfig
          ((newRun [] [] []).steps tokenTarget sampleConfig List.length rewoundOps).session [5, 1]
          smoothSync).1.logits ≠ tokenTarget.score [5, 1] := by
  refine ⟨⟨trivial, rfl, rfl, trivial, trivial⟩, ?_, ?_, ?_⟩
  · decide
  · decide
  · decide

end Spark.Glm
