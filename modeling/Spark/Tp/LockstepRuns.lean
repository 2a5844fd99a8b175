import Spark.Tp.Lockstep

/-!
# Runs of a tensor-parallel pair

However the two ranks are scheduled, the worker is what the leader's calls make of it once it has served the frames
under way, and its replies come in the order the leader reads them in.

* **`mirrored`**, **`answers`** — the worker that a leader works with, and what the leader is still to get.
* **`call_serves`**, **`receive_steady`** — the leader's two moves keep both.
* **`lockstep_run`** — every run: no frame stops the worker, no reply is taken for another, nothing waits in vain.
-/

namespace Spark.Tp

section Sessions

variable {S : Type} {sessions : List (UInt64 × S)} {id id' : UInt64} {f : S → S}

theorem sessionFind_update : sessionFind (sessionUpdate id f sessions) id' =
    if id' = id then (sessionFind sessions id').map f else sessionFind sessions id' := by
  induction sessions with
  | nil => simp [sessionUpdate, sessionFind]
  | cons entry sessions ih =>
    unfold sessionFind at ih ⊢
    rw [sessionUpdate]
    by_cases hzero : id' = 0
    · simp [hzero]
    · simp only [hzero, if_false] at ih ⊢
      by_cases hentry : entry.1 = id
      · by_cases hsame : id' = id
        · simp [hentry, hsame]
        · have hother : ¬ id = id' := fun h => hsame h.symm
          simp [hentry, hsame, hother]
      · by_cases hsame : id' = id
        · have hother : ¬ entry.1 = id' := fun h => hentry (h.trans hsame)
          simp only [if_pos hsame] at ih ⊢
          simp [hentry, hother, ih]
        · simp only [if_neg hsame] at ih ⊢
          by_cases hfound : entry.1 = id'
          · simp [hfound, hsame]
          · simp [hentry, hfound, ih]

@[simp] theorem live_update :
    (sessionFind (sessionUpdate id f sessions) id').isSome = (sessionFind sessions id').isSome := by
  rw [sessionFind_update]
  split
  · exact Option.isSome_map
  · rfl

end Sessions

section Model

variable {S Λ : Type} {engine : Engine S Λ} {leader leader' : Leader S Λ} {frames : List Frame}

@[simp] theorem live_evalItems (sessions : List (UInt64 × S)) (items : List BatchItem) (id : UInt64) :
    (sessionFind (evalItems engine sessions items) id).isSome = (sessionFind sessions id).isSome := by
  induction items generalizing sessions with
  | nil => rfl
  | cons item items ih =>
    show (sessionFind (evalItems engine (sessionUpdate item.sessionId _ sessions) items) id).isSome = _
    rw [ih, live_update]

/-- The worker does not take on the session that the leader registers. -/
def refused (engine : Engine S Λ) (leader : Leader S Λ) : Bool :=
  match leader.task with
  | .registering id ctxSize => !admits engine leader.sessions id ctxSize
  | _ => false

/-- The worker that a leader works with. -/
def mirrored (engine : Engine S Λ) (leader : Leader S Λ) : Worker S :=
  match leader.task with
  | .registering id ctxSize =>
    if admits engine leader.sessions id ctxSize then ⟨leader.sessions ++ [(id, engine.create ctxSize)], none, none⟩
    else ⟨leader.sessions, none, none⟩
  | .verifying id drafts => ⟨leader.sessions, some (id, drafts), none⟩
  | .closed => .left 0
  | _ => ⟨leader.sessions, none, none⟩

/-- The reply to a wait. -/
def answer (engine : Engine S Λ) (leader : Leader S Λ) : Wait → List (Reply Λ)
  | .ack id => [.ack id (if refused engine leader then 1 else 0)]
  | .logits id => ((sessionFind leader.sessions id).map fun s => Reply.logits (engine.half s)).toList

/-- All that the leader is still to get. -/
def answers (engine : Engine S Λ) (leader : Leader S Λ) : List (Reply Λ) :=
  leader.waits.flatMap (answer engine leader)

/-- A registration waits for its acknowledgement alone, and other tasks are on sessions that are there. -/
def Leader.Busy (leader : Leader S Λ) : Prop :=
  match leader.task with
  | .registering id _ => leader.waits = [.ack id]
  | .syncing id _ | .verifying id _ => leader.live id = true
  | .idle | .batching _ | .closed => True

/-- A leader in the midst of a run. -/
structure Sound (engine : Engine S Λ) (leader : Leader S Λ) : Prop where
  live : ∀ id, Wait.logits id ∈ leader.waits → leader.live id = true
  merged : ∀ merge ∈ leader.merges, merge.2 = engine.half merge.1
  intact : leader.broken = false
  busy : leader.Busy

/-- What a leader is busy with. -/
theorem Sound.busy_of (hsound : Sound engine leader) {task : Task} (htask : leader.task = task) :
    Leader.Busy { leader with task } := by
  subst htask
  exact hsound.busy

theorem busy_idle (hidle : leader.task = .idle) : leader.Busy := by
  rw [Leader.Busy, hidle]
  trivial

/-- The tasks in which the worker has just the leader's sessions. -/
def Task.plain : Task → Bool
  | .idle | .syncing _ _ | .batching _ => true
  | .registering _ _ | .verifying _ _ | .closed => false

/-- Between calls the worker has the leader's sessions. -/
theorem mirrored_plain (hplain : leader.task.plain = true) : mirrored engine leader = ⟨leader.sessions, none, none⟩ := by
  unfold mirrored
  cases htask : leader.task with
  | idle | syncing | batching => rfl
  | registering | verifying | closed =>
    rw [htask] at hplain
    cases hplain

theorem refused_plain (hplain : leader.task.plain = true) : refused engine leader = false := by
  unfold refused
  cases htask : leader.task with
  | idle | syncing | batching | verifying | closed => rfl
  | registering =>
    rw [htask] at hplain
    cases hplain

theorem plain_of_idle (hidle : leader.task = .idle) : leader.task.plain = true := by
  rw [hidle]
  rfl

/-- A wait for logits is answered by the worker's send. -/
theorem answer_waitLogits (id : UInt64) :
    (waitLogits engine id).flatMap (answer engine leader) = sendLogits engine leader.sessions id := by
  unfold waitLogits sendLogits
  split
  · exact List.append_nil _
  · rfl

/-- Each item of a batch is answered by its half. -/
theorem answer_items (items : List BatchItem) :
    (items.flatMap fun item => waitLogits engine item.sessionId).flatMap (answer engine leader) =
      items.flatMap fun item => sendLogits engine leader.sessions item.sessionId := by
  rw [List.flatMap_assoc]
  apply List.flatMap_congr
  intro item _
  exact answer_waitLogits item.sessionId

theorem mem_waitLogits {id id' : UInt64} (hmem : Wait.logits id' ∈ waitLogits engine id) : id' = id := by
  unfold waitLogits at hmem
  split at hmem
  · exact Wait.logits.inj (List.mem_singleton.mp hmem)
  · cases hmem

/-! ## Calls -/

/-- A call keeps the leader sound, and its frames make of the worker what it makes of the leader's sessions. -/
structure Served (engine : Engine S Λ) (leader leader' : Leader S Λ) (frames : List Frame) : Prop where
  sound : Sound engine leader'
  served : Link.serveAll (serve engine 0) (mirrored engine leader) frames =
    some (mirrored engine leader', answers engine leader')

variable {id : UInt64} {items : List BatchItem}

theorem serve_command (sessions : List (UInt64 × S)) (command : Command) :
    serve engine 0 ⟨sessions, none, none⟩ (.command command) =
      some (serveCommand engine ⟨sessions, none, none⟩ 0 command) :=
  rfl

/-- A leader behind a call that changed its sessions. -/
theorem Sound.with_sessions (hsound : Sound engine leader) (sessions : List (UInt64 × S)) (evalSeq : UInt64)
    (waits : List Wait) {task : Task}
    (hlive : ∀ id, Wait.logits id ∈ waits → (sessionFind sessions id).isSome = true)
    (hbusy : Leader.Busy { leader with sessions, evalSeq, waits, task }) :
    Sound engine { leader with sessions, evalSeq, waits, task } where
  live := hlive
  merged := hsound.merged
  intact := hsound.intact
  busy := hbusy

theorem answer_ack (hplain : leader.task.plain = true) : answer engine leader (.ack id) = [.ack id 0] := by
  rw [answer, refused_plain hplain]
  rfl

/-- `register_session`: both ranks know the session, or neither does once it is refused. -/
theorem register_served (hsound : Sound engine leader) (hidle : leader.task = .idle) (ctxSize : Int32) :
    Served engine leader (sessionTpRegister leader ctxSize).1 (sessionTpRegister leader ctxSize).2 := by
  unfold sessionTpRegister
  generalize (if leader.nextSessionId + 1 = 0 then leader.nextSessionId + 1 + 1 else leader.nextSessionId + 1) = id
  refine ⟨?_, ?_⟩
  · exact {
      live := fun id' hmem => by cases List.mem_singleton.mp hmem
      merged := hsound.merged
      intact := hsound.intact
      busy := rfl }
  · rw [mirrored_plain (plain_of_idle hidle)]
    apply Link.serveAll_one
    -- the worker answers by whether it took the session on
    rw [serve_command, serveCommand, answers, mirrored]
    dsimp only
    rw [List.flatMap_singleton, answer, refused]
    dsimp only
    by_cases hadmits : admits engine leader.sessions id ctxSize = true
    · simp [hadmits]
    · simp [hadmits]

/-- A freed session is gone on both ranks. -/
theorem free_served (hsound : Sound engine leader) (hidle : leader.task = .idle) (hlive : leader.live id = true) :
    Served engine leader (sessionFree leader id).1 (sessionFree leader id).2 := by
  have hfound : (sessionFind leader.sessions id).isSome = true := hlive
  have hplain := plain_of_idle hidle
  have hbehind : (sessionFree leader id).1.task.plain = true := hplain
  refine ⟨hsound.with_sessions _ _ _ (fun id' hmem => ?_) (busy_idle hidle), ?_⟩
  · cases List.mem_singleton.mp hmem
  · rw [mirrored_plain hplain, mirrored_plain hbehind]
    apply Link.serveAll_one
    rw [serve_command, serveCommand, if_pos hfound, answers]
    show _ = some (_, [Wait.ack id].flatMap (answer engine (sessionFree leader id).1))
    rw [List.flatMap_singleton, answer_ack hbehind]
    rfl

/-- A call of one command, behind which the worker has just the leader's sessions. -/
theorem served_of_command (hsound : Sound engine leader) (hidle : leader.task = .idle) {command : Command}
    {sessions : List (UInt64 × S)} {evalSeq : UInt64} {waits : List Wait} {task : Task} {replies : List (Reply Λ)}
    (hplain : task.plain = true)
    (hserve : serveCommand engine ⟨leader.sessions, none, none⟩ 0 command = (⟨sessions, none, none⟩, replies))
    (hlive : ∀ id, Wait.logits id ∈ waits → (sessionFind sessions id).isSome = true)
    (hbusy : Leader.Busy { leader with sessions, evalSeq, waits, task })
    (hreplies : waits.flatMap (answer engine { leader with sessions, evalSeq, waits, task }) = replies) :
    Served engine leader { leader with sessions, evalSeq, waits, task } [.command command] := by
  refine ⟨hsound.with_sessions sessions evalSeq waits hlive hbusy, ?_⟩
  rw [mirrored_plain (plain_of_idle hidle),
    mirrored_plain (show ({ leader with sessions, evalSeq, waits, task } : Leader S Λ).task.plain = true from hplain)]
  apply Link.serveAll_one
  rw [serve_command, hserve, answers, ← hreplies]

theorem known (hlive : leader.live id = true) : ¬ (sessionFind leader.sessions id).isNone = true := by
  rw [Option.isNone_iff_eq_none, ← Option.not_isSome_iff_eq_none, not_not]
  exact hlive

theorem sync_served (hsound : Sound engine leader) (hidle : leader.task = .idle) (hlive : leader.live id = true)
    (prompt : List Int32) (ok : Bool) :
    Served engine leader (sessionSync engine leader id prompt ok).1 (sessionSync engine leader id prompt ok).2 := by
  have hserve : serveCommand engine ⟨leader.sessions, none, none⟩ 0 (.sync id prompt) =
      (⟨sessionUpdate id (fun s => engine.sync s prompt) leader.sessions, none, none⟩,
        .ack id 0 :: sendLogits engine (sessionUpdate id (fun s => engine.sync s prompt) leader.sessions) id) := by
    rw [serveCommand, if_neg (known hlive), if_pos rfl]
  have hstays : (sessionFind (sessionUpdate id (fun s => engine.sync s prompt) leader.sessions) id).isSome = true := by
    rw [live_update]
    exact hlive
  -- whether the leader's own work comes through makes no difference to the worker
  apply served_of_command hsound hidle rfl hserve
  · intro id' hmem
    rcases List.mem_cons.mp hmem with hack | hmem
    · cases hack
    · rw [mem_waitLogits hmem]
      exact hstays
  · exact hstays
  · rw [List.flatMap_cons, answer_waitLogits, answer_ack]
    · rfl
    · rfl

/-- An eval on the worker, with its half where the vocabulary is split. -/
theorem serve_eval (hlive : leader.live id = true) (seq : UInt64) (token : Int32) :
    serveCommand engine ⟨leader.sessions, none, none⟩ 0 (.eval id seq token) =
      (⟨sessionUpdate id (fun s => engine.eval s token) leader.sessions, none, none⟩,
        sendLogits engine (sessionUpdate id (fun s => engine.eval s token) leader.sessions) id) := by
  rw [serveCommand, if_neg (known hlive), if_pos rfl]

/-- The worker behind an eval that failed on the leader: it has its half sent when the session is invalidated. -/
theorem serve_failed_eval (hlive : leader.live id = true) (seq : UInt64) (token : Int32) :
    Link.serveAll (serve engine 0) ⟨leader.sessions, none, none⟩
        [.command (.eval id seq token), .command (.invalidate id)] =
      some (⟨sessionUpdate id engine.invalidate (sessionUpdate id (fun s => engine.eval s token) leader.sessions),
          none, none⟩,
        sendLogits engine (sessionUpdate id (fun s => engine.eval s token) leader.sessions) id) := by
  have hstays : (sessionFind (sessionUpdate id (fun s => engine.eval s token) leader.sessions) id).isSome = true := by
    rw [live_update]
    exact hlive
  have hevaluated : serve engine 0 ⟨leader.sessions, none, none⟩ (.command (.eval id seq token)) =
      some (⟨sessionUpdate id (fun s => engine.eval s token) leader.sessions, none, none⟩,
        sendLogits engine (sessionUpdate id (fun s => engine.eval s token) leader.sessions) id) := by
    rw [serve_command, serve_eval hlive seq token]
  have hinvalidated : serve engine 0 ⟨sessionUpdate id (fun s => engine.eval s token) leader.sessions, none, none⟩
      (.command (.invalidate id)) = some (⟨sessionUpdate id engine.invalidate
        (sessionUpdate id (fun s => engine.eval s token) leader.sessions), none, none⟩, []) := by
    rw [serve_command, serveCommand, if_neg]
    rw [Option.isNone_iff_eq_none, ← Option.not_isSome_iff_eq_none, not_not]
    exact hstays
  have hboth := Link.serveAll_cons hevaluated (Link.serveAll_one hinvalidated)
  rwa [List.append_nil] at hboth

/-- The leader behind an eval that failed on it. -/
theorem failed_eval_sound (hsound : Sound engine leader) (hidle : leader.task = .idle) (hwaits : leader.waits = [])
    (token : Int32) : Sound engine (sessionEvalProbeTp engine leader id token false).1 := by
  apply hsound.with_sessions _ (leader.evalSeq + 1) leader.waits
  · rw [hwaits]
    exact fun id' hmem => by cases hmem
  · exact busy_idle hidle

theorem eval_served (hsound : Sound engine leader) (hidle : leader.task = .idle) (hwaits : leader.waits = [])
    (hlive : leader.live id = true) (token : Int32) {ok : Bool} (hdrained : (ok || !engine.vocabSplit) = true) :
    Served engine leader (sessionEvalProbeTp engine leader id token ok).1
      (sessionEvalProbeTp engine leader id token ok).2 := by
  cases ok with
  | true =>
    apply served_of_command hsound hidle (plain_of_idle hidle) (serve_eval hlive (leader.evalSeq + 1) token)
    · intro id' hmem
      rw [mem_waitLogits hmem, live_update]
      exact hlive
    · exact busy_idle hidle
    · exact answer_waitLogits id
  | false =>
    -- the worker sends nothing for the eval, and the session is invalidated on both ranks
    have hwhole : engine.vocabSplit = false := by simpa using hdrained
    refine ⟨failed_eval_sound hsound hidle hwaits token, ?_⟩
    have hserve := @serve_failed_eval S Λ engine leader id hlive (leader.evalSeq + 1) token
    rw [sendLogits, hwhole, if_neg Bool.false_ne_true] at hserve
    rw [mirrored_plain (plain_of_idle hidle)]
    refine hserve.trans ?_
    simp [sessionEvalProbeTp, sessionInvalidate, mirrored, answers, hidle, hwaits]

/-- A session that is changed on both ranks, and nothing comes back. -/
theorem update_served (hsound : Sound engine leader) (hidle : leader.task = .idle) (hwaits : leader.waits = [])
    {f : S → S} {command : Command}
    (hserve : serveCommand engine ⟨leader.sessions, none, none⟩ 0 command =
      (⟨sessionUpdate id f leader.sessions, none, none⟩, [])) :
    Served engine leader { leader with sessions := sessionUpdate id f leader.sessions } [.command command] := by
  apply served_of_command hsound hidle (plain_of_idle hidle) hserve
  · rw [hwaits]
    exact fun id' hmem => by cases hmem
  · exact busy_idle hidle
  · rw [hwaits]
    rfl

/-- A verified block stays open on both ranks until its commit frame. -/
theorem verify_served (hsound : Sound engine leader) (hidle : leader.task = .idle) (hwaits : leader.waits = [])
    (hlive : leader.live id = true) (drafts : List Int32) :
    Served engine leader { leader with task := .verifying id drafts } [.command (.verify id drafts)] := by
  refine ⟨?_, ?_⟩
  · exact {
      live := hsound.live
      merged := hsound.merged
      intact := hsound.intact
      busy := hlive }
  · rw [mirrored_plain (plain_of_idle hidle)]
    apply Link.serveAll_one
    rw [serve_command, serveCommand, if_neg (known hlive), if_pos rfl]
    simp [mirrored, answers, hwaits]

/-- The commit frame of a block ends it on both ranks. -/
theorem verifyCommit_served (hsound : Sound engine leader) {drafts : List Int32}
    (htask : leader.task = .verifying id drafts) (hlive : leader.live id = true) (fullAccept replayN : Int32) :
    Served engine leader (sessionTpCommit engine leader id drafts fullAccept replayN true).1
      (sessionTpCommit engine leader id drafts fullAccept replayN true).2 := by
  refine ⟨?_, ?_⟩
  · apply hsound.with_sessions _ leader.evalSeq
    · intro id' hmem
      split at hmem
      · rw [mem_waitLogits hmem, live_update]
        exact hlive
      · cases hmem
    · exact trivial
  · have hinside : mirrored engine leader = ⟨leader.sessions, some (id, drafts), none⟩ := by
      rw [mirrored, htask]
    have hserve : serve engine 0 ⟨leader.sessions, some (id, drafts), none⟩ (.verifyCommit fullAccept replayN) = some
        (⟨sessionUpdate id (fun s => engine.settle s drafts fullAccept replayN) leader.sessions, none, none⟩,
          if fullAccept = 0 ∧ 0 < replayN then sendLogits engine
            (sessionUpdate id (fun s => engine.settle s drafts fullAccept replayN) leader.sessions) id else []) := rfl
    rw [hinside]
    apply Link.serveAll_one
    rw [hserve, answers, sessionTpCommit, if_pos rfl]
    dsimp only
    by_cases hreplays : fullAccept = 0 ∧ 0 < replayN
    · rw [if_pos hreplays, if_pos hreplays, answer_waitLogits]
      rfl
    · rw [if_neg hreplays, if_neg hreplays]
      rfl

theorem evalBatchMetal_served (hsound : Sound engine leader) (hidle : leader.task = .idle)
    (hlive : items.all (fun item => leader.live item.sessionId) = true) (hmany : items.length ≠ 1)
    (hdistinct : ¬ repeats items = true) :
    Served engine leader (sessionsEvalBatchMetal engine leader items true).1
      (sessionsEvalBatchMetal engine leader items true).2 := by
  have hknown : ¬ (¬ items.all (fun item => (sessionFind leader.sessions item.sessionId).isSome) = true ∨
      repeats items = true) := by
    rw [not_or, not_not]
    exact ⟨hlive, hdistinct⟩
  have hserve : serveCommand engine ⟨leader.sessions, none, none⟩ 0 (.evalBatch items) =
      (⟨evalItems engine leader.sessions items, none, none⟩,
        .ack 0 0 :: items.flatMap fun item => sendLogits engine (evalItems engine leader.sessions items)
          item.sessionId) := by
    rw [serveCommand, if_neg hknown, if_pos rfl]
    dsimp only
    rw [if_neg hmany, List.nil_append]
  apply served_of_command hsound hidle rfl hserve
  · intro id hmem
    rcases List.mem_cons.mp hmem with hack | hmem
    · cases hack
    · obtain ⟨item, hitem, hwait⟩ := List.mem_flatMap.mp hmem
      rw [mem_waitLogits hwait, live_evalItems]
      exact List.all_eq_true.mp hlive item hitem
  · exact trivial
  · rw [List.flatMap_cons, answer_items, answer_ack]
    · rfl
    · rfl

/-- A batch of one goes out as an eval, a longer one as a batch. -/
theorem evalBatch_served (hsound : Sound engine leader) (hidle : leader.task = .idle) (hwaits : leader.waits = [])
    (hcall : sessionsEvalBatch engine leader items true = some (leader', frames)) :
    Served engine leader leader' frames := by
  unfold sessionsEvalBatch at hcall
  split at hcall
  case isTrue => cases hcall
  case isFalse hlive =>
    rw [not_or, not_not] at hlive
    split at hcall
    · -- a batch of one is an eval
      rename_i item
      have hone : leader.live item.sessionId = true := List.all_eq_true.mp hlive.2 item List.mem_cons_self
      have hserved := eval_served hsound hidle hwaits hone item.token (show (true || !engine.vocabSplit) = true from rfl)
      rwa [Option.some.inj hcall] at hserved
    · rename_i hmany
      split at hcall
      case isTrue => cases hcall
      case isFalse hdistinct =>
        have hserved := evalBatchMetal_served hsound hidle hlive.2 (fun hone => by
          obtain ⟨item, hitem⟩ := List.length_eq_one_iff.mp hone
          exact hmany item hitem) hdistinct
        rwa [Option.some.inj hcall] at hserved

/-- The prompt goes in on both ranks before the tokens of the other sessions. -/
theorem mixedBatch_served (hsound : Sound engine leader) (hidle : leader.task = .idle) (prompt : List Int32)
    (hprefill : leader.live id = true) (hlive : items.all (fun item => leader.live item.sessionId) = true)
    (hother : ¬ items.any (fun item => item.sessionId = id) = true) (hdistinct : ¬ repeats items = true) :
    Served engine leader (sessionsEvalBatchWithPrefill engine leader id prompt items true).1
      (sessionsEvalBatchWithPrefill engine leader id prompt items true).2 := by
  have hknown : ¬ (¬ items.all (fun item => (sessionFind leader.sessions item.sessionId).isSome) = true ∨
      (sessionFind leader.sessions id).isNone = true ∨ items.any (fun item => item.sessionId = id) = true ∨
      repeats items = true) := by
    rw [not_or, not_not, not_or, not_or]
    exact ⟨hlive, known hprefill, hother, hdistinct⟩
  have hserve : serveCommand engine ⟨leader.sessions, none, none⟩ 0 (.mixedBatch id prompt items) =
      (⟨evalItems engine (sessionUpdate id (fun s => engine.prefill s prompt) leader.sessions) items, none, none⟩,
        .ack id 0 :: (sendLogits engine
            (evalItems engine (sessionUpdate id (fun s => engine.prefill s prompt) leader.sessions) items) id ++
          items.flatMap fun item => sendLogits engine
            (evalItems engine (sessionUpdate id (fun s => engine.prefill s prompt) leader.sessions) items)
            item.sessionId)) := by
    rw [serveCommand, if_neg hknown, if_pos rfl]
  apply served_of_command hsound hidle rfl hserve
  · intro id' hmem
    rw [live_evalItems, live_update]
    rcases List.mem_cons.mp hmem with hack | hmem
    · cases hack
    · rcases List.mem_append.mp hmem with hmem | hmem
      · rw [mem_waitLogits hmem]
        exact hprefill
      · obtain ⟨item, hitem, hwait⟩ := List.mem_flatMap.mp hmem
        rw [mem_waitLogits hwait]
        exact List.all_eq_true.mp hlive item hitem
  · exact trivial
  · rw [List.flatMap_cons, List.flatMap_append, answer_waitLogits, answer_items, answer_ack]
    · rfl
    · rfl

/-- `STOP` ends the worker's loop, and the leader sends nothing behind it. -/
theorem stop_served (hsound : Sound engine leader) (hidle : leader.task = .idle) (hwaits : leader.waits = []) :
    Served engine leader { leader with task := .closed } [.command .stop] := by
  refine ⟨?_, ?_⟩
  · exact {
      live := hsound.live
      merged := hsound.merged
      intact := hsound.intact
      busy := trivial }
  · rw [mirrored_plain (plain_of_idle hidle)]
    apply Link.serveAll_one
    rw [serve_command, serveCommand]
    simp [mirrored, answers, hwaits]

/-- A call is made by a leader that waits for nothing, and is idle or inside of a verified block. -/
theorem call_cases {made : Call} (hcall : call engine leader made = some (leader', frames)) :
    ¬ (leader.broken = true ∨ leader.waits ≠ []) ∧ leader.waits = [] ∧ (leader.task = .idle ∨
      ∃ id drafts fullAccept replayN ok,
        leader.task = .verifying id drafts ∧ made = .verifyCommit fullAccept replayN ok) := by
  unfold call at hcall
  split at hcall
  case isTrue => cases hcall
  case isFalse hready =>
    refine ⟨hready, not_not.mp (not_or.mp hready).2, ?_⟩
    cases htask : leader.task with
    | idle => exact .inl rfl
    | verifying id drafts =>
      rw [htask] at hcall
      cases made with
      | verifyCommit fullAccept replayN ok => exact .inr ⟨id, drafts, fullAccept, replayN, ok, rfl, rfl⟩
      | create | free | sync | eval | verify | evalBatch | mixedBatch | rewind | invalidate | stop => cases hcall
    | registering | syncing | batching | closed =>
      rw [htask] at hcall
      cases made <;> cases hcall

/-- What the leader's calls do to both ranks. -/
theorem call_served {made : Call} (hsound : Sound engine leader) (hdrained : drained engine made = true)
    (hcall : call engine leader made = some (leader', frames)) :
    leader.waits = [] ∧ Served engine leader leader' frames := by
  obtain ⟨hready, hwaits, htask | ⟨id, drafts, fullAccept, replayN, ok, htask, rfl⟩⟩ := call_cases hcall
  all_goals
    refine ⟨hwaits, ?_⟩
    unfold call at hcall
    rw [if_neg hready, htask] at hcall
  · cases made with
    | create ctxSize =>
      obtain ⟨-, hmade⟩ := Option.ite_none_right_eq_some.mp hcall
      cases hmade
      exact register_served hsound htask ctxSize
    | free id =>
      obtain ⟨hlive, hmade⟩ := Option.ite_none_right_eq_some.mp hcall
      cases hmade
      exact free_served hsound htask hlive
    | sync id prompt ok =>
      obtain ⟨hlive, hmade⟩ := Option.ite_none_right_eq_some.mp hcall
      cases hmade
      exact sync_served hsound htask hlive.1 prompt ok
    | eval id token ok =>
      obtain ⟨hlive, hmade⟩ := Option.ite_none_right_eq_some.mp hcall
      have hserved := eval_served hsound htask hwaits hlive token hdrained
      rwa [Option.some.inj hmade] at hserved
    | verify id drafts =>
      obtain ⟨hlive, hmade⟩ := Option.ite_none_right_eq_some.mp hcall
      cases hmade
      exact verify_served hsound htask hwaits hlive drafts
    | verifyCommit => cases hcall
    | evalBatch items ok =>
      have hok : ok = true := hdrained
      subst hok
      exact evalBatch_served hsound htask hwaits hcall
    | mixedBatch id prompt items ok =>
      have hok : ok = true := hdrained
      subst hok
      obtain ⟨hlive, hmade⟩ := Option.ite_none_right_eq_some.mp hcall
      cases hmade
      obtain ⟨-, -, hprefill, hitems, hother, hdistinct⟩ := hlive
      exact mixedBatch_served hsound htask prompt hprefill hitems hother hdistinct
    | rewind id pos =>
      obtain ⟨hlive, hmade⟩ := Option.ite_none_right_eq_some.mp hcall
      cases hmade
      apply update_served hsound htask hwaits
      rw [serveCommand, if_neg (known hlive)]
    | invalidate id =>
      obtain ⟨hlive, hmade⟩ := Option.ite_none_right_eq_some.mp hcall
      cases hmade
      apply update_served hsound htask hwaits
      rw [serveCommand, if_neg (known hlive)]
    | stop =>
      cases hcall
      exact stop_served hsound htask hwaits
  · have hok : ok = true := hdrained
    subst hok
    have hserved := verifyCommit_served hsound htask (hsound.busy_of htask) fullAccept replayN
    rwa [Option.some.inj hcall] at hserved

/-! ## Replies -/

/-- The link of a leader: the worker will be the one it works with, and what it waits for will come. -/
def Steady (engine : Engine S Λ) (leader : Leader S Λ) (link : Link (Worker S) Frame (Reply Λ)) : Prop :=
  Sound engine leader ∧ link.InStep (serve engine 0) (mirrored engine leader) (answers engine leader)

variable {link : Link (Worker S) Frame (Reply Λ)}

/-- A leader whose call is done, with the sessions that the worker has. -/
theorem idle_steady {sessions : List (UInt64 × S)} {merges : List (S × Λ)} (hsound : Sound engine leader)
    (hmerges : ∀ merge ∈ merges, merge.2 = engine.half merge.1)
    (hinStep : link.InStep (serve engine 0) ⟨sessions, none, none⟩ []) :
    Steady engine { leader with sessions, waits := [], task := .idle, merges } link := by
  refine ⟨?_, hinStep⟩
  exact {
    live := fun id hmem => by cases hmem
    merged := hmerges
    intact := hsound.intact
    busy := trivial }

/-- Behind a reply that the leader took for what it is. -/
theorem settled_steady {waits : List Wait} {merges : List (S × Λ)}
    (hsound : Sound engine leader) (hnot : refused engine leader = false)
    (hwaits : ∀ wait ∈ waits, wait ∈ leader.waits) (hmerges : ∀ merge ∈ merges, merge.2 = engine.half merge.1)
    (hregistering : ∀ id ctxSize, leader.task = .registering id ctxSize → waits = [])
    (hinStep : link.InStep (serve engine 0) (mirrored engine leader) (waits.flatMap (answer engine leader))) :
    Steady engine (settled engine { leader with waits, merges }).1
      { link with down := link.down ++ (settled engine { leader with waits, merges }).2 } := by
  unfold settled
  dsimp only
  by_cases hmore : waits ≠ []
  · -- there is more to come for the same call
    rw [if_pos hmore, List.append_nil]
    refine ⟨?_, hinStep⟩
    exact {
      live := fun id hmem => hsound.live id (hwaits _ hmem)
      merged := hmerges
      intact := hsound.intact
      busy := by
        have hbusy := hsound.busy
        unfold Leader.Busy at hbusy ⊢
        cases htask : leader.task with
        | registering id ctxSize => exact absurd (hregistering id ctxSize htask) hmore
        | idle | syncing | batching | verifying | closed =>
          rw [htask] at hbusy
          exact hbusy }
  · rw [if_neg hmore]
    rw [not_not] at hmore
    subst hmore
    cases htask : leader.task with
    | registering id ctxSize =>
      have hadmits : admits engine leader.sessions id ctxSize = true := by
        rw [refused, htask] at hnot
        simpa using hnot
      have hmirror : mirrored engine leader = ⟨leader.sessions ++ [(id, engine.create ctxSize)], none, none⟩ := by
        simp [mirrored, htask, hadmits]
      rw [hmirror] at hinStep
      dsimp only
      rw [List.append_nil]
      exact @idle_steady S Λ engine leader link _ _ hsound hmerges hinStep
    | syncing id ok =>
      have hlive := hsound.busy_of htask
      have hmirror : mirrored engine leader = ⟨leader.sessions, none, none⟩ := by rw [mirrored, htask]
      rw [hmirror] at hinStep
      dsimp only
      cases ok with
      | true =>
        rw [if_pos rfl, List.append_nil]
        exact @idle_steady S Λ engine leader link _ _ hsound hmerges hinStep
      | false =>
        -- the session that failed on the leader is invalidated on both ranks
        have hserve : serve engine 0 ⟨leader.sessions, none, none⟩ (.command (.invalidate id)) =
            some (⟨sessionUpdate id engine.invalidate leader.sessions, none, none⟩, []) := by
          rw [serve_command, serveCommand, if_neg (known hlive)]
        rw [if_neg Bool.false_ne_true]
        exact @idle_steady S Λ engine leader _ _ _ hsound hmerges (hinStep.send (Link.serveAll_one hserve))
    | batching ids =>
      have hmirror : mirrored engine leader = ⟨leader.sessions, none, none⟩ := by rw [mirrored, htask]
      rw [hmirror] at hinStep
      dsimp only
      rw [List.append_nil]
      exact @idle_steady S Λ engine leader link _ _ hsound hmerges hinStep
    | idle | verifying | closed =>
      dsimp only
      rw [List.append_nil]
      refine ⟨?_, ?_⟩
      · exact {
          live := fun id' hmem => by cases hmem
          merged := hmerges
          intact := hsound.intact
          busy := hsound.busy_of htask }
      · have hmirror : mirrored engine { leader with waits := [], merges, task := leader.task } =
            mirrored engine leader := rfl
        rw [← hmirror, htask] at hinStep
        exact hinStep

/-- A reply on its way to a leader is the one it waits for. -/
theorem receive_steady {reply : Reply Λ} {up : List (Reply Λ)} (hsteady : Steady engine leader link)
    (hup : link.up = reply :: up) :
    ∃ out, receive engine leader reply = some out ∧
      Steady engine out.1 ⟨link.replica, link.down ++ out.2, up⟩ := by
  obtain ⟨hsound, hinStep⟩ := hsteady
  obtain ⟨rest, hanswers, hrest⟩ := hinStep.receive hup
  rw [answers] at hanswers
  cases hwaits : leader.waits with
  | nil =>
    rw [hwaits] at hanswers
    cases hanswers
  | cons wait waits =>
    rw [hwaits, List.flatMap_cons] at hanswers
    have hkept : ∀ wait' ∈ waits, wait' ∈ leader.waits := by
      rw [hwaits]
      exact fun wait' hmem => List.mem_cons_of_mem wait hmem
    have hregistering : ∀ id ctxSize, leader.task = .registering id ctxSize → waits = [] := by
      intro id ctxSize htask
      have halone : leader.waits = [.ack id] := hsound.busy_of htask
      rw [hwaits] at halone
      exact (List.cons.inj halone).2
    cases wait with
    | ack id =>
      rw [answer, List.singleton_append] at hanswers
      obtain ⟨rfl, rfl⟩ := List.cons.inj hanswers
      unfold receive
      rw [hwaits]
      dsimp only
      cases hrefused : refused engine leader with
      | false =>
        rw [if_neg Bool.false_ne_true, if_pos ⟨rfl, rfl⟩]
        exact ⟨_, rfl, settled_steady hsound hrefused hkept hsound.merged hregistering hrest⟩
      | true =>
        -- the session is on neither rank
        cases htask : leader.task with
        | registering id' ctxSize =>
          have hadmits : admits engine leader.sessions id' ctxSize = false := by
            rw [refused, htask] at hrefused
            simpa using hrefused
          have hstatus : ¬ (id = id ∧ (1 : Int32) = 0) := fun h => by
            have hne : (1 : Int32) ≠ 0 := by decide
            exact hne h.2
          have hmirror : mirrored engine leader = ⟨leader.sessions, none, none⟩ := by
            simp [mirrored, htask, hadmits]
          rw [hmirror, hregistering id' ctxSize htask] at hrest
          rw [if_pos rfl, if_neg hstatus, declined, htask]
          dsimp only
          refine ⟨_, rfl, ?_⟩
          rw [List.append_nil]
          exact @idle_steady S Λ engine leader _ _ _ hsound hsound.merged hrest
        | idle | syncing | batching | verifying | closed =>
          rw [refused, htask] at hrefused
          cases hrefused
    | logits id =>
      have hlive := hsound.live id (by rw [hwaits]; exact List.mem_cons_self)
      obtain ⟨s, hfound⟩ := Option.isSome_iff_exists.mp hlive
      rw [answer, hfound, Option.map_some, Option.toList_some, List.singleton_append] at hanswers
      obtain ⟨rfl, rfl⟩ := List.cons.inj hanswers
      have hnot : refused engine leader = false := by
        cases htask : leader.task with
        | registering id' ctxSize =>
          have halone : leader.waits = [.ack id'] := hsound.busy_of htask
          rw [hwaits] at halone
          cases halone
        | idle | syncing | batching | verifying | closed => rw [refused, htask]
      unfold receive
      rw [hwaits]
      dsimp only
      rw [hfound, Option.map_some, Option.toList_some]
      refine ⟨_, rfl, ?_⟩
      apply settled_steady hsound hnot hkept _ hregistering hrest
      intro merge hmem
      rcases List.mem_append.mp hmem with hmem | hmem
      · exact hsound.merged merge hmem
      · rw [List.mem_singleton.mp hmem]

/-! ## Runs -/

/-- A turn of the worker that comes through changes nothing for the leader. -/
theorem step_serve {system system' : System S Λ} {rc : Int32} {view : Worker S} {awaited : List (Reply Λ)}
    (hworks : rc = 0) (hinStep : system.link.InStep (serve engine 0) view awaited)
    (hstep : step engine system (.serve rc) = some system') :
    system'.leader = system.leader ∧ system'.link.InStep (serve engine 0) view awaited := by
  subst hworks
  unfold step at hstep
  dsimp only at hstep
  cases hdown : system.link.down with
  | nil =>
    rw [hdown] at hstep
    cases hstep
  | cons frame down =>
    obtain ⟨worker, replies, hserve, hnext⟩ := hinStep.serve_next hdown
    rw [hdown] at hstep
    dsimp only at hstep
    rw [hserve, Option.map_some] at hstep
    cases hstep
    exact ⟨rfl, hnext⟩

theorem step_call {system system' : System S Λ} {made : Call}
    (hstep : step engine system (.call made) = some system') :
    ∃ out, call engine system.leader made = some out ∧ system' = {
      leader := out.1
      link := { system.link with down := system.link.down ++ out.2 } } := by
  unfold step at hstep
  dsimp only at hstep
  cases hcall : call engine system.leader made with
  | none =>
    rw [hcall] at hstep
    cases hstep
  | some out =>
    rw [hcall] at hstep
    cases hstep
    exact ⟨out, rfl, rfl⟩

/-- Every move keeps the two ranks in step, where the worker's work comes through and the replies to a call are
read. -/
theorem step_steady {system system' : System S Λ} {event : Event}
    (hsteady : Steady engine system.leader system.link)
    (hdrained : ∀ made, event = .call made → drained engine made = true) (hworks : ∀ rc, event = .serve rc → rc = 0)
    (hstep : step engine system event = some system') : Steady engine system'.leader system'.link := by
  cases event with
  | call made =>
    obtain ⟨out, hcall, rfl⟩ := step_call hstep
    obtain ⟨hwaits, hserved⟩ := call_served hsteady.1 (hdrained made rfl) hcall
    have hnothing : answers engine system.leader = [] := by
      rw [answers, hwaits]
      rfl
    have hsent := hsteady.2.send hserved.served
    rw [hnothing, List.nil_append] at hsent
    exact ⟨hserved.sound, hsent⟩
  | serve rc =>
    obtain ⟨hleader, hinStep⟩ := step_serve (hworks rc rfl) hsteady.2 hstep
    rw [hleader]
    exact ⟨hsteady.1, hinStep⟩
  | receive =>
    unfold step at hstep
    dsimp only at hstep
    cases hup : system.link.up with
    | nil =>
      rw [hup] at hstep
      cases hstep
    | cons reply up =>
      obtain ⟨out, hreceive, hsteady'⟩ := receive_steady hsteady hup
      rw [hup] at hstep
      dsimp only at hstep
      rw [hreceive] at hstep
      cases hstep
      exact hsteady'

theorem start_steady : Steady engine (System.start : System S Λ).leader System.start.link := by
  refine ⟨?_, [], rfl, rfl⟩
  exact {
    live := fun id hmem => by cases hmem
    merged := fun merge hmem => by cases hmem
    intact := rfl
    busy := trivial }

/-- And so does every run of moves. -/
theorem run_steady {system system' : System S Λ} {events : List Event}
    (hsteady : Steady engine system.leader system.link)
    (hdrained : ∀ made, Event.call made ∈ events → drained engine made = true)
    (hworks : ∀ rc, Event.serve rc ∈ events → rc = 0)
    (hrun : run engine system events = some system') : Steady engine system'.leader system'.link := by
  induction events generalizing system with
  | nil =>
    cases hrun
    exact hsteady
  | cons event events ih =>
    rw [run, List.foldlM_cons] at hrun
    obtain ⟨middle, hstep, hrest⟩ := Option.bind_eq_some_iff.mp hrun
    have hmiddle := step_steady hsteady (fun made heq => hdrained made (heq ▸ List.mem_cons_self))
      (fun rc heq => hworks rc (heq ▸ List.mem_cons_self)) hstep
    exact ih hmiddle (fun made hmem => hdrained made (List.mem_cons_of_mem event hmem))
      (fun rc hmem => hworks rc (List.mem_cons_of_mem event hmem)) hrest

/-- A worker that is in step has not failed. -/
theorem Steady.exit (hsteady : Steady engine leader link) : link.replica.exit ≠ some 1 := by
  intro hfailed
  have hview := hsteady.2.stuck (fun frame => by unfold serve; rw [hfailed]; rfl)
  rw [hview] at hfailed
  have hcode : (some 0 : Option Int32) ≠ some 1 := by decide
  unfold mirrored at hfailed
  cases htask : leader.task with
  | closed =>
    rw [htask] at hfailed
    exact hcode hfailed
  | registering id ctxSize =>
    rw [htask] at hfailed
    dsimp only at hfailed
    split at hfailed
    all_goals cases hfailed
  | idle | syncing | batching | verifying =>
    rw [htask] at hfailed
    cases hfailed

/-- The calls that wait for an acknowledgement first; a batch of one is an eval. -/
def acknowledged : Call → Bool
  | .create _ | .free _ | .sync _ _ _ | .mixedBatch _ _ _ _ => true
  | .evalBatch items _ => decide (items.length ≠ 1)
  | _ => false

/-- The calls that wait for nothing. -/
def unanswered : Call → Bool
  | .rewind _ _ | .invalidate _ => true
  | _ => false

/-- Behind such a call the leader waits for an acknowledgement before anything else. -/
theorem call_acknowledged {made : Call} (hdrained : drained engine made = true) (hacked : acknowledged made = true)
    (hcall : call engine leader made = some (leader', frames)) : ∃ id waits, leader'.waits = .ack id :: waits := by
  obtain ⟨hready, -, htask | ⟨id, drafts, fullAccept, replayN, ok, -, rfl⟩⟩ := call_cases hcall
  · unfold call at hcall
    rw [if_neg hready, htask] at hcall
    cases made with
    | create ctxSize =>
      obtain ⟨-, hmade⟩ := Option.ite_none_right_eq_some.mp hcall
      cases hmade
      exact ⟨_, [], rfl⟩
    | free id =>
      obtain ⟨-, hmade⟩ := Option.ite_none_right_eq_some.mp hcall
      cases hmade
      exact ⟨id, [], rfl⟩
    | sync id prompt ok =>
      obtain ⟨-, hmade⟩ := Option.ite_none_right_eq_some.mp hcall
      cases hmade
      exact ⟨id, _, rfl⟩
    | evalBatch items ok =>
      have hok : ok = true := hdrained
      subst hok
      have hmany : items.length ≠ 1 := of_decide_eq_true hacked
      dsimp only [sessionsEvalBatch] at hcall
      split at hcall
      · cases hcall
      · split at hcall
        · exact absurd rfl hmany
        · split at hcall
          · cases hcall
          · cases hcall
            exact ⟨0, _, rfl⟩
    | mixedBatch id prompt items ok =>
      have hok : ok = true := hdrained
      subst hok
      obtain ⟨-, hmade⟩ := Option.ite_none_right_eq_some.mp hcall
      cases hmade
      exact ⟨id, _, rfl⟩
    | eval | verify | verifyCommit | rewind | invalidate | stop => cases hacked
  · cases hacked

/-- Such a call leaves the leader waiting for nothing. -/
theorem call_unanswered {made : Call} (hsilent : unanswered made = true)
    (hcall : call engine leader made = some (leader', frames)) : leader'.waits = [] ∧ drained engine made = true := by
  obtain ⟨hready, hwaits, htask | ⟨id, drafts, fullAccept, replayN, ok, -, rfl⟩⟩ := call_cases hcall
  · unfold call at hcall
    rw [if_neg hready, htask] at hcall
    cases made with
    | rewind | invalidate =>
      obtain ⟨-, hmade⟩ := Option.ite_none_right_eq_some.mp hcall
      cases hmade
      exact ⟨hwaits, rfl⟩
    | create | free | sync | eval | verify | verifyCommit | evalBatch | mixedBatch | stop => cases hsilent
  · cases hsilent

/-- Where replies are left over in front of those that the leader waits for, they stay there until it reads one. -/
theorem surplus_run {system system' : System S Λ} {events : List Event} {surplus : List (Reply Λ)}
    (hsilent : ∀ made, Event.call made ∈ events → unanswered made = true) (hreceive : Event.receive ∉ events)
    (hworks : ∀ rc, Event.serve rc ∈ events → rc = 0) (hsound : Sound engine system.leader)
    (hinStep : system.link.InStep (serve engine 0) (mirrored engine system.leader)
      (surplus ++ answers engine system.leader))
    (hrun : run engine system events = some system') :
    system'.leader.waits = system.leader.waits ∧ Sound engine system'.leader ∧
      system'.link.InStep (serve engine 0) (mirrored engine system'.leader)
        (surplus ++ answers engine system'.leader) := by
  induction events generalizing system with
  | nil =>
    cases hrun
    exact ⟨rfl, hsound, hinStep⟩
  | cons event events ih =>
    rw [run, List.foldlM_cons] at hrun
    obtain ⟨middle, hstep, hrest⟩ := Option.bind_eq_some_iff.mp hrun
    rw [List.mem_cons, not_or] at hreceive
    have hbehind := @ih middle (fun made hmem => hsilent made (List.mem_cons_of_mem event hmem)) hreceive.2
      (fun rc hmem => hworks rc (List.mem_cons_of_mem event hmem))
    cases event with
    | call made =>
      obtain ⟨out, hcall, rfl⟩ := step_call hstep
      obtain ⟨hnone, hdrained⟩ := call_unanswered (hsilent made List.mem_cons_self) hcall
      obtain ⟨hwaits, hserved⟩ := call_served hsound hdrained hcall
      have hnothing : answers engine system.leader = [] := by
        rw [answers, hwaits]
        rfl
      rw [hnothing, List.append_nil] at hinStep
      obtain ⟨hsame, hreached⟩ := hbehind hserved.sound (hinStep.send hserved.served) hrest
      exact ⟨hsame.trans (hnone.trans hwaits.symm), hreached⟩
    | serve rc =>
      obtain ⟨hleader, hnext⟩ := step_serve (hworks rc List.mem_cons_self) hinStep hstep
      rw [hleader] at hbehind
      exact hbehind hsound hnext hrest
    | receive => exact absurd rfl hreceive.1

/-- An eval that failed on the leader alone leaves the worker's half behind, where the vocabulary is split. -/
theorem failed_eval_leaves {token : Int32} {id : UInt64} (hsteady : Steady engine leader link)
    (hsplit : engine.vocabSplit = true) (hcall : call engine leader (.eval id token false) = some (leader', frames)) :
    Sound engine leader' ∧ ∃ half,
      ({ link with down := link.down ++ frames } : Link (Worker S) Frame (Reply Λ)).InStep (serve engine 0)
        (mirrored engine leader') ([Reply.logits half] ++ answers engine leader') := by
  obtain ⟨hsound, hinStep⟩ := hsteady
  obtain ⟨hready, hwaits, htask | ⟨_, _, _, _, _, -, hother⟩⟩ := call_cases hcall
  · unfold call at hcall
    rw [if_neg hready, htask] at hcall
    dsimp only at hcall
    split at hcall
    case isFalse => cases hcall
    case isTrue hlive =>
      have hknown : (sessionFind leader.sessions id).isSome = true := hlive
      obtain ⟨s, hfound⟩ := Option.isSome_iff_exists.mp hknown
      have hbehind : (sessionEvalProbeTp engine leader id token false).1.waits = [] := hwaits
      have hmirror : mirrored engine (sessionEvalProbeTp engine leader id token false).1 =
          ⟨sessionUpdate id engine.invalidate (sessionUpdate id (fun s => engine.eval s token) leader.sessions),
            none, none⟩ := mirrored_plain (plain_of_idle htask)
      have hnothing : answers engine leader = [] := by
        rw [answers, hwaits]
        rfl
      have hserve := @serve_failed_eval S Λ engine leader id hlive (leader.evalSeq + 1) token
      rw [sendLogits, if_pos hsplit, sessionFind_update, if_pos rfl, hfound] at hserve
      rw [mirrored_plain (plain_of_idle htask), hnothing] at hinStep
      have hsent := hinStep.send hserve
      have hout := Option.some.inj hcall
      obtain ⟨rfl, rfl⟩ : (sessionEvalProbeTp engine leader id token false).1 = leader' ∧
          (sessionEvalProbeTp engine leader id token false).2 = frames := by
        rw [hout]
        exact ⟨rfl, rfl⟩
      refine ⟨failed_eval_sound hsound htask hwaits token, engine.half (engine.eval s token), ?_⟩
      rw [hmirror, answers, hbehind]
      exact hsent
  · cases hother

/-- Where there is a reply too many in front of an acknowledgement, the leader takes it for the acknowledgement. -/
theorem receive_surplus {half : Λ} {id : UInt64} {waits : List Wait} (hwaits : leader.waits = .ack id :: waits) :
    receive engine leader (.logits half) = some ({ leader with broken := true }, []) := by
  unfold receive
  rw [hwaits]

/-- A reply that is read is the first one on its way. -/
theorem step_receive {system system' : System S Λ} (hstep : step engine system .receive = some system') :
    ∃ reply up out, system.link.up = reply :: up ∧ receive engine system.leader reply = some out ∧
      system'.leader = out.1 := by
  unfold step at hstep
  dsimp only at hstep
  cases hup : system.link.up with
  | nil =>
    rw [hup] at hstep
    cases hstep
  | cons reply up =>
    rw [hup] at hstep
    dsimp only at hstep
    cases hreceive : receive engine system.leader reply with
    | none =>
      rw [hreceive] at hstep
      cases hstep
    | some out =>
      rw [hreceive] at hstep
      cases hstep
      exact ⟨reply, up, out, rfl, hreceive, rfl⟩

/-- Where the vocabulary is split, an eval that fails on the leader alone costs the pair its control stream: the half
that the worker sends for it is what the next call that waits for an acknowledgement reads, whatever that call is,
whatever sessions are rewound and invalidated before it, and however the ranks are scheduled. -/
theorem failed_eval_breaks (engine : Engine S Λ) (events before behind : List Event) (id : UInt64) (token : Int32)
    (made : Call) (reached system : System S Λ) (hsplit : engine.vocabSplit = true)
    (hworks : ∀ rc, Event.serve rc ∈ events ++ before ++ behind → rc = 0)
    (hdrained : ∀ made, Event.call made ∈ events → drained engine made = true)
    (hreached : run engine System.start events = some reached)
    (hsilent : ∀ made, Event.call made ∈ before ++ behind → unanswered made = true)
    (hreceive : Event.receive ∉ before ++ behind)
    (hmade : drained engine made = true) (hacked : acknowledged made = true)
    (hrun : run engine reached
      ([.call (.eval id token false)] ++ before ++ [.call made] ++ behind ++ [.receive]) = some system) :
    system.leader.broken = true := by
  simp only [List.mem_append, or_imp, forall_and, not_or] at hworks hsilent hreceive
  have hsteady := run_steady start_steady hdrained hworks.1.1 hreached
  -- the run, one part after the other
  rw [run, List.foldlM_append, List.foldlM_append, List.foldlM_append, List.foldlM_append] at hrun
  simp only [List.foldlM_cons, List.foldlM_nil, bind_pure] at hrun
  obtain ⟨fourth, hfourth, hread⟩ := Option.bind_eq_some_iff.mp hrun
  obtain ⟨third, hthird, hbehindRun⟩ := Option.bind_eq_some_iff.mp hfourth
  obtain ⟨second, hsecond, hcallRun⟩ := Option.bind_eq_some_iff.mp hthird
  obtain ⟨first, hfirst, hbeforeRun⟩ := Option.bind_eq_some_iff.mp hsecond
  obtain ⟨failed, heval, rfl⟩ := step_call hfirst
  obtain ⟨hsound, half, hinStep⟩ := failed_eval_leaves hsteady hsplit heval
  obtain ⟨-, hsound, hinStep⟩ := surplus_run hsilent.1 hreceive.1 hworks.1.2 hsound hinStep hbeforeRun
  obtain ⟨called, hcall, rfl⟩ := step_call hcallRun
  obtain ⟨hwaited, hserved⟩ := call_served hsound hmade hcall
  obtain ⟨wanted, waits, hwaits⟩ := call_acknowledged hmade hacked hcall
  have hnothing : answers engine second.leader = [] := by
    rw [answers, hwaited]
    rfl
  rw [hnothing, List.append_nil] at hinStep
  obtain ⟨hstill, -, hinStep⟩ := surplus_run hsilent.2 hreceive.2 hworks.2 hserved.sound
    (hinStep.send hserved.served) hbehindRun
  -- the half is in front of the acknowledgement
  obtain ⟨reply, up, out, hup, hreply, hsystem⟩ := step_receive hread
  obtain ⟨rest, hfront, -⟩ := hinStep.receive hup
  obtain rfl := (List.cons.inj hfront).1
  rw [receive_surplus (hstill.trans hwaits)] at hreply
  rw [hsystem, ← Option.some.inj hreply]

end Model

/-! ## A session -/

/-- An engine whose sessions are their tokens, with the vocabulary split or not. -/
def tokenEngine (vocabSplit : Bool) : Engine (List Int32) Nat where
  create := fun _ => []
  creates := fun _ => true
  sync := fun _ prompt => prompt
  eval := fun tokens token => tokens ++ [token]
  settle := fun tokens drafts fullAccept replayN =>
    tokens ++ if fullAccept = 0 then drafts.take replayN.toInt.toNat else drafts
  void := fun _ => []
  prefill := fun _ prompt => prompt
  rewind := fun tokens pos => tokens.take pos.toInt.toNat
  invalidate := fun _ => []
  vocabSplit := vocabSplit
  half := List.length

theorem failed_eval_breaks_sample :
    ∃ system, run (tokenEngine true) System.start
        ([.call (.create 64), .serve 0, .receive] ++ ([.call (.eval 1 7 false)] ++ [.serve 0, .call (.rewind 1 0)] ++
          [.call (.sync 1 [7, 8] true)] ++ [.serve 0, .serve 0] ++ [.receive])) = some system ∧
      system.leader.broken = true := by
  refine ⟨_, rfl, ?_⟩
  exact failed_eval_breaks (tokenEngine true) [.call (.create 64), .serve 0, .receive]
    [.serve 0, .call (.rewind 1 0)] [.serve 0, .serve 0] 1 7 (.sync 1 [7, 8] true) _ _ rfl
    (by simp) (by simp [drained]) rfl (by simp [unanswered]) (by simp) rfl rfl rfl

end Spark.Tp
