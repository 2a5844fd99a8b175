import Spark.DFlash2.Block

/-!
# The DFlash2 request loop: `drive_dflash2`

`drive_dflash2` is written against three callbacks. The first half of this module keeps them
abstract, over whatever state they share; the second half plugs in the native engine with a
greedy target and an arbitrary sequence of drafts.

* **`decodeBlock_spec`** — on a ready engine a block succeeds and passes `validate_block`.
* **`decodeLoop_spec`** — the loop hands out what plain greedy decoding hands out.
* **`driveDflash2_lossless`** — the request as a whole.
-/

namespace Spark.DFlash2

open Greedy (Finish)

structure GenerationRequest where
  promptTokenIds : List Nat
  maxNewTokens : Nat
  stopTokenIds : List Nat
  /-- `temperature == 0.0 && top_p == 1.0`. -/
  greedy : Bool

structure DFlash2Outcome where
  finishReason : Finish
  streamedTokens : Nat
  verifyCalls : Nat
  deriving DecidableEq, Repr

/-- `required_context_rows`; `usize` is 64 bits wide. -/
def requiredContextRows (promptTokens maxNewTokens : Nat) : Except String Nat :=
  if maxNewTokens ≤ 1 then .ok promptTokens
  else
    match (Word.checkedAdd 64 promptTokens (maxNewTokens - 1)).bind
        fun rows => Word.checkedAdd 64 rows (blockSize - 1) with
    | none => .error "q27 DFlash2 context length overflow"
    | some rows => .ok rows

def validateRequest (request : GenerationRequest) (contextCapacity : Nat) : Except String Unit :=
  if request.promptTokenIds.isEmpty then .error "q27 DFlash2 prompt cannot be empty"
  else if request.maxNewTokens = 0 then
    .error "q27 DFlash2 max_new_tokens must be greater than zero"
  else if !request.greedy then
    .error "q27 DFlash2 service requires temperature=0 and top_p=1"
  else if request.promptTokenIds.any (fun token => token ≥ vocabulary) then
    .error "q27 DFlash2 prompt contains an out-of-range token"
  else
    match requiredContextRows request.promptTokenIds.length request.maxNewTokens with
    | .error e => .error e
    | .ok required =>
      if required > contextCapacity then
        .error ("q27 DFlash2 request reserves " ++ toString required ++
          " target rows but this service slot has capacity " ++ toString contextCapacity)
      else .ok ()

/-! ## The driver -/

/-- The callbacks of `drive_dflash2`, over the state they share. -/
structure Callbacks (σ : Type) where
  prefill : List Nat → σ → Except String Nat × σ
  decodeBlock : σ → Except String DFlash2BlockResult × σ
  emit : Nat → σ → Except String Unit × σ

/-- The driver just before a call of `decode_block`. -/
structure BlockCall (σ : Type) where
  state : σ
  position : Nat
  streamed : Nat

structure Run (σ : Type) where
  outcome : Except String DFlash2Outcome
  calls : List (BlockCall σ)
  state : σ

section Driver

variable {σ : Type} (callbacks : Callbacks σ) (request : GenerationRequest)

/-- The `for` loop over the emitted tokens of a block. -/
def streamBlock : List Nat → (streamed : Nat) → σ → Except String (Nat × Option Finish) × σ
  | [], streamed, state => (.ok (streamed, none), state)
  | token :: block, streamed, state =>
    if request.stopTokenIds.contains token then (.ok (streamed, some .stop), state)
    else
      match callbacks.emit token state with
      | (.error e, state) => (.error e, state)
      | (.ok (), state) =>
        if Word.wrappingAdd 32 streamed 1 = request.maxNewTokens then
          (.ok (Word.wrappingAdd 32 streamed 1, some .length), state)
        else streamBlock block (Word.wrappingAdd 32 streamed 1) state

/-- The `loop`. A validated block has a token to hand out, so the budget bounds the rounds. -/
def decodeLoop : (fuel anchor position streamed verifyCalls : Nat) → σ → Run σ
  | 0, _, _, _, _, state => ⟨.error "q27 DFlash2 loop bound", [], state⟩
  | fuel + 1, anchor, position, streamed, verifyCalls, state =>
    let call : BlockCall σ := ⟨state, position, streamed⟩
    match callbacks.decodeBlock state with
    | (.error e, state) => ⟨.error e, [call], state⟩
    | (.ok block, state) =>
      match Word.checkedAdd 32 verifyCalls 1 with
      | none => ⟨.error "q27 DFlash2 verify count overflow", [call], state⟩
      | some verifyCalls =>
        match validateBlock block position anchor with
        | .error e => ⟨.error e, [call], state⟩
        | .ok count =>
          match streamBlock callbacks request (block.emittedTokens.take count) streamed state with
          | (.error e, state) => ⟨.error e, [call], state⟩
          | (.ok (streamed, some reason), state) =>
            ⟨.ok ⟨reason, streamed, verifyCalls⟩, [call], state⟩
          | (.ok (streamed, none), state) =>
            let later :=
              decodeLoop fuel block.bonusToken block.newPosition streamed verifyCalls state
            { later with calls := call :: later.calls }

/-- `drive_dflash2`. -/
def driveDflash2 (contextCapacity : Nat) (state : σ) : Run σ :=
  match validateRequest request contextCapacity with
  | .error e => ⟨.error e, [], state⟩
  | .ok () =>
    match callbacks.prefill request.promptTokenIds state with
    | (.error e, state) => ⟨.error e, [], state⟩
    | (.ok anchor, state) =>
      if anchor ≥ vocabulary then
        ⟨.error "q27 DFlash2 prefill returned an out-of-range anchor", [], state⟩
      else if request.stopTokenIds.contains anchor then ⟨.ok ⟨.stop, 0, 0⟩, [], state⟩
      else
        match callbacks.emit anchor state with
        | (.error e, state) => ⟨.error e, [], state⟩
        | (.ok (), state) =>
          if request.promptTokenIds.length ≥ 2 ^ 32 then
            ⟨.error "q27 DFlash2 prompt token count exceeds u32", [], state⟩
          else if 1 = request.maxNewTokens then ⟨.ok ⟨.length, 1, 0⟩, [], state⟩
          else
            decodeLoop callbacks request request.maxNewTokens anchor
              request.promptTokenIds.length 1 0 state

end Driver

/-! ## The native engine -/

/-- The capacity an engine is created with. -/
structure EngineOptions where
  contextCapacity : Nat
  block_le : blockSize ≤ contextCapacity
  le_max : contextCapacity ≤ maxPosition

/-- `q27_dflash2_engine`. `history` stands for the target's rows: the tokens it was fed. -/
structure DFlash2Engine where
  history : List Nat
  position : Nat
  nextAnchor : Nat
  ready : Bool
  verifyCalls : Nat

/-- The engine and the tokens sent to the client. -/
structure Session where
  engine : DFlash2Engine
  emitted : List Nat

section Native

variable (next : List Nat → Nat) (drafts : Nat → Fin draftTokens → Nat) (options : EngineOptions)

/-- `q27_dflash2_engine_prefill` behind the service's conversion of the token count. -/
def prefill (tokens : List Nat) (engine : DFlash2Engine) : Except String Nat × DFlash2Engine :=
  if tokens.length ≥ 2 ^ 32 then (.error "q27 DFlash2 prompt token count exceeds u32", engine)
  else if tokens.length = 0 ∨ tokens.length > options.contextCapacity ∨
      tokens.length > maxPosition then
    (.error "invalid DFlash2 prefill arguments", engine)
  else (.ok (next tokens), ⟨tokens, tokens.length, next tokens, true, 0⟩)

/-- The block `q27_dflash2_engine_decode_block` returns for its candidates. -/
def blockResult (engine : DFlash2Engine) (candidates : List Nat)
    (hlength : candidates.length = blockSize) : DFlash2BlockResult :=
  let verify := acceptGreedy candidates (targetTop1 next engine.history candidates) engine.position
  { structSize := blockResultSize
    abiVersion := engineAbiVersion
    basePosition := engine.position
    newPosition := Word.wrappingAdd 32 engine.position verify.commitLength
    anchorToken := engine.nextAnchor
    acceptedDraftTokens := verify.acceptLength
    emittedCount := verify.commitLength
    bonusToken := verify.bonusToken
    proposedTokens := candidates
    targetTop1 := targetTop1 next engine.history candidates
    emittedTokens := verify.committedTokens
    length_proposedTokens := hlength
    length_targetTop1 := length_targetTop1 ..
    length_emittedTokens := length_committedRow .. }

/-- The anchor and the drafts of the next block. -/
def candidates (engine : DFlash2Engine) : List Nat :=
  engine.nextAnchor :: List.ofFn (drafts engine.verifyCalls)

theorem length_candidates (engine : DFlash2Engine) :
    (candidates drafts engine).length = blockSize := by
  rw [candidates, List.length_cons, List.length_ofFn]
  rfl

/-- The engine after a block: only the committed candidates stay in the target. -/
def commitBlock (engine : DFlash2Engine) (block : DFlash2BlockResult) : DFlash2Engine where
  history := engine.history ++ block.proposedTokens.take block.emittedCount
  position := block.newPosition
  nextAnchor := block.bonusToken
  ready := true
  verifyCalls := engine.verifyCalls + 1

/-- `q27_dflash2_engine_decode_block`: `drafts k` are the drafts of the `k`-th block. -/
def decodeBlock (engine : DFlash2Engine) : Except String DFlash2BlockResult × DFlash2Engine :=
  if !engine.ready ∨ engine.position > options.contextCapacity - blockSize ∨
      engine.position > maxPosition - blockSize then
    (.error "DFlash2 engine is not ready or lacks one verify block", engine)
  else if (candidates drafts engine).any (fun token => token ≥ vocabulary) then
    (.error ("verify DFlash2 target block: " ++ "q27 DFlash2 candidate token is out of range"),
      { engine with ready := false })
  else if (targetTop1 next engine.history (candidates drafts engine)).any
      (fun token => token ≥ vocabulary) then
    (.error ("verify DFlash2 target block: " ++
        "q27 DFlash2 verify: target top-1 token is out of range"), { engine with ready := false })
  else
    let block := blockResult next engine (candidates drafts engine) (length_candidates ..)
    (.ok block, commitBlock engine block)

/-- The callbacks `run_generation` passes, with a client that stays connected. -/
def nativeCallbacks : Callbacks Session where
  prefill := fun tokens session =>
    let answer := prefill next options tokens session.engine
    (answer.1, { session with engine := answer.2 })
  decodeBlock := fun session =>
    let answer := decodeBlock next drafts options session.engine
    (answer.1, { session with engine := answer.2 })
  emit := fun token session => (.ok (), { session with emitted := session.emitted ++ [token] })

end Native

/-! ## Blocks of a ready engine -/

section Proofs

variable {next : List Nat → Nat} {drafts : Nat → Fin draftTokens → Nat} {options : EngineOptions}
  {request : GenerationRequest}

theorem validateRequest_ok {contextCapacity : Nat}
    (h : validateRequest request contextCapacity = .ok ()) :
    request.promptTokenIds ≠ [] ∧ 1 ≤ request.maxNewTokens ∧
      request.promptTokenIds.length ≤ contextCapacity ∧
      (2 ≤ request.maxNewTokens →
        request.promptTokenIds.length + request.maxNewTokens + 6 ≤ contextCapacity) := by
  unfold validateRequest requiredContextRows at h
  split at h <;> try contradiction
  next hempty =>
    split at h <;> try contradiction
    split at h <;> try contradiction
    split at h <;> try contradiction
    have hne : request.promptTokenIds ≠ [] := by simpa using hempty
    split at h
    · contradiction
    · next required hrequired =>
      split at h <;> try contradiction
      split at hrequired
      · cases hrequired
        exact ⟨hne, by omega, by omega, fun _ => by omega⟩
      · split at hrequired
        · contradiction
        · next rows hrows =>
          obtain ⟨sum, hsum, hrest⟩ := Option.bind_eq_some_iff.mp hrows
          obtain ⟨-, rfl⟩ := Word.checkedAdd_eq_some.mp hsum
          obtain ⟨-, rfl⟩ := Word.checkedAdd_eq_some.mp hrest
          cases hrequired
          unfold blockSize at *
          exact ⟨hne, by omega, by omega, fun _ => by omega⟩

/-- The engine between two blocks: its rows are everything handed out except the anchor. -/
structure Ready (engine : DFlash2Engine) (tokens : List Nat) : Prop where
  ready : engine.ready = true
  history : engine.history ++ [engine.nextAnchor] = tokens
  position : engine.position = engine.history.length
  vocabulary : engine.nextAnchor < vocabulary

theorem Ready.length {engine : DFlash2Engine} {tokens : List Nat} (h : Ready engine tokens) :
    tokens.length = engine.position + 1 := by
  rw [← h.history, h.position, List.length_append, List.length_singleton]

theorem candidates_lt (hdrafts : ∀ block slot, drafts block slot < vocabulary)
    {engine : DFlash2Engine} (hanchor : engine.nextAnchor < vocabulary) :
    ∀ token ∈ candidates drafts engine, token < vocabulary := by
  intro token htoken
  rcases List.mem_cons.mp htoken with rfl | htoken
  · exact hanchor
  · obtain ⟨slot, rfl⟩ := (List.mem_ofFn ..).mp htoken
    exact hdrafts _ _

theorem any_ge_eq_false {tokens : List Nat} (h : ∀ token ∈ tokens, token < vocabulary) :
    (tokens.any fun token => token ≥ vocabulary) = false := by
  rw [List.any_eq_false]
  intro token htoken
  simpa using h token htoken

theorem targetTop1_lt (hnext : ∀ history, next history < vocabulary) (history candidates : List Nat) :
    ∀ token ∈ targetTop1 next history candidates, token < vocabulary := by
  intro token htoken
  obtain ⟨row, -, rfl⟩ := List.mem_map.mp htoken
  exact hnext _

/-- Every block of an engine that is where the driver expects it is valid. -/
theorem validBlock_blockResult (hnext : ∀ history, next history < vocabulary)
    {engine : DFlash2Engine} {proposed : List Nat} (hlength : proposed.length = blockSize)
    (hhead : proposed[0]? = some engine.nextAnchor)
    (hproposed : ∀ token ∈ proposed, token < vocabulary)
    (hposition : engine.position + blockSize < 2 ^ 32) :
    ValidBlock (blockResult next engine proposed hlength) engine.position engine.nextAnchor := by
  obtain ⟨haccept, -⟩ :=
    acceptLength_spec proposed (targetTop1 next engine.history proposed) draftTokens
  have htarget := targetTop1_lt hnext engine.history proposed
  have hlengthTop := length_targetTop1 next engine.history proposed
  generalize htop : targetTop1 next engine.history proposed = top at *
  generalize hcommit : acceptLength proposed top draftTokens = accept at *
  have hbonus : top[accept]? = some (top.getD accept 0) := by
    rw [List.getD_eq_getElem?_getD, List.getElem?_eq_getElem (by
      unfold draftTokens blockSize at *
      omega)]
    rfl
  have hbonus_lt := htarget _ (List.mem_of_getElem? hbonus)
  have hrow := committedRow_eq (top.getD accept 0) hlength haccept
  have htaken : ((proposed.drop 1).take accept).length = accept := by
    unfold draftTokens blockSize at *
    simp only [List.length_take, List.length_drop]
    omega
  have hroom : engine.position + (accept + 1) < 2 ^ 32 := by
    unfold draftTokens blockSize at *
    omega
  refine ⟨rfl, rfl, ?_, ?_, ?_, rfl, rfl, hhead, ?_, ?_, ?_, ?_, ?_, hproposed, ?_, ?_⟩ <;>
    simp only [blockResult, acceptGreedy, htop, hcommit, hrow]
  · exact hroom
  · exact haccept
  · exact Word.wrappingAdd_of_lt hroom
  · rw [List.getElem?_append_right (by omega), htaken]
    simp
  · exact hbonus
  · rw [List.take_append, htaken, Nat.sub_self, List.take_of_length_le (by omega), List.drop_take]
    simp
  · intro token htoken
    rw [List.drop_append, List.drop_of_length_le (by omega), htaken, Nat.add_sub_cancel_left,
      List.nil_append, List.drop_succ_cons, List.drop_zero] at htoken
    exact List.eq_of_mem_replicate htoken
  · exact htarget
  · intro token htoken
    rw [List.take_append, htaken, List.take_of_length_le (by omega)] at htoken
    rcases List.mem_append.mp htoken with htoken | htoken
    · exact hproposed _ (List.mem_of_mem_drop (List.mem_of_mem_take htoken))
    · simp only [Nat.add_sub_cancel_left, List.take_succ_cons, List.take_zero,
        List.mem_singleton] at htoken
      rw [htoken]
      exact hbonus_lt

/-- The continuation lemma of `AcceptGreedy`, for the block an engine returns. -/
theorem blockResult_continuation (next : List Nat → Nat) (drafts : Nat → Fin draftTokens → Nat)
    (engine : DFlash2Engine) :
    (blockResult next engine (candidates drafts engine)
        (length_candidates drafts engine)).emittedTokens.take
        (blockResult next engine (candidates drafts engine)
          (length_candidates drafts engine)).emittedCount =
        Greedy.continuation next (engine.history ++ [engine.nextAnchor])
          (blockResult next engine (candidates drafts engine)
            (length_candidates drafts engine)).emittedCount ∧
      (candidates drafts engine).take
          (blockResult next engine (candidates drafts engine)
            (length_candidates drafts engine)).emittedCount ++
          [(blockResult next engine (candidates drafts engine)
            (length_candidates drafts engine)).bonusToken] =
        engine.nextAnchor :: Greedy.continuation next (engine.history ++ [engine.nextAnchor])
          (blockResult next engine (candidates drafts engine)
            (length_candidates drafts engine)).emittedCount := by
  simp only [blockResult]
  generalize hblock : acceptGreedy (candidates drafts engine)
    (targetTop1 next engine.history (candidates drafts engine)) engine.position = block
  exact committed_eq_continuation List.length_ofFn hblock.symm

/-- A ready engine with room for one block returns a valid block, hands out a piece of the greedy
continuation, and is ready again after it. -/
theorem decodeBlock_spec (hnext : ∀ history, next history < vocabulary)
    (hdrafts : ∀ block slot, drafts block slot < vocabulary) {engine : DFlash2Engine}
    {tokens : List Nat} (h : Ready engine tokens)
    (hroom : engine.position + blockSize ≤ options.contextCapacity) :
    ∃ block, decodeBlock next drafts options engine = (.ok block, commitBlock engine block) ∧
      ValidBlock block engine.position engine.nextAnchor ∧
      block.emittedTokens.take block.emittedCount =
        Greedy.continuation next tokens block.emittedCount ∧
      Ready (commitBlock engine block)
        (tokens ++ block.emittedTokens.take block.emittedCount) := by
  have hcandidates := candidates_lt hdrafts h.vocabulary
  have hlength := length_candidates drafts engine
  have hmax := options.le_max
  have hvalid := validBlock_blockResult hnext hlength rfl hcandidates
    (show engine.position + blockSize < 2 ^ 32 from by unfold maxPosition at hmax; omega)
  obtain ⟨hcommitted, hjoined⟩ := blockResult_continuation next drafts engine
  rw [h.history] at hcommitted hjoined
  have hproposed : (blockResult next engine (candidates drafts engine) hlength).proposedTokens =
      candidates drafts engine := rfl
  have hdecode : decodeBlock next drafts options engine =
      (.ok (blockResult next engine (candidates drafts engine) hlength),
        commitBlock engine (blockResult next engine (candidates drafts engine) hlength)) := by
    unfold decodeBlock
    rw [if_neg, if_neg, if_neg]
    · rw [any_ge_eq_false (targetTop1_lt hnext _ _)]
      exact Bool.false_ne_true
    · rw [any_ge_eq_false hcandidates]
      exact Bool.false_ne_true
    · rw [h.ready]
      simp only [Bool.not_true, Bool.false_eq_true, false_or]
      omega
  generalize blockResult next engine (candidates drafts engine) hlength = block at *
  refine ⟨block, hdecode, hvalid, hcommitted, rfl, ?_, ?_, ?_⟩
  · show engine.history ++ block.proposedTokens.take block.emittedCount ++ [block.bonusToken] = _
    rw [hproposed, List.append_assoc, hjoined, hcommitted, ← h.history, List.append_assoc]
    rfl
  · have hcount := hvalid.emittedCount
    have haccepted := hvalid.accepted_le
    show block.newPosition = (engine.history ++ block.proposedTokens.take block.emittedCount).length
    rw [hvalid.newPosition, hvalid.basePosition, List.length_append, List.length_take,
      block.length_proposedTokens, ← h.position]
    unfold draftTokens at haccepted
    unfold blockSize
    omega
  · exact hvalid.target_lt _ (List.mem_of_getElem? hvalid.bonus_target)

/-! ## The request -/

/-- With a connected client the `for` loop is `Greedy.stream`. -/
theorem streamBlock_native (next : List Nat → Nat) (drafts : Nat → Fin draftTokens → Nat)
    (options : EngineOptions) (hmax : request.maxNewTokens < 2 ^ 32) (block : List Nat) :
    ∀ (streamed : Nat) (session : Session), streamed < request.maxNewTokens →
      streamBlock (nativeCallbacks next drafts options) request block streamed session =
        (.ok (Greedy.stream request.stopTokenIds.contains request.maxNewTokens block streamed).2,
          { session with
            emitted := session.emitted ++
              (Greedy.stream request.stopTokenIds.contains request.maxNewTokens block
                streamed).1 }) := by
  induction block with
  | nil =>
    intro streamed session _
    simp [streamBlock, Greedy.stream]
  | cons token block ih =>
    intro streamed session hlt
    have hwrap : Word.wrappingAdd 32 streamed 1 = streamed + 1 :=
      Word.wrappingAdd_of_lt (by omega)
    simp only [streamBlock, Greedy.stream, nativeCallbacks, hwrap]
    by_cases hstop : request.stopTokenIds.contains token = true
    · rw [if_pos hstop, if_pos hstop]
      simp
    · rw [if_neg hstop, if_neg hstop]
      by_cases hlast : streamed + 1 = request.maxNewTokens
      · rw [if_pos hlast, if_pos hlast]
      · rw [if_neg hlast, if_neg hlast]
        have hrest := ih (streamed + 1) { session with emitted := session.emitted ++ [token] }
          (by omega)
        simp only [nativeCallbacks] at hrest
        rw [hrest]
        simp

/-- The driver's counters and the engine agree before a call of `decode_block`. -/
def Aligned (prompt : List Nat) (call : BlockCall Session) : Prop :=
  call.state.engine.position = prompt.length + call.streamed - 1 ∧
    call.position = call.state.engine.position ∧
    call.state.emitted.length = call.streamed

theorem decodeLoop_spec (hnext : ∀ history, next history < vocabulary)
    (hdrafts : ∀ block slot, drafts block slot < vocabulary)
    (hroom : request.promptTokenIds.length + request.maxNewTokens + 6 ≤ options.contextCapacity) :
    ∀ (fuel : Nat) (session : Session) (streamed verifyCalls : Nat),
      Ready session.engine (request.promptTokenIds ++ session.emitted) →
      session.emitted.length = streamed → 1 ≤ streamed → streamed < request.maxNewTokens →
      verifyCalls < streamed → request.maxNewTokens ≤ fuel + streamed →
      ∃ calls,
        (decodeLoop (nativeCallbacks next drafts options) request fuel session.engine.nextAnchor
            session.engine.position streamed verifyCalls session).outcome =
          .ok ⟨(Greedy.decode next request.stopTokenIds.contains
              (request.promptTokenIds ++ session.emitted)
              (request.maxNewTokens - streamed)).2,
            streamed + (Greedy.decode next request.stopTokenIds.contains
              (request.promptTokenIds ++ session.emitted)
              (request.maxNewTokens - streamed)).1.length, calls⟩ ∧
        (decodeLoop (nativeCallbacks next drafts options) request fuel session.engine.nextAnchor
            session.engine.position streamed verifyCalls session).state.emitted =
          session.emitted ++ (Greedy.decode next request.stopTokenIds.contains
            (request.promptTokenIds ++ session.emitted) (request.maxNewTokens - streamed)).1 ∧
        ∀ call ∈ (decodeLoop (nativeCallbacks next drafts options) request fuel
            session.engine.nextAnchor session.engine.position streamed verifyCalls session).calls,
          Aligned request.promptTokenIds call := by
  have hcapacity := options.le_max
  unfold maxPosition at hcapacity
  intro fuel
  induction fuel with
  | zero =>
    intro session streamed verifyCalls _ _ _ hlt _ hfuel
    omega
  | succ fuel ih =>
    intro session streamed verifyCalls hready hemitted hone hlt hcalls hfuel
    have hlength := hready.length
    rw [List.length_append, hemitted] at hlength
    obtain ⟨block, hdecode, hvalid, hblock, hafter⟩ := decodeBlock_spec hnext hdrafts hready
      (show session.engine.position + blockSize ≤ options.contextCapacity from by
        unfold blockSize
        omega)
    have hcount := hvalid.emittedCount
    have halign : Aligned request.promptTokenIds
        ⟨session, session.engine.position, streamed⟩ := ⟨by simp only; omega, rfl, hemitted⟩
    have hnative : (nativeCallbacks next drafts options).decodeBlock session =
        (.ok block, { session with engine := commitBlock session.engine block }) := by
      simp only [nativeCallbacks, hdecode]
    have htaken : (block.emittedTokens.take block.emittedCount).length = block.emittedCount := by
      rw [hblock, Greedy.length_continuation]
    have hpiece : block.emittedTokens.take block.emittedCount =
        Greedy.continuation next (request.promptTokenIds ++ session.emitted)
          (block.emittedTokens.take block.emittedCount).length := by
      rw [htaken]
      exact hblock
    simp only [decodeLoop, hnative, validateBlock_of_valid hvalid,
      Word.checkedAdd_eq_some.mpr ⟨show verifyCalls + 1 < 2 ^ 32 from by omega, rfl⟩,
      streamBlock_native next drafts options (show request.maxNewTokens < 2 ^ 32 from by omega)
        (block.emittedTokens.take block.emittedCount) streamed
        { session with engine := commitBlock session.engine block } hlt]
    rcases Greedy.decode_block next request.stopTokenIds.contains request.maxNewTokens
      (block.emittedTokens.take block.emittedCount) _ streamed hpiece hlt with
      ⟨reason, hreason, hdecoded⟩ | ⟨hnone, hall, hsent, hleft, hdecoded⟩
    · -- the request ends inside the block
      have hsent := Greedy.stream_count request.stopTokenIds.contains request.maxNewTokens
        (block.emittedTokens.take block.emittedCount) streamed
      cases hstream : Greedy.stream request.stopTokenIds.contains request.maxNewTokens
          (block.emittedTokens.take block.emittedCount) streamed with
      | mk sent counted =>
        obtain ⟨count, ended⟩ := counted
        rw [hstream] at hreason hdecoded hsent
        simp only at hreason hdecoded hsent
        subst hreason
        subst hsent
        rw [hdecoded]
        refine ⟨_, rfl, rfl, fun call hcall => ?_⟩
        rw [List.mem_singleton.mp hcall]
        exact halign
    · cases hstream : Greedy.stream request.stopTokenIds.contains request.maxNewTokens
          (block.emittedTokens.take block.emittedCount) streamed with
      | mk sent counted =>
        obtain ⟨count, ended⟩ := counted
        rw [hstream] at hnone hall hsent
        simp only at hnone hall hsent
        subst hnone
        subst hall
        subst hsent
        simp only
        rw [List.append_assoc] at hafter
        obtain ⟨calls, houtcome, hstate, haligned⟩ := ih
          ⟨commitBlock session.engine block,
            session.emitted ++ block.emittedTokens.take block.emittedCount⟩
          (streamed + (block.emittedTokens.take block.emittedCount).length) (verifyCalls + 1)
          hafter (by rw [List.length_append, hemitted]) (by omega) hleft (by omega) (by omega)
        rw [List.append_assoc] at hdecoded
        refine ⟨calls, ?_, ?_, fun call hcall => ?_⟩
        · rw [hdecoded]
          simp only [commitBlock] at houtcome ⊢
          rw [houtcome, List.length_append, Nat.add_assoc]
        · rw [hdecoded]
          simp only [commitBlock] at hstate ⊢
          rw [hstate, List.append_assoc]
        · rcases List.mem_cons.mp hcall with rfl | hcall
          · exact halign
          · exact haligned call hcall

/-- **DFlash2 decoding is lossless.** For every request `validate_request` accepts and every
sequence of drafts, whatever an earlier request left in the engine: the run hands out plain greedy
decoding of the prompt with its finish reason, and before every block the engine stands one row
short of the prompt and the tokens streamed so far. -/
theorem driveDflash2_lossless (next : List Nat → Nat) (drafts : Nat → Fin draftTokens → Nat)
    (options : EngineOptions) (request : GenerationRequest) (engine : DFlash2Engine)
    (hnext : ∀ history, next history < vocabulary)
    (hdrafts : ∀ block slot, drafts block slot < vocabulary)
    (hvalid : validateRequest request options.contextCapacity = .ok ()) :
    ∃ verifyCalls,
      (driveDflash2 (nativeCallbacks next drafts options) request options.contextCapacity
          ⟨engine, []⟩).outcome =
        .ok ⟨(Greedy.decode next request.stopTokenIds.contains request.promptTokenIds
            request.maxNewTokens).2,
          (Greedy.decode next request.stopTokenIds.contains request.promptTokenIds
            request.maxNewTokens).1.length, verifyCalls⟩ ∧
      (driveDflash2 (nativeCallbacks next drafts options) request options.contextCapacity
          ⟨engine, []⟩).state.emitted =
        (Greedy.decode next request.stopTokenIds.contains request.promptTokenIds
          request.maxNewTokens).1 ∧
      ∀ call ∈ (driveDflash2 (nativeCallbacks next drafts options) request
          options.contextCapacity ⟨engine, []⟩).calls,
        Aligned request.promptTokenIds call := by
  obtain ⟨hne, hpositive, hprompt, hroom⟩ := validateRequest_ok hvalid
  have hcapacity := options.le_max
  have hlength : request.promptTokenIds.length ≠ 0 := by
    simpa [List.length_eq_zero_iff] using hne
  unfold maxPosition at hcapacity
  have hprefill : (nativeCallbacks next drafts options).prefill request.promptTokenIds
        ⟨engine, []⟩ =
      (.ok (next request.promptTokenIds),
        ⟨⟨request.promptTokenIds, request.promptTokenIds.length, next request.promptTokenIds,
          true, 0⟩, []⟩) := by
    simp only [nativeCallbacks, prefill]
    rw [if_neg (by omega), if_neg (by unfold maxPosition; omega)]
  obtain ⟨budget, hbudget⟩ : ∃ budget, request.maxNewTokens = budget + 1 :=
    ⟨request.maxNewTokens - 1, by omega⟩
  unfold driveDflash2
  simp only [hvalid, hprefill]
  rw [if_neg (Nat.not_le.mpr (hnext _)), hbudget]
  simp only [Greedy.decode]
  by_cases hstop : request.stopTokenIds.contains (next request.promptTokenIds) = true
  · rw [if_pos hstop, if_pos hstop]
    exact ⟨0, rfl, rfl, fun call hcall => by cases hcall⟩
  · rw [if_neg hstop, if_neg hstop]
    simp only [nativeCallbacks, List.nil_append]
    rw [if_neg (by omega)]
    by_cases hlast : 1 = budget + 1
    · rw [if_pos hlast, show budget = 0 from by omega]
      exact ⟨0, rfl, rfl, fun call hcall => by cases hcall⟩
    · rw [if_neg hlast]
      obtain ⟨calls, houtcome, hstate, haligned⟩ := decodeLoop_spec hnext hdrafts
        (hroom (by omega)) (budget + 1)
        ⟨⟨request.promptTokenIds, request.promptTokenIds.length, next request.promptTokenIds,
          true, 0⟩, [next request.promptTokenIds]⟩ 1 0 ⟨rfl, rfl, rfl, hnext _⟩ rfl
        (Nat.le_refl 1) (by omega) (by omega) (by omega)
      rw [hbudget, Nat.add_sub_cancel] at houtcome hstate
      refine ⟨calls, ?_, hstate, haligned⟩
      simp only [nativeCallbacks] at houtcome
      rw [houtcome, List.length_cons, Nat.add_comm]

def sampleNext (history : List Nat) : Nat := (history.getLastD 0 * 3 + 1) % 11

-- the first block accepts two drafts, the later ones none
def sampleDrafts (block : Nat) (slot : Fin draftTokens) : Nat := (block * 6 + slot.val) % 13

def sampleOptions : EngineOptions := ⟨64, by decide, by decide⟩

def sampleRequest : GenerationRequest := ⟨[5, 2], 9, [10], true⟩

theorem driveDflash2_lossless_sample :
    (driveDflash2 (nativeCallbacks sampleNext sampleDrafts sampleOptions) sampleRequest 64
        ⟨⟨[], 0, 0, false, 0⟩, []⟩).state.emitted = [7, 0, 1, 4, 2, 7, 0, 1, 4] := by
  obtain ⟨_, -, hemitted, -⟩ := driveDflash2_lossless sampleNext sampleDrafts sampleOptions
    sampleRequest ⟨[], 0, 0, false, 0⟩
    (fun history => Nat.lt_of_lt_of_le (Nat.mod_lt _ (by decide)) (by decide))
    (fun block slot => Nat.lt_of_lt_of_le (Nat.mod_lt _ (by decide)) (by decide)) rfl
  exact hemitted.trans (by decide)

end Proofs

end Spark.DFlash2
