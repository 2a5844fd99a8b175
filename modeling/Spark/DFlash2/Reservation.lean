import Spark.DFlash2.Drive

/-!
# The rows a request reserves

Whatever valid blocks the engine hands back, the driver asks for a block only where the reservation of
`required_context_rows` has room for all its rows, and there are blocks that use the reservation up.

* **`decodeLoop_reserved`** — the rows before a block, for any callbacks.
* **`decodeLoop_ready`** — the native engine stands where the driver does.
* **`context_reserved`** — all of it, with the blocks for which the reservation is tight.
-/

namespace Spark.DFlash2

open Greedy (Finish)

section AnyEngine

variable {σ : Type} {callbacks : Callbacks σ} {request : GenerationRequest} {contextCapacity : Nat}

/-- `streamBlock` with a counter that has no width. -/
def streamBlockExact (callbacks : Callbacks σ) (request : GenerationRequest) :
    List Nat → (streamed : Nat) → σ → Except String (Nat × Option Finish) × σ
  | [], streamed, state => (.ok (streamed, none), state)
  | token :: block, streamed, state =>
    if request.stopTokenIds.contains token then (.ok (streamed, some .stop), state)
    else
      match callbacks.emit token state with
      | (.error e, state) => (.error e, state)
      | (.ok (), state) =>
        if streamed + 1 = request.maxNewTokens then (.ok (streamed + 1, some .length), state)
        else streamBlockExact callbacks request block (streamed + 1) state

/-- The counter never wraps, and what is left open counts every token of the block. -/
theorem streamBlock_spec (hmax : request.maxNewTokens < 2 ^ 32) (block : List Nat) (streamed : Nat) (state : σ)
    (hlt : streamed < request.maxNewTokens) :
    streamBlock callbacks request block streamed state = streamBlockExact callbacks request block streamed state ∧
      ∀ streamed' state', streamBlock callbacks request block streamed state = (.ok (streamed', none), state') →
        streamed' = streamed + block.length ∧ streamed' < request.maxNewTokens := by
  induction block generalizing streamed state with
  | nil =>
    refine ⟨rfl, fun streamed' state' h => ?_⟩
    simp only [streamBlock, Prod.mk.injEq, Except.ok.injEq] at h
    obtain ⟨⟨rfl, -⟩, -⟩ := h
    exact ⟨rfl, hlt⟩
  | cons token block ih =>
    have hwrap : Word.wrappingAdd 32 streamed 1 = streamed + 1 := Word.wrappingAdd_of_lt (by omega)
    rw [streamBlock, streamBlockExact, hwrap]
    split
    · exact ⟨rfl, fun _ _ h => by cases h⟩
    · cases hemit : callbacks.emit token state with
      | mk answer state =>
        cases answer with
        | error e => exact ⟨rfl, fun _ _ h => by cases h⟩
        | ok sent =>
          simp only
          split
          · exact ⟨rfl, fun _ _ h => by cases h⟩
          · obtain ⟨hexact, hopen⟩ := ih (streamed + 1) state (by omega)
            refine ⟨hexact, fun streamed' state' h => ?_⟩
            obtain ⟨hcount, hlater⟩ := hopen streamed' state' h
            rw [List.length_cons]
            omega

/-- Before a block the rows are those of the prompt and of all tokens handed out but the last, and the budget is not
used up. -/
structure Reserved (callbacks : Callbacks σ) (request : GenerationRequest) (call : BlockCall σ) : Prop where
  rows : call.position + 1 = request.promptTokenIds.length + call.streamed
  open_budget : call.streamed < request.maxNewTokens
  exact_counter : ∀ block state, streamBlock callbacks request block call.streamed state =
    streamBlockExact callbacks request block call.streamed state

/-- What the loop does with one block: it ends, or goes on behind a block that was handed out whole. -/
theorem decodeLoop_cases (fuel anchor position streamed verifyCalls : Nat) (state : σ)
    (hmax : request.maxNewTokens < 2 ^ 32) (hlt : streamed < request.maxNewTokens) :
    (∃ outcome last, decodeLoop callbacks request (fuel + 1) anchor position streamed verifyCalls state =
        ⟨outcome, [⟨state, position, streamed⟩], last⟩ ∧
        ∀ fuel', decodeLoop callbacks request (fuel' + 1) anchor position streamed verifyCalls state =
          ⟨outcome, [⟨state, position, streamed⟩], last⟩) ∨
      ∃ block verifyCalls' state₁ state₂, callbacks.decodeBlock state = (.ok block, state₁) ∧
        ValidBlock block position anchor ∧
        streamBlock callbacks request (block.emittedTokens.take block.emittedCount) streamed state₁ =
          (.ok (streamed + block.emittedCount, none), state₂) ∧
        streamed + block.emittedCount < request.maxNewTokens ∧
        ∀ fuel', decodeLoop callbacks request (fuel' + 1) anchor position streamed verifyCalls state =
          { decodeLoop callbacks request fuel' block.bonusToken block.newPosition (streamed + block.emittedCount)
              verifyCalls' state₂ with
            calls := ⟨state, position, streamed⟩ :: (decodeLoop callbacks request fuel' block.bonusToken
              block.newPosition (streamed + block.emittedCount) verifyCalls' state₂).calls } := by
  simp only [decodeLoop]
  cases hblock : callbacks.decodeBlock state with
  | mk answer state₁ =>
    cases answer with
    | error e => exact .inl ⟨_, _, rfl, fun _ => rfl⟩
    | ok block =>
      simp only
      cases Word.checkedAdd 32 verifyCalls 1 with
      | none => exact .inl ⟨_, _, rfl, fun _ => rfl⟩
      | some verifyCalls' =>
        simp only
        cases hvalidate : validateBlock block position anchor with
        | error e => exact .inl ⟨_, _, rfl, fun _ => rfl⟩
        | ok count =>
          obtain ⟨hvalid, rfl⟩ := valid_of_validateBlock hvalidate
          simp only
          cases hstream : streamBlock callbacks request (block.emittedTokens.take block.emittedCount) streamed
            state₁ with
          | mk sent state₂ =>
            rcases sent with e | ⟨streamed', _ | reason⟩
            case error => exact .inl ⟨_, _, rfl, fun _ => rfl⟩
            case ok.some => exact .inl ⟨_, _, rfl, fun _ => rfl⟩
            case ok.none =>
              obtain ⟨hcount, hopen⟩ := (streamBlock_spec hmax _ streamed state₁ hlt).2 streamed' state₂ hstream
              have htaken : (block.emittedTokens.take block.emittedCount).length = block.emittedCount := by
                have hemitted := hvalid.emittedCount
                have haccepted := hvalid.accepted_le
                rw [List.length_take, block.length_emittedTokens]
                unfold draftTokens at haccepted
                unfold blockSize
                omega
              rw [htaken] at hcount
              subst hcount
              exact .inr ⟨block, verifyCalls', state₁, state₂, rfl, hvalid, hstream, hopen, fun _ => rfl⟩

theorem decodeLoop_reserved (hmax : request.maxNewTokens < 2 ^ 32) (fuel anchor position streamed verifyCalls : Nat)
    (state : σ) (hrows : position + 1 = request.promptTokenIds.length + streamed)
    (hlt : streamed < request.maxNewTokens) :
    ∀ call ∈ (decodeLoop callbacks request fuel anchor position streamed verifyCalls state).calls,
      Reserved callbacks request call := by
  induction fuel generalizing anchor position streamed verifyCalls state with
  | zero => exact nofun
  | succ fuel ih =>
    have hhere : Reserved callbacks request ⟨state, position, streamed⟩ :=
      ⟨hrows, hlt, fun block state => (streamBlock_spec hmax block streamed state hlt).1⟩
    rcases decodeLoop_cases fuel anchor position streamed verifyCalls state hmax hlt with
      ⟨outcome, last, hends, -⟩ | ⟨block, verifyCalls', state₁, state₂, -, hvalid, -, hopen, hgoes⟩
    · rw [hends]
      exact List.forall_mem_singleton.mpr hhere
    · rw [hgoes fuel]
      refine List.forall_mem_cons.mpr ⟨hhere, ih _ _ _ _ _ ?_ hopen⟩
      rw [hvalid.newPosition, hvalid.basePosition]
      omega

/-- Every block hands out a token, so the loop ends before its bound does. -/
theorem decodeLoop_fuel (hmax : request.maxNewTokens < 2 ^ 32) (extra fuel anchor position streamed verifyCalls : Nat)
    (state : σ) (hlt : streamed < request.maxNewTokens) (hfuel : request.maxNewTokens ≤ streamed + fuel) :
    decodeLoop callbacks request (fuel + extra) anchor position streamed verifyCalls state =
      decodeLoop callbacks request fuel anchor position streamed verifyCalls state := by
  induction fuel generalizing anchor position streamed verifyCalls state with
  | zero => omega
  | succ fuel ih =>
    rw [Nat.succ_add]
    rcases decodeLoop_cases fuel anchor position streamed verifyCalls state hmax hlt with
      ⟨outcome, last, -, hends⟩ | ⟨block, verifyCalls', state₁, state₂, -, hvalid, -, hopen, hgoes⟩
    · rw [hends, hends]
    · have hcount := hvalid.emittedCount
      rw [hgoes, hgoes, ih _ _ _ _ _ hopen (by omega)]

/-- A run that decodes a block has a valid request, and its loop begins behind the prompt. -/
theorem driveDflash2_calls (callbacks : Callbacks σ) (request : GenerationRequest) (contextCapacity : Nat)
    (state : σ) : (driveDflash2 callbacks request contextCapacity state).calls = [] ∨
      ∃ anchor state₁ state₂, validateRequest request contextCapacity = .ok () ∧
        callbacks.prefill request.promptTokenIds state = (.ok anchor, state₁) ∧ anchor < vocabulary ∧
        request.stopTokenIds.contains anchor = false ∧ callbacks.emit anchor state₁ = (.ok (), state₂) ∧
        1 ≠ request.maxNewTokens ∧
        driveDflash2 callbacks request contextCapacity state =
          decodeLoop callbacks request request.maxNewTokens anchor request.promptTokenIds.length 1 0 state₂ := by
  unfold driveDflash2
  cases hvalid : validateRequest request contextCapacity with
  | error e => exact .inl rfl
  | ok _ =>
    cases hprefill : callbacks.prefill request.promptTokenIds state with
    | mk answer state₁ =>
      cases answer with
      | error e => exact .inl rfl
      | ok anchor =>
        simp only
        split
        · exact .inl rfl
        · next hanchor =>
          split
          · exact .inl rfl
          · next hstop =>
            cases hemit : callbacks.emit anchor state₁ with
            | mk sent state₂ =>
              cases sent with
              | error e => exact .inl rfl
              | ok _ =>
                simp only
                split
                · exact .inl rfl
                · split
                  · exact .inl rfl
                  · next hmore =>
                    exact .inr ⟨anchor, state₁, state₂, trivial, rfl, Nat.not_le.mp hanchor,
                      Bool.not_eq_true _ ▸ hstop, hemit, hmore, rfl⟩

end AnyEngine

/-! ## The native engine -/

section NativeEngine

variable {next : List Nat → Nat} {drafts : Nat → Fin draftTokens → Nat} {options : EngineOptions}
  {request : GenerationRequest}

/-- A block the engine hands back leaves it ready, where the block says. -/
theorem decodeBlock_ready {engine engine' : DFlash2Engine} {block : DFlash2BlockResult}
    (h : decodeBlock next drafts options engine = (.ok block, engine')) :
    engine'.ready = true ∧ engine'.position = block.newPosition := by
  unfold decodeBlock at h
  split at h
  · cases h
  split at h
  · cases h
  split at h
  · cases h
  · cases h
    exact ⟨rfl, rfl⟩

theorem streamBlock_engine (block : List Nat) (streamed : Nat) (session : Session) :
    (streamBlock (nativeCallbacks next drafts options) request block streamed session).2.engine = session.engine := by
  induction block generalizing streamed session with
  | nil => rfl
  | cons token block ih =>
    rw [streamBlock]
    split
    · rfl
    · simp only [nativeCallbacks]
      split
      · rfl
      · exact ih _ _

/-- Before every block the engine is ready and stands where the driver does. -/
theorem decodeLoop_ready (hmax : request.maxNewTokens < 2 ^ 32) (fuel anchor position streamed verifyCalls : Nat)
    (session : Session) (hready : session.engine.ready = true) (hposition : session.engine.position = position)
    (hlt : streamed < request.maxNewTokens) :
    ∀ call ∈ (decodeLoop (nativeCallbacks next drafts options) request fuel anchor position streamed verifyCalls
      session).calls, call.state.engine.ready = true ∧ call.state.engine.position = call.position := by
  induction fuel generalizing anchor position streamed verifyCalls session with
  | zero => exact nofun
  | succ fuel ih =>
    rcases @decodeLoop_cases _ (nativeCallbacks next drafts options) request fuel anchor position streamed verifyCalls
      session hmax hlt with
      ⟨outcome, last, hends, -⟩ | ⟨block, verifyCalls', state₁, state₂, hblock, -, hstream, hopen, hgoes⟩
    · rw [hends]
      exact List.forall_mem_singleton.mpr ⟨hready, hposition⟩
    · rw [hgoes fuel]
      refine List.forall_mem_cons.mpr ⟨⟨hready, hposition⟩, ?_⟩
      have hengine := @streamBlock_engine next drafts options request (block.emittedTokens.take block.emittedCount)
        streamed state₁
      rw [hstream] at hengine
      simp only [nativeCallbacks, Prod.mk.injEq] at hblock
      obtain ⟨hanswer, rfl⟩ := hblock
      obtain ⟨hready', hposition'⟩ := decodeBlock_ready (Prod.ext hanswer rfl)
      exact ih _ _ _ _ _ (by rw [hengine]; exact hready') (by rw [hengine]; exact hposition') hopen

/-- A target that always predicts `token`, and drafts that never do: every block hands out one token. -/
theorem one_token_block {token draft : Nat} (hne : draft ≠ token) (engine : DFlash2Engine)
    {block : DFlash2BlockResult} {engine' : DFlash2Engine}
    (h : decodeBlock (fun _ => token) (fun _ _ => draft) options engine = (.ok block, engine')) :
    block.emittedCount = 1 := by
  unfold decodeBlock at h
  split at h
  · cases h
  split at h
  · cases h
  split at h
  · cases h
  · cases h
    have hspec := acceptLength_spec (candidates (fun _ _ => draft) engine)
      (targetTop1 (fun _ => token) engine.history (candidates (fun _ _ => draft) engine)) draftTokens
    show acceptLength _ _ draftTokens + 1 = 1
    by_contra hpos
    -- the first draft is not what the target predicts
    have hfirst := hspec.2 0 (by omega)
    rw [targetTop1_getElem? _ _ _ (by decide)] at hfirst
    exact hne (Option.some.inj hfirst)

theorem decodeLoop_head {fuel anchor position streamed verifyCalls : Nat} {session : Session}
    (hmax : request.maxNewTokens < 2 ^ 32) (hlt : streamed < request.maxNewTokens) :
    ⟨session, position, streamed⟩ ∈ (decodeLoop (nativeCallbacks next drafts options) request (fuel + 1) anchor
      position streamed verifyCalls session).calls := by
  rcases @decodeLoop_cases _ (nativeCallbacks next drafts options) request fuel anchor position streamed verifyCalls
    session hmax hlt with ⟨outcome, last, hends, -⟩ | ⟨block, verifyCalls', state₁, state₂, -, -, -, -, hgoes⟩
  · rw [hends]
    exact List.mem_singleton.mpr rfl
  · rw [hgoes fuel]
    exact List.mem_cons_self

/-- One token a block uses the whole budget up. -/
theorem decodeLoop_tight {token draft : Nat} (htoken : token < vocabulary) (hdraft : draft < vocabulary)
    (hne : draft ≠ token) (hstop : request.stopTokenIds.contains token = false) (hmax : request.maxNewTokens < 2 ^ 32)
    (hroom : request.promptTokenIds.length + request.maxNewTokens + 6 ≤ options.contextCapacity)
    (fuel anchor position streamed verifyCalls : Nat) (session : Session) {tokens : List Nat}
    (hready : Ready session.engine tokens) (hposition : session.engine.position = position)
    (hanchor : session.engine.nextAnchor = anchor)
    (hrows : position + 1 = request.promptTokenIds.length + streamed) (hlt : streamed < request.maxNewTokens)
    (hcalls : verifyCalls < streamed) (hfuel : request.maxNewTokens ≤ streamed + fuel) :
    ∃ call ∈ (decodeLoop (nativeCallbacks (fun _ => token) (fun _ _ => draft) options) request fuel anchor position
      streamed verifyCalls session).calls, call.streamed + 1 = request.maxNewTokens := by
  induction fuel generalizing anchor position streamed verifyCalls session tokens with
  | zero => omega
  | succ fuel ih =>
    by_cases hlast : streamed + 1 = request.maxNewTokens
    · exact ⟨_, decodeLoop_head hmax hlt, hlast⟩
    · obtain ⟨block, hdecode, hvalid, hblock, hafter⟩ := @decodeBlock_spec (fun _ => token) (fun _ _ => draft) options
        (fun _ => htoken) (fun _ _ => hdraft) session.engine tokens hready (by unfold blockSize; omega)
      have hone := one_token_block hne session.engine hdecode
      rw [hposition, hanchor] at hvalid
      have hpiece : block.emittedTokens.take block.emittedCount = [token] := by
        rw [hblock, hone]
        rfl
      have hnative : (nativeCallbacks (fun _ => token) (fun _ _ => draft) options).decodeBlock session =
          (.ok block, { session with engine := commitBlock session.engine block }) := by
        simp only [nativeCallbacks, hdecode]
      have hstream : streamBlock (nativeCallbacks (fun _ => token) (fun _ _ => draft) options) request [token]
          streamed { session with engine := commitBlock session.engine block } =
            (.ok (streamed + 1, none), ⟨commitBlock session.engine block, session.emitted ++ [token]⟩) := by
        simp only [streamBlock, nativeCallbacks, hstop, Bool.false_eq_true, if_false,
          Word.wrappingAdd_of_lt (show streamed + 1 < 2 ^ 32 by omega), if_neg hlast]
      have hcount := hvalid.emittedCount
      obtain ⟨call, hcall, hsame⟩ := @ih block.bonusToken block.newPosition (streamed + 1) (verifyCalls + 1)
        ⟨commitBlock session.engine block, session.emitted ++ [token]⟩ _ hafter rfl rfl
        (by rw [hvalid.newPosition, hvalid.basePosition]; omega) (by omega) (by omega) (by omega)
      refine ⟨call, ?_, hsame⟩
      simp only [decodeLoop, hnative, validateBlock_of_valid hvalid, hpiece, hstream,
        Word.checkedAdd_eq_some.mpr ⟨show verifyCalls + 1 < 2 ^ 32 by omega, rfl⟩]
      exact List.mem_cons_of_mem _ hcall

end NativeEngine

/-- A request that is accepted has room for every block the driver asks for, whatever valid blocks it gets: the
counter and the positions stay exact, the native engine never lacks a block, and some blocks use the last reserved row. -/
theorem context_reserved (request : GenerationRequest) (options : EngineOptions)
    (hmax : request.maxNewTokens < 2 ^ 32)
    (hvalid : validateRequest request options.contextCapacity = .ok ()) :
    (∀ (σ : Type) (callbacks : Callbacks σ) (state : σ),
      (∀ call ∈ (driveDflash2 callbacks request options.contextCapacity state).calls,
        call.position + blockSize ≤ options.contextCapacity ∧ Reserved callbacks request call) ∧
      ∀ extra anchor state, 1 < request.maxNewTokens →
        decodeLoop callbacks request (request.maxNewTokens + extra) anchor request.promptTokenIds.length 1 0 state =
          decodeLoop callbacks request request.maxNewTokens anchor request.promptTokenIds.length 1 0 state) ∧
    (∀ (next : List Nat → Nat) (drafts : Nat → Fin draftTokens → Nat) (session : Session),
      ∀ call ∈ (driveDflash2 (nativeCallbacks next drafts options) request options.contextCapacity session).calls,
        (decodeBlock next drafts options call.state.engine).1 ≠
          .error "DFlash2 engine is not ready or lacks one verify block") ∧
    (2 ≤ request.maxNewTokens → ∀ token < vocabulary, request.stopTokenIds.contains token = false →
      ∃ (next : List Nat → Nat) (drafts : Nat → Fin draftTokens → Nat), ∀ session,
        ∃ call ∈ (driveDflash2 (nativeCallbacks next drafts options) request options.contextCapacity session).calls,
          requiredContextRows request.promptTokenIds.length request.maxNewTokens =
            .ok (call.position + blockSize)) := by
  obtain ⟨hne, hpositive, hprompt, hroom⟩ := validateRequest_ok hvalid
  have hcapacity := options.le_max
  have hblock := options.block_le
  unfold maxPosition at hcapacity
  have hlength : request.promptTokenIds.length ≠ 0 := by
    simpa [List.length_eq_zero_iff] using hne
  refine ⟨fun σ callbacks state => ⟨fun call hcall => ?_, fun extra anchor state hmore => ?_⟩,
    fun next drafts session call hcall => ?_, fun hmore token htoken hstop => ?_⟩
  · rcases driveDflash2_calls callbacks request options.contextCapacity state with hnone |
      ⟨anchor, state₁, state₂, -, -, -, -, -, hmore, hloop⟩
    · rw [hnone] at hcall
      cases hcall
    · rw [hloop] at hcall
      have hreserved := decodeLoop_reserved hmax _ _ _ _ _ _ rfl (by omega) call hcall
      have hrows := hreserved.rows
      have hopen := hreserved.open_budget
      have hfits := hroom (by omega)
      exact ⟨by unfold blockSize; omega, hreserved⟩
  · exact decodeLoop_fuel hmax extra _ _ _ _ _ _ (by omega) (by omega)
  · rcases driveDflash2_calls (nativeCallbacks next drafts options) request options.contextCapacity session with
      hnone | ⟨anchor, state₁, state₂, -, hprefill, -, -, hemit, hmore, hloop⟩
    · rw [hnone] at hcall
      cases hcall
    · rw [hloop] at hcall
      have hstart : state₂.engine.ready = true ∧ state₂.engine.position = request.promptTokenIds.length := by
        simp only [nativeCallbacks, Prod.mk.injEq] at hprefill hemit
        obtain ⟨hanswer, rfl⟩ := hprefill
        obtain ⟨-, rfl⟩ := hemit
        unfold prefill at hanswer ⊢
        split at hanswer
        · cases hanswer
        next hcount =>
          split at hanswer
          · cases hanswer
          next hfits =>
            rw [if_neg hcount, if_neg hfits]
            exact ⟨rfl, rfl⟩
      have hhere := decodeLoop_ready hmax _ _ _ _ _ _ hstart.1 hstart.2 (by omega) call hcall
      have hreserved := decodeLoop_reserved hmax _ _ _ _ _ _ rfl (by omega) call hcall
      have hrows := hreserved.rows
      have hopen := hreserved.open_budget
      have hfits := hroom (by omega)
      unfold decodeBlock
      rw [if_neg]
      · split
        · simp
        · split
          · simp
          · simp
      · rw [hhere.1, hhere.2]
        unfold maxPosition blockSize
        simp only [Bool.not_true, Bool.false_eq_true, false_or]
        omega
  · -- another token that every draft proposes
    obtain ⟨draft, hdraft, hother⟩ : ∃ draft < vocabulary, draft ≠ token := by
      by_cases hzero : token = 0
      · exact ⟨1, by decide, by omega⟩
      · exact ⟨0, by decide, by omega⟩
    refine ⟨fun _ => token, fun _ _ => draft, fun session => ?_⟩
    have hfits := hroom hmore
    have hprefill : (nativeCallbacks (fun _ => token) (fun _ _ => draft) options).prefill request.promptTokenIds
        session = (.ok token, { session with
          engine := ⟨request.promptTokenIds, request.promptTokenIds.length, token, true, 0⟩ }) := by
      simp only [nativeCallbacks, prefill]
      rw [if_neg (by omega), if_neg (by unfold maxPosition; omega)]
    have hdrive : driveDflash2 (nativeCallbacks (fun _ => token) (fun _ _ => draft) options) request
        options.contextCapacity session =
          decodeLoop (nativeCallbacks (fun _ => token) (fun _ _ => draft) options) request request.maxNewTokens token
            request.promptTokenIds.length 1 0
            ⟨⟨request.promptTokenIds, request.promptTokenIds.length, token, true, 0⟩,
              session.emitted ++ [token]⟩ := by
      unfold driveDflash2
      simp only [hvalid, hprefill, hstop, if_neg (Nat.not_le.mpr htoken), Bool.false_eq_true, if_false]
      simp only [nativeCallbacks]
      rw [if_neg (by omega), if_neg (by omega)]
    rw [hdrive]
    obtain ⟨call, hcall, hlast⟩ := @decodeLoop_tight options request token draft htoken hdraft hother hstop hmax hfits
      request.maxNewTokens token request.promptTokenIds.length 1 0
      ⟨⟨request.promptTokenIds, request.promptTokenIds.length, token, true, 0⟩, session.emitted ++ [token]⟩ _
      ⟨rfl, rfl, rfl, htoken⟩ rfl rfl rfl (by omega) (by omega) (by omega)
    refine ⟨call, hcall, ?_⟩
    have hrows := (decodeLoop_reserved hmax _ _ _ _ _ _ rfl (by omega) call hcall).rows
    unfold requiredContextRows
    rw [if_neg (by omega), Word.checkedAdd_eq_some.mpr ⟨by omega, rfl⟩]
    simp only [Option.bind_some]
    rw [Word.checkedAdd_eq_some.mpr ⟨by unfold blockSize; omega, rfl⟩]
    simp only [Except.ok.injEq]
    unfold blockSize
    omega

/-- Nine tokens behind a prompt of two in a context of 64: every block of every run ends inside of it, none is refused,
and the last one can end at row 17. -/
theorem context_reserved_sample :
    (∀ (next : List Nat → Nat) (drafts : Nat → Fin draftTokens → Nat) (session : Session),
      ∀ call ∈ (driveDflash2 (nativeCallbacks next drafts sampleOptions) sampleRequest 64 session).calls,
        call.position + blockSize ≤ 64 ∧ (decodeBlock next drafts sampleOptions call.state.engine).1 ≠
          .error "DFlash2 engine is not ready or lacks one verify block") ∧
    ∃ (next : List Nat → Nat) (drafts : Nat → Fin draftTokens → Nat), ∀ session,
      ∃ call ∈ (driveDflash2 (nativeCallbacks next drafts sampleOptions) sampleRequest 64 session).calls,
        requiredContextRows 2 9 = .ok (call.position + blockSize) := by
  obtain ⟨hroom, hready, htight⟩ := context_reserved sampleRequest sampleOptions (by decide) rfl
  refine ⟨fun next drafts session call hcall => ?_, htight (by decide) 7 (by decide) rfl⟩
  exact ⟨((hroom Session (nativeCallbacks next drafts sampleOptions) session).1 call hcall).1,
    hready next drafts session call hcall⟩

end Spark.DFlash2
