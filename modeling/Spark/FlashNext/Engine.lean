import Mathlib.Data.List.Basic
import Mathlib.Logic.Function.Basic
import Spark.Lib.Greedy

/-!
# The Flash-Next engine: target passes and the NEXTN pair

`engine.rs` runs the target model over buckets of tokens and keeps three kinds of live state:
the recurrent state of the GDN and PLE blocks, the position-addressed QSA rows, and the token
history whose length hides stale rows. `forward_mtp_pair` verifies one drafted token together
with the known candidate; on rejection it restores the recurrent snapshot taken after the first
row, shortens the history and leaves the stale QSA row behind.

* **`Target`** — the model as the engine sees it: one row of a pass.
* **`Target.fold`** — the state obtained by feeding tokens one at a time.
* **`Live`** — the engine's live state is that of a token list.
* **`advanceTokens_live`** — a bucket advances the live state token by token.
* **`forwardMtpPair_spec`** — the pair emits a piece of the greedy continuation and leaves the
  live state of exactly the tokens it emitted, accepted or not.
-/

namespace Spark.FlashNext

def vocabulary : Nat := 248320

def qwenModelMaxLength : Nat := 262144

/-- The target model. `cell` computes one row: from the recurrent state, the QSA rows of the
earlier positions and the input token, the new recurrent state, the row's own QSA entry and the
final hyper-connection row. `argmax` is the LM head over such a row. -/
structure Target (ρ κ η : Type) where
  reset : ρ
  cell : ρ → List κ → Nat → ρ × κ × η
  argmax : η → Nat

/-- The abstract state of the target after a list of tokens. -/
structure TargetState (ρ κ η : Type) where
  recurrent : ρ
  rows : List κ
  hyper : Option η

namespace Target

variable {ρ κ η : Type} (target : Target ρ κ η)

def feed (state : TargetState ρ κ η) (token : Nat) : TargetState ρ κ η :=
  let row := target.cell state.recurrent state.rows token
  { recurrent := row.1, rows := state.rows ++ [row.2.1], hyper := some row.2.2 }

/-- The state obtained by feeding the tokens one at a time. -/
def fold (tokens : List Nat) : TargetState ρ κ η :=
  tokens.foldl target.feed ⟨target.reset, [], none⟩

/-- The greedy next token after a non-empty history. -/
def next (tokens : List Nat) : Nat :=
  match (target.fold tokens).hyper with
  | some hyper => target.argmax hyper
  | none => 0

@[simp] theorem fold_concat (tokens : List Nat) (token : Nat) :
    target.fold (tokens ++ [token]) = target.feed (target.fold tokens) token := by
  simp [fold]

end Target

/-! ## The engine -/

/-- `QwenNativeEngine`, as far as the sequence state goes. `finalHyper` is the buffer the last
layer of a pass leaves its rows in. -/
structure QwenNativeEngine (ρ κ η : Type) where
  recurrent : ρ
  snapshot : ρ
  qsaRows : Nat → κ
  finalHyper : List η
  lastTargetHyper : η
  tokenHistory : List Nat
  mtpPosition : Nat
  mtpEnabled : Bool

structure QwenMtpStep where
  outputTokens : List Nat
  nextToken : Nat
  draftToken : Nat
  accepted : Bool
  deriving DecidableEq, Repr

section Passes

variable {ρ κ η : Type} (target : Target ρ κ η)

/-- `reset_sequence`: the recurrent buffers are cleared, everything else is left as it is. -/
def resetSequence (engine : QwenNativeEngine ρ κ η) : QwenNativeEngine ρ κ η :=
  { engine with recurrent := target.reset, tokenHistory := [], mtpPosition := 0 }

/-- The rows of one pass from `position` on: the state they leave, and for each row the
recurrent state after it and its final hyper row. -/
def runRows : (position : Nat) → (recurrent : ρ) → (qsaRows : Nat → κ) → (tokens : List Nat) →
    ρ × (Nat → κ) × List (ρ × η)
  | _, recurrent, qsaRows, [] => (recurrent, qsaRows, [])
  | position, recurrent, qsaRows, token :: tokens =>
    let row := target.cell recurrent ((List.range position).map qsaRows) token
    let rest := runRows (position + 1) row.1 (Function.update qsaRows position row.2.1) tokens
    (rest.1, rest.2.1, (row.1, row.2.2) :: rest.2.2)

/-- `advance_tokens`. The snapshot is taken after the first row when the verifier asks for it;
otherwise an enabled MTP head is run along, one position per token after the very first. -/
def advanceTokens (engine : QwenNativeEngine ρ κ η) (inputTokens : List Nat)
    (captureFirstState : Bool) : Except String (QwenNativeEngine ρ κ η) :=
  if inputTokens.length ∉ [1, 2, 4, 8, 16] ∨ (inputTokens.any fun token => token ≥ vocabulary) ∨
      engine.tokenHistory.length + inputTokens.length > qwenModelMaxLength then
    .error "Qwen prefill bucket or input token is invalid"
  else if captureFirstState ∧ inputTokens.length ≠ 2 then
    .error "Qwen verifier state capture requires the T=2 bucket"
  else
    let startPosition := engine.tokenHistory.length
    let pass := runRows target startPosition engine.recurrent engine.qsaRows inputTokens
    let mtpTokens :=
      if engine.mtpEnabled && !captureFirstState then
        inputTokens.length - (if startPosition = 0 then 1 else 0)
      else 0
    .ok
      { engine with
        recurrent := pass.1
        snapshot :=
          if captureFirstState then (pass.2.2.head?.map (·.1)).getD engine.snapshot
          else engine.snapshot
        qsaRows := pass.2.1
        finalHyper := pass.2.2.map (·.2)
        lastTargetHyper := (pass.2.2.getLast?.map (·.2)).getD engine.lastTargetHyper
        tokenHistory := engine.tokenHistory ++ inputTokens
        mtpPosition := engine.mtpPosition + mtpTokens }

/-- `finish_logits` on the row `advance_tokens` saved last. -/
def finishLogits (engine : QwenNativeEngine ρ κ η) : Nat := target.argmax engine.lastTargetHyper

/-- `forward_tokens`. -/
def forwardTokens (engine : QwenNativeEngine ρ κ η) (inputTokens : List Nat) :
    Except String (QwenNativeEngine ρ κ η × Nat) :=
  match advanceTokens target engine inputTokens false with
  | .error e => .error e
  | .ok engine => .ok (engine, finishLogits target engine)

/-- `forward_mtp_pair`, with the drafter as a function of what it is asked. -/
def forwardMtpPair (drafter : List Nat → Nat → Nat) (engine : QwenNativeEngine ρ κ η)
    (candidate : Nat) : Except String (QwenNativeEngine ρ κ η × QwenMtpStep) :=
  if engine.tokenHistory.isEmpty ∨ candidate ≥ vocabulary ∨
      engine.tokenHistory.length + 2 > qwenModelMaxLength then
    .error "Qwen NEXTN candidate or sequence length is invalid"
  else
    let historyLen := engine.tokenHistory.length
    let draft := drafter engine.tokenHistory candidate
    match advanceTokens target engine [candidate, draft] true with
    | .error e => .error e
    | .ok engine =>
      match engine.finalHyper.map target.argmax with
      | [verify0, verify1] =>
        if verify0 = draft then
          .ok ({ engine with mtpPosition := engine.mtpPosition + 2 },
            { outputTokens := [candidate, draft], nextToken := verify1, draftToken := draft
              accepted := true })
        else
          -- restore_target_state, then hide the draft's row behind the shorter history
          .ok
            ({ engine with
                recurrent := engine.snapshot
                tokenHistory := engine.tokenHistory.take (historyLen + 1)
                lastTargetHyper := engine.finalHyper.headD engine.lastTargetHyper
                mtpPosition := engine.mtpPosition + 1 },
              { outputTokens := [candidate], nextToken := verify0, draftToken := draft
                accepted := false })
      | _ => .error "Qwen NEXTN verifier rows are missing"

end Passes

/-! ## Live state -/

section LiveState

variable {ρ κ η : Type} {target : Target ρ κ η}

/-- The live state of the engine is the one obtained by feeding `tokens` one at a time: the
history, the recurrent state, the QSA rows below the history length, and the saved hyper row. -/
structure Live (target : Target ρ κ η) (engine : QwenNativeEngine ρ κ η) (tokens : List Nat) :
    Prop where
  history : engine.tokenHistory = tokens
  recurrent : engine.recurrent = (target.fold tokens).recurrent
  rows : (List.range tokens.length).map engine.qsaRows = (target.fold tokens).rows
  hyper : ∀ hyper, (target.fold tokens).hyper = some hyper → engine.lastTargetHyper = hyper

theorem live_resetSequence (engine : QwenNativeEngine ρ κ η) :
    Live target (resetSequence target engine) [] :=
  ⟨rfl, rfl, rfl, fun hyper h => by cases h⟩

theorem Live.finishLogits {engine : QwenNativeEngine ρ κ η} {tokens : List Nat}
    (h : Live target engine tokens) (hne : tokens ≠ []) :
    finishLogits target engine = target.next tokens := by
  obtain ⟨front, token, rfl⟩ := List.eq_nil_or_concat tokens |>.resolve_left hne
  unfold FlashNext.finishLogits Target.next
  rw [List.concat_eq_append] at h ⊢
  have hhyper := h.hyper (target.cell (target.fold front).recurrent (target.fold front).rows
    token).2.2 (by rw [target.fold_concat]; rfl)
  rw [hhyper, target.fold_concat]
  rfl

/-- What a pass computes from the live state of `fed`: rows and states of feeding the bucket
token by token, with the earlier QSA rows untouched. Induction on the bucket. -/
theorem runRows_spec (tokens : List Nat) :
    ∀ (fed : List Nat) (recurrent : ρ) (qsaRows : Nat → κ),
      recurrent = (target.fold fed).recurrent →
      (List.range fed.length).map qsaRows = (target.fold fed).rows →
      (runRows target fed.length recurrent qsaRows tokens).1 =
          (target.fold (fed ++ tokens)).recurrent ∧
        (List.range (fed ++ tokens).length).map
            (runRows target fed.length recurrent qsaRows tokens).2.1 =
          (target.fold (fed ++ tokens)).rows ∧
        (∀ i, i < tokens.length →
          ∃ row, (runRows target fed.length recurrent qsaRows tokens).2.2[i]? = some row ∧
            row.1 = (target.fold (fed ++ tokens.take (i + 1))).recurrent ∧
            (target.fold (fed ++ tokens.take (i + 1))).hyper = some row.2) ∧
        (runRows target fed.length recurrent qsaRows tokens).2.2.length = tokens.length := by
  induction tokens with
  | nil =>
    intro fed recurrent qsaRows hrec hrows
    simp only [runRows, List.append_nil]
    exact ⟨hrec, hrows, fun i hi => absurd hi (by simp), rfl⟩
  | cons token tokens ih =>
    intro fed recurrent qsaRows hrec hrows
    set row := target.cell recurrent ((List.range fed.length).map qsaRows) token with hrow
    have hcell : target.fold (fed ++ [token]) =
        ⟨row.1, (target.fold fed).rows ++ [row.2.1], some row.2.2⟩ := by
      rw [target.fold_concat, Target.feed, ← hrec, ← hrows]
    have hlen : (fed ++ [token]).length = fed.length + 1 := by simp
    -- the new row goes to position `fed.length`; the rows below it stay
    have hrows' : (List.range (fed ++ [token]).length).map
        (Function.update qsaRows fed.length row.2.1) = (target.fold (fed ++ [token])).rows := by
      rw [hlen, List.range_succ, List.map_append, hcell, ← hrows]
      congr 1
      · apply List.map_congr_left
        intro j hj
        exact Function.update_of_ne (Nat.ne_of_lt (List.mem_range.mp hj)) _ _
      · simp
    obtain ⟨ihrec, ihrows, ihall, ihlen⟩ := ih (fed ++ [token]) row.1
      (Function.update qsaRows fed.length row.2.1) (by rw [hcell]) hrows'
    rw [hlen] at ihrec ihrows ihall ihlen
    rw [show fed ++ token :: tokens = (fed ++ [token]) ++ tokens from by simp]
    refine ⟨ihrec, ?_, ?_, ?_⟩
    · rw [← ihrows]
      rfl
    · intro i hi
      cases i with
      | zero =>
        refine ⟨(row.1, row.2.2), rfl, ?_, ?_⟩
        · simp [hcell]
        · simp [hcell]
      | succ i =>
        obtain ⟨r, hr, hr1, hr2⟩ := ihall i (by simpa using hi)
        refine ⟨r, hr, ?_, ?_⟩
        · rw [hr1]; simp
        · rw [← hr2]; simp
    · simpa [runRows] using ihlen

/-- The guards of `advance_tokens` for a bucket that fits. -/
structure Admissible (engine : QwenNativeEngine ρ κ η) (inputTokens : List Nat) : Prop where
  bucket : inputTokens.length ∈ [1, 2, 4, 8, 16]
  inVocabulary : ∀ token ∈ inputTokens, token < vocabulary
  room : engine.tokenHistory.length + inputTokens.length ≤ qwenModelMaxLength

/-- **A bucket advances the live state token by token.** The final rows are those of the
single-token feeds, the snapshot (when asked for) is the recurrent state after the first. -/
theorem advanceTokens_live {engine : QwenNativeEngine ρ κ η} {fed : List Nat}
    (h : Live target engine fed) {inputTokens : List Nat} (hadm : Admissible engine inputTokens)
    (captureFirstState : Bool) (hcapture : captureFirstState = true → inputTokens.length = 2) :
    ∃ after, advanceTokens target engine inputTokens captureFirstState = .ok after ∧
      Live target after (fed ++ inputTokens) ∧
      after.mtpEnabled = engine.mtpEnabled ∧
      after.mtpPosition = engine.mtpPosition +
        (if engine.mtpEnabled && !captureFirstState then
          inputTokens.length - (if fed.length = 0 then 1 else 0) else 0) ∧
      after.finalHyper.length = inputTokens.length ∧
      (∀ (i : Nat) hyper, after.finalHyper[i]? = some hyper →
        (target.fold (fed ++ inputTokens.take (i + 1))).hyper = some hyper) ∧
      (captureFirstState = true →
        after.snapshot = (target.fold (fed ++ inputTokens.take 1)).recurrent) := by
  obtain ⟨hrec, hrows, hall, hlen⟩ := runRows_spec inputTokens fed engine.recurrent engine.qsaRows
    h.recurrent h.rows
  have hpos : 0 < inputTokens.length := by
    have hbucket := hadm.bucket
    rcases Nat.eq_zero_or_pos inputTokens.length with hzero | hpos
    · rw [hzero] at hbucket
      exact absurd hbucket (by decide)
    · exact hpos
  have hguard : ¬ (inputTokens.length ∉ [1, 2, 4, 8, 16] ∨
      (inputTokens.any fun token => token ≥ vocabulary) = true ∨
      engine.tokenHistory.length + inputTokens.length > qwenModelMaxLength) := by
    rintro (hb | hv | hr)
    · exact hb hadm.bucket
    · obtain ⟨token, hmem, hge⟩ := List.any_eq_true.mp hv
      have := hadm.inVocabulary token hmem
      have := of_decide_eq_true hge
      omega
    · have := hadm.room
      omega
  have hcap : ¬ (captureFirstState = true ∧ inputTokens.length ≠ 2) := fun hc =>
    hc.2 (hcapture hc.1)
  unfold advanceTokens
  rw [if_neg hguard, if_neg hcap]
  simp only [h.history]
  refine ⟨_, rfl, ⟨rfl, hrec, hrows, ?_⟩, rfl, rfl, ?_, ?_, ?_⟩
  · -- the saved row is the last row of the pass
    intro hyper hhyper
    obtain ⟨row, hrow, -, hrowHyper⟩ := hall (inputTokens.length - 1) (by omega)
    rw [show inputTokens.length - 1 + 1 = inputTokens.length from by omega,
      List.take_length] at hrowHyper
    rw [hhyper] at hrowHyper
    have hlast : (runRows target fed.length engine.recurrent engine.qsaRows
        inputTokens).2.2.getLast? = some row := by
      rw [List.getLast?_eq_getElem?, hlen]
      exact hrow
    rw [hlast]
    exact (Option.some.inj hrowHyper).symm
  · rw [List.length_map, hlen]
  · intro i hyper hi
    rw [List.getElem?_map] at hi
    obtain ⟨row, hrow, rfl⟩ := Option.map_eq_some_iff.mp hi
    have hlt : i < inputTokens.length := by
      rw [← hlen]
      exact (List.getElem?_eq_some_iff.mp hrow).1
    obtain ⟨row', hrow', -, hhyper⟩ := hall i hlt
    rw [hrow] at hrow'
    cases hrow'
    exact hhyper
  · intro hc
    obtain ⟨row, hrow, hrecurrent, -⟩ := hall 0 hpos
    rw [if_pos hc, List.head?_eq_getElem?, hrow]
    exact hrecurrent

/-- What one engine call leaves: the live state of `fed`, with the MTP chain one position
behind the history whenever it is enabled. -/
structure Ready (target : Target ρ κ η) (engine : QwenNativeEngine ρ κ η) (fed : List Nat) : Prop
    where
  live : Live target engine fed
  mtpPosition : engine.mtpEnabled = true → engine.mtpPosition = fed.length - 1

theorem forwardTokens_spec {engine : QwenNativeEngine ρ κ η} {fed : List Nat}
    (h : Ready target engine fed) {inputTokens : List Nat} (hadm : Admissible engine inputTokens) :
    ∃ after, forwardTokens target engine inputTokens =
        .ok (after, target.next (fed ++ inputTokens)) ∧
      Ready target after (fed ++ inputTokens) ∧ after.mtpEnabled = engine.mtpEnabled := by
  obtain ⟨after, hok, hlive, henabled, hmtp, hlen, -, -⟩ :=
    advanceTokens_live h.live hadm false (by simp)
  have hne : inputTokens ≠ [] := by
    rintro rfl
    exact absurd hadm.bucket (by decide)
  refine ⟨after, ?_, ⟨hlive, fun hon => ?_⟩, henabled⟩
  · unfold forwardTokens
    rw [hok]
    simp only
    rw [hlive.finishLogits (by simp [hne])]
  · rw [henabled] at hon
    rw [hmtp, h.mtpPosition hon, List.length_append]
    have hpos := List.length_pos_of_ne_nil hne
    simp only [hon, Bool.not_false, Bool.and_true, if_true]
    split <;> omega

/-- **The NEXTN pair is exact.** From the live state of `fed` with the greedy candidate, the
pair cannot fail, emits one or two tokens of the greedy continuation, names the token after
them, and leaves the live state of exactly the tokens it emitted. -/
theorem forwardMtpPair_spec {engine : QwenNativeEngine ρ κ η} {fed : List Nat}
    (h : Ready target engine fed) (hne : fed ≠ []) (hvocab : ∀ hyper, target.argmax hyper < vocabulary)
    {drafter : List Nat → Nat → Nat} (hdraft : ∀ history token, drafter history token < vocabulary)
    (hroom : fed.length + 2 ≤ qwenModelMaxLength) :
    ∃ after step, forwardMtpPair target drafter engine (target.next fed) = .ok (after, step) ∧
      step.outputTokens = Greedy.continuation target.next fed step.outputTokens.length ∧
      0 < step.outputTokens.length ∧
      step.nextToken = target.next (fed ++ step.outputTokens) ∧
      Ready target after (fed ++ step.outputTokens) ∧
      after.mtpEnabled = engine.mtpEnabled := by
  have hcandidate : target.next fed < vocabulary := by
    obtain ⟨front, token, rfl⟩ := List.eq_nil_or_concat fed |>.resolve_left hne
    rw [List.concat_eq_append, Target.next, target.fold_concat]
    exact hvocab _
  set candidate := target.next fed with hcand
  set draft := drafter engine.tokenHistory candidate with hdraftDef
  have hadm : Admissible engine [candidate, draft] := by
    refine ⟨by simp, ?_, ?_⟩
    · intro token hmem
      rcases List.mem_cons.mp hmem with rfl | hmem
      · exact hcandidate
      · rw [List.mem_singleton.mp hmem]
        exact hdraft _ _
    · rw [h.live.history]
      exact hroom
  obtain ⟨pass, hok, hlive, henabled, hmtp, hlen, hhyper, hsnapshot⟩ :=
    advanceTokens_live h.live hadm true (by simp)
  obtain ⟨row0, row1, hrows⟩ := List.length_eq_two.mp hlen
  -- the two verifier rows are the greedy answers after the candidate and after the draft
  have hverify0 : target.argmax row0 = target.next (fed ++ [candidate]) := by
    have := hhyper 0 row0 (by rw [hrows]; rfl)
    rw [Target.next, show fed ++ [candidate] = fed ++ [candidate, draft].take (0 + 1) from rfl, this]
  have hverify1 : target.argmax row1 = target.next (fed ++ [candidate, draft]) := by
    have := hhyper 1 row1 (by rw [hrows]; rfl)
    rw [Target.next, show fed ++ [candidate, draft] = fed ++ [candidate, draft].take (1 + 1)
      from rfl, this]
  have hposition : pass.mtpPosition = engine.mtpPosition := by simpa using hmtp
  have hguard : ¬ (engine.tokenHistory.isEmpty = true ∨ candidate ≥ vocabulary ∨
      engine.tokenHistory.length + 2 > qwenModelMaxLength) := by
    rw [h.live.history]
    rintro (he | hv | hr)
    · exact hne (List.isEmpty_iff.mp he)
    · omega
    · omega
  have hpositive := List.length_pos_of_ne_nil hne
  unfold forwardMtpPair
  rw [if_neg hguard]
  simp only [← hdraftDef, hok, hrows, List.map_cons, List.map_nil]
  by_cases haccept : target.argmax row0 = draft
  · rw [if_pos haccept]
    refine ⟨_, _, rfl, ?_, by simp, hverify1, ⟨⟨?_, ?_, ?_, ?_⟩, ?_⟩, henabled⟩
    · simp only [List.length_cons, List.length_nil, Greedy.continuation]
      rw [← hcand, ← hverify0, haccept]
    · exact hlive.history
    · exact hlive.recurrent
    · exact hlive.rows
    · exact hlive.hyper
    · intro hon
      have := h.mtpPosition (by rw [← henabled]; exact hon)
      simp only [hposition, this, List.length_append, List.length_cons, List.length_nil]
      omega
  · rw [if_neg haccept]
    -- rejection: the snapshot and the first row are the state after the candidate alone
    refine ⟨_, _, rfl, rfl, by simp, hverify0, ⟨⟨?_, ?_, ?_, ?_⟩, ?_⟩, henabled⟩
    · simp only [hlive.history, h.live.history]
      rw [show fed ++ [candidate, draft] = (fed ++ [candidate]) ++ [draft] from by simp]
      exact List.take_left' (by simp)
    · exact hsnapshot rfl
    · -- the stale row of the draft lies past the shorter history
      have hrowsLive := hlive.rows
      rw [show fed ++ [candidate, draft] = (fed ++ [candidate]) ++ [draft] from by simp,
        List.length_append, List.length_singleton, List.range_succ, List.map_append,
        target.fold_concat] at hrowsLive
      exact List.append_inj_left' hrowsLive rfl
    · intro hyper hhyp
      have := hhyper 0 row0 (by rw [hrows]; rfl)
      rw [show fed ++ [candidate, draft].take (0 + 1) = fed ++ [candidate] from rfl] at this
      simp only [List.headD_cons]
      exact Option.some.inj (this.symm.trans hhyp)
    · intro hon
      have := h.mtpPosition (by rw [← henabled]; exact hon)
      simp only [hposition, this, List.length_append, List.length_cons, List.length_nil]
      omega

end LiveState

end Spark.FlashNext
