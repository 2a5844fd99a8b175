import Spark.FlashNext.Engine

/-!
# One Flash-Next request: `run_generation`

The service loop of `server.rs`: bucketed prefill, then decoding either one token at a time or
in NEXTN pairs while at least two tokens of budget remain. The request's event receiver lives
as long as the request, so every send succeeds; the model returns the list of events. Beside
it, it records the engine after each call together with the tokens fed so far.

* **`prefill_spec`** — the buckets leave the live state of the prompt and its greedy token.
* **`decodeLoop_spec`** — the loop sends what plain greedy decoding sends, whatever the drafts.
* **`runGeneration_lossless`** — the request as a whole, with MTP on and off.
-/

namespace Spark.FlashNext

open Greedy (Finish)

structure GenerationRequest where
  promptTokenIds : List Nat
  maxNewTokens : Nat
  stopTokenIds : List Nat
  /-- `temperature == 0.0 && top_p == 1.0`. -/
  greedy : Bool

inductive EngineEvent where
  | token (token : Nat)
  | finished (reason : Finish)
  | failed (message : String)
  deriving DecidableEq, Repr

/-- The engine after a call, and the tokens fed to it up to then. -/
structure StepRecord (ρ κ η : Type) where
  engine : QwenNativeEngine ρ κ η
  fed : List Nat

/-- What one request did: its events, and the engine after each of its calls. -/
structure Generation (ρ κ η : Type) where
  events : List EngineEvent
  steps : List (StepRecord ρ κ η)

section Loops

variable {ρ κ η : Type} (target : Target ρ κ η) (drafter : List Nat → Nat → Nat)

/-- The largest AOT bucket that fits. -/
def bucketTokens (remaining : Nat) : Option Nat := [16, 8, 4, 2, 1].find? (· ≤ remaining)

/-- The prefill loop over the rest of the prompt; only the last bucket projects a token. -/
def prefill : (fuel : Nat) → QwenNativeEngine ρ κ η → (fed rest : List Nat) →
    List (StepRecord ρ κ η) × Except String (QwenNativeEngine ρ κ η × Nat)
  | 0, _, _, _ => ([], .error "Qwen prompt did not produce a decode token")
  | fuel + 1, engine, fed, rest =>
    match bucketTokens rest.length with
    | none => ([], .error "Qwen prefill bucket decomposition failed")
    | some chunkTokens =>
      let chunk := rest.take chunkTokens
      if chunkTokens = rest.length then
        match forwardTokens target engine chunk with
        | .error e => ([], .error e)
        | .ok (engine, token) => ([⟨engine, fed ++ chunk⟩], .ok (engine, token))
      else
        match advanceTokens target engine chunk false with
        | .error e => ([], .error e)
        | .ok engine =>
          let later := prefill fuel engine (fed ++ chunk) (rest.drop chunkTokens)
          (⟨engine, fed ++ chunk⟩ :: later.1, later.2)

/-- The decode loop `while generated < request.max_new_tokens`. Every round sends a token or
returns, so the budget left bounds the rounds. -/
def decodeLoop (useMtp : Bool) (request : GenerationRequest) :
    (fuel : Nat) → QwenNativeEngine ρ κ η → (fed : List Nat) → (token generated : Nat) →
      Generation ρ κ η
  | 0, _, _, _, _ => ⟨[], []⟩
  | fuel + 1, engine, fed, token, generated =>
    if generated < request.maxNewTokens then
      if useMtp && decide (generated + 1 < request.maxNewTokens) then
        match forwardMtpPair target drafter engine token with
        | .error e => ⟨[.failed e], []⟩
        | .ok (engine, step) =>
          let record := ⟨engine, fed ++ step.outputTokens⟩
          match Greedy.stream request.stopTokenIds.contains request.maxNewTokens
              step.outputTokens generated with
          | (sent, _, some reason) => ⟨sent.map .token ++ [.finished reason], [record]⟩
          | (sent, generated, none) =>
            let later := decodeLoop useMtp request fuel engine record.fed step.nextToken generated
            ⟨sent.map .token ++ later.events, record :: later.steps⟩
      else if request.stopTokenIds.contains token then ⟨[.finished .stop], []⟩
      else if generated + 1 = request.maxNewTokens then ⟨[.token token, .finished .length], []⟩
      else
        match forwardTokens target engine [token] with
        | .error e => ⟨[.token token, .failed e], []⟩
        | .ok (engine, nextToken) =>
          let record := ⟨engine, fed ++ [token]⟩
          let later :=
            decodeLoop useMtp request fuel engine record.fed nextToken (generated + 1)
          ⟨.token token :: later.events, record :: later.steps⟩
    else ⟨[.finished .length], []⟩

/-- `run_generation`. -/
def runGeneration (useMtp : Bool) (engine : QwenNativeEngine ρ κ η) (request : GenerationRequest) :
    Generation ρ κ η :=
  if request.promptTokenIds.isEmpty then ⟨[.failed "Qwen prompt cannot be empty"], []⟩
  else if !request.greedy then
    ⟨[.failed "native Qwen service currently requires temperature=0 and top_p=1"], []⟩
  else
    let prompt := request.promptTokenIds
    match prefill target prompt.length (resetSequence target engine) [] prompt with
    | (steps, .error e) => ⟨[.failed e], steps⟩
    | (steps, .ok (engine, token)) =>
      let decoded :=
        decodeLoop target drafter useMtp request (request.maxNewTokens + 1) engine prompt token 0
      ⟨decoded.events, steps ++ decoded.steps⟩

end Loops

/-! ## Prefill -/

section Proofs

variable {ρ κ η : Type} {target : Target ρ κ η} {drafter : List Nat → Nat → Nat}

theorem bucketTokens_spec {remaining : Nat} (hpos : 0 < remaining) :
    ∃ chunk, bucketTokens remaining = some chunk ∧ chunk ∈ [1, 2, 4, 8, 16] ∧ chunk ≤ remaining := by
  cases hbucket : bucketTokens remaining with
  | none =>
    have := List.find?_eq_none.mp hbucket 1 (by simp)
    simp at this
    omega
  | some chunk =>
    have hle := List.find?_some hbucket
    have hmem := List.mem_of_find?_eq_some hbucket
    refine ⟨chunk, rfl, ?_, by simpa using hle⟩
    simp only [List.mem_cons, List.not_mem_nil, or_false] at hmem ⊢
    omega

/-- The prefill loop leaves the live state of the whole prompt and the greedy token after it,
and every bucket on the way leaves the live state of what was fed. Induction on the fuel; each
bucket takes at least one token off the rest. -/
theorem prefill_spec (fuel : Nat) :
    ∀ {engine : QwenNativeEngine ρ κ η} {fed rest : List Nat}, Ready target engine fed →
      rest ≠ [] → rest.length ≤ fuel → (∀ token ∈ rest, token < vocabulary) →
      fed.length + rest.length ≤ qwenModelMaxLength →
      ∃ after, (prefill target fuel engine fed rest).2 =
          .ok (after, target.next (fed ++ rest)) ∧
        Ready target after (fed ++ rest) ∧ after.mtpEnabled = engine.mtpEnabled ∧
        ∀ record ∈ (prefill target fuel engine fed rest).1,
          record.engine.mtpEnabled = engine.mtpEnabled ∧
            Ready target record.engine record.fed ∧ record.fed <+: fed ++ rest := by
  induction fuel with
  | zero =>
    intro engine fed rest _ hne hfuel
    exact absurd (List.length_pos_of_ne_nil hne) (by omega)
  | succ fuel ih =>
    intro engine fed rest h hne hfuel hvocab hroom
    have hpos := List.length_pos_of_ne_nil hne
    obtain ⟨chunkTokens, hbucket, hmem, hle⟩ := bucketTokens_spec hpos
    have hchunk : 0 < chunkTokens := by
      rcases Nat.eq_zero_or_pos chunkTokens with rfl | hpos
      · exact absurd hmem (by decide)
      · exact hpos
    have hlen : (rest.take chunkTokens).length = chunkTokens := by
      rw [List.length_take]
      omega
    have hadm : Admissible engine (rest.take chunkTokens) := by
      refine ⟨by rw [hlen]; exact hmem, fun token htok => hvocab token (List.mem_of_mem_take htok),
        ?_⟩
      rw [h.live.history, hlen]
      omega
    obtain ⟨after, hok, hready, henabled⟩ := forwardTokens_spec h hadm
    simp only [prefill, hbucket]
    by_cases hlast : chunkTokens = rest.length
    · -- the final bucket
      rw [if_pos hlast]
      have htake : rest.take chunkTokens = rest := by rw [hlast, List.take_length]
      rw [htake] at hok hready ⊢
      rw [hok]
      refine ⟨after, rfl, hready, henabled, fun record hrecord => ?_⟩
      rw [List.mem_singleton.mp hrecord]
      exact ⟨henabled, hready, List.prefix_rfl⟩
    · rw [if_neg hlast]
      unfold forwardTokens at hok
      cases hadvance : advanceTokens target engine (rest.take chunkTokens) false with
      | error e => rw [hadvance] at hok; cases hok
      | ok advanced =>
        rw [hadvance] at hok
        obtain ⟨rfl, -⟩ := Prod.mk.inj (Except.ok.inj hok)
        simp only
        have hsplit : fed ++ rest.take chunkTokens ++ rest.drop chunkTokens = fed ++ rest := by
          rw [List.append_assoc, List.take_append_drop]
        have hdrop : (rest.drop chunkTokens).length = rest.length - chunkTokens := List.length_drop
        obtain ⟨final, hfinal, hready', henabled', hsteps⟩ := ih hready
          (fun hnil => by rw [hnil] at hdrop; simp at hdrop; omega) (by omega)
          (fun token htok => hvocab token (List.mem_of_mem_drop htok))
          (by rw [List.length_append, hlen]; omega)
        rw [hsplit] at hfinal hready' hsteps
        refine ⟨final, hfinal, hready', henabled'.trans henabled, fun record hrecord => ?_⟩
        rcases List.mem_cons.mp hrecord with rfl | hrecord
        · refine ⟨henabled, hready, ?_⟩
          rw [← hsplit]
          exact List.prefix_append _ _
        · obtain ⟨hmtp, hrec, hprefix⟩ := hsteps record hrecord
          exact ⟨hmtp.trans henabled, hrec, hprefix⟩

/-! ## Decoding -/

/-- The events of a request that plain greedy decoding answers. -/
def renderEvents (result : List Nat × Finish) : List EngineEvent :=
  result.1.map .token ++ [.finished result.2]

/-- **The decode loop is plain greedy decoding.** From the live state of `fed` with its greedy
token, the loop sends what decoding token by token sends, for any drafter, with or without the
MTP branch; and after every engine call the state is that of the tokens fed so far. Induction on
the fuel. -/
theorem decodeLoop_spec (hvocab : ∀ hyper, target.argmax hyper < vocabulary)
    (hdraft : ∀ history token, drafter history token < vocabulary) (useMtp : Bool)
    (request : GenerationRequest) (fuel : Nat) :
    ∀ {engine : QwenNativeEngine ρ κ η} {fed : List Nat} {generated : Nat},
      Ready target engine fed → fed ≠ [] → generated < request.maxNewTokens →
      request.maxNewTokens - generated ≤ fuel →
      fed.length + (request.maxNewTokens - generated) ≤ qwenModelMaxLength →
      (decodeLoop target drafter useMtp request fuel engine fed (target.next fed)
          generated).events =
        renderEvents (Greedy.decode target.next request.stopTokenIds.contains fed
          (request.maxNewTokens - generated)) ∧
      ∀ record ∈ (decodeLoop target drafter useMtp request fuel engine fed (target.next fed)
          generated).steps,
        record.engine.mtpEnabled = engine.mtpEnabled ∧ Ready target record.engine record.fed ∧
          ∃ n, record.fed = fed ++ Greedy.continuation target.next fed n := by
  induction fuel with
  | zero =>
    intro engine fed generated _ _ hlt hfuel
    omega
  | succ fuel ih =>
    intro engine fed generated h hne hlt hfuel hroom
    simp only [decodeLoop, if_pos hlt]
    by_cases hpair : (useMtp && decide (generated + 1 < request.maxNewTokens)) = true
    · rw [if_pos hpair]
      have htwo : generated + 1 < request.maxNewTokens := by
        simpa using (Bool.and_eq_true_iff.mp hpair).2
      obtain ⟨after, step, hok, houtput, hpositive, hnext, hready, henabled⟩ :=
        forwardMtpPair_spec h hne hvocab hdraft (by omega)
      rw [hok]
      simp only
      have hcont : ∃ n, fed ++ step.outputTokens = fed ++ Greedy.continuation target.next fed n :=
        ⟨step.outputTokens.length, by rw [← houtput]⟩
      rcases Greedy.decode_block target.next request.stopTokenIds.contains request.maxNewTokens
          step.outputTokens fed generated houtput hlt with
        ⟨reason, hreason, hdecode⟩ | ⟨hnone, hall, hcount, hleft, hdecode⟩
      · -- the request ends inside the pair
        cases hstream : Greedy.stream request.stopTokenIds.contains request.maxNewTokens
            step.outputTokens generated with
        | mk sent counted =>
          obtain ⟨count, ended⟩ := counted
          rw [hstream] at hreason hdecode
          simp only at hreason hdecode
          subst hreason
          refine ⟨?_, fun record hrecord => ?_⟩
          · rw [hdecode]
            rfl
          · rw [List.mem_singleton.mp hrecord]
            exact ⟨henabled, hready, hcont⟩
      · cases hstream : Greedy.stream request.stopTokenIds.contains request.maxNewTokens
            step.outputTokens generated with
        | mk sent counted =>
          obtain ⟨count, ended⟩ := counted
          rw [hstream] at hnone hall hcount
          simp only at hnone hall hcount
          subst hnone
          subst hall
          subst hcount
          simp only
          rw [hnext]
          have hlength : (fed ++ step.outputTokens).length =
              fed.length + step.outputTokens.length := List.length_append
          obtain ⟨ihevents, ihsteps⟩ := ih hready (by simp [hne]) hleft (by omega)
            (by rw [hlength]; omega)
          refine ⟨?_, fun record hrecord => ?_⟩
          · rw [ihevents, hdecode]
            simp [renderEvents]
          · rcases List.mem_cons.mp hrecord with rfl | hrecord
            · exact ⟨henabled, hready, hcont⟩
            · obtain ⟨hmtp, hrec, n, hn⟩ := ihsteps record hrecord
              refine ⟨hmtp.trans henabled, hrec, step.outputTokens.length + n, ?_⟩
              rw [hn, Greedy.continuation_add, ← houtput, List.append_assoc]
    · rw [if_neg hpair]
      obtain ⟨budget, hbudget⟩ : ∃ budget, request.maxNewTokens - generated = budget + 1 :=
        ⟨request.maxNewTokens - generated - 1, by omega⟩
      rw [hbudget]
      simp only [Greedy.decode]
      by_cases hstop : request.stopTokenIds.contains (target.next fed) = true
      · rw [if_pos hstop, if_pos hstop]
        exact ⟨rfl, fun record hrecord => by cases hrecord⟩
      · rw [if_neg hstop, if_neg hstop]
        by_cases hlast : generated + 1 = request.maxNewTokens
        · rw [if_pos hlast]
          have hzero : budget = 0 := by omega
          subst hzero
          exact ⟨rfl, fun record hrecord => by cases hrecord⟩
        · rw [if_neg hlast]
          have hnextVocab : target.next fed < vocabulary := by
            obtain ⟨front, token, rfl⟩ := List.eq_nil_or_concat fed |>.resolve_left hne
            rw [List.concat_eq_append, Target.next, target.fold_concat]
            exact hvocab _
          have hadm : Admissible engine [target.next fed] := by
            refine ⟨by simp, fun token htok => ?_, ?_⟩
            · rw [List.mem_singleton.mp htok]
              exact hnextVocab
            · rw [h.live.history]
              simp only [List.length_singleton]
              omega
          obtain ⟨after, hok, hready, henabled⟩ := forwardTokens_spec h hadm
          rw [hok]
          simp only
          have hlength : (fed ++ [target.next fed]).length = fed.length + 1 := by simp
          have hstep : generated + 1 < request.maxNewTokens := by omega
          obtain ⟨ihevents, ihsteps⟩ := ih hready (by simp) hstep (by omega)
            (by rw [hlength]; omega)
          rw [show request.maxNewTokens - (generated + 1) = budget from by omega] at ihevents
          refine ⟨?_, fun record hrecord => ?_⟩
          · rw [ihevents]
            rfl
          · rcases List.mem_cons.mp hrecord with rfl | hrecord
            · exact ⟨henabled, hready, 1, rfl⟩
            · obtain ⟨hmtp, hrec, n, hn⟩ := ihsteps record hrecord
              refine ⟨hmtp.trans henabled, hrec, 1 + n, ?_⟩
              rw [hn, Greedy.continuation_add, List.append_assoc]
              rfl

/-- **NEXTN decoding is lossless.** For every prompt, budget, stop set and drafter, and whatever
a previous request left in the engine: the events with MTP equal the events without it, and both
are plain greedy decoding of the prompt. After every engine call of the MTP run the live state is
that of the tokens fed one at a time, and the MTP chain is one position behind the history. -/
theorem runGeneration_lossless (target : Target ρ κ η) (drafter : List Nat → Nat → Nat)
    (hvocab : ∀ hyper, target.argmax hyper < vocabulary)
    (hdraft : ∀ history token, drafter history token < vocabulary)
    (engine : QwenNativeEngine ρ κ η) (request : GenerationRequest)
    (hprompt : request.promptTokenIds ≠ [])
    (htokens : ∀ token ∈ request.promptTokenIds, token < vocabulary)
    (hgreedy : request.greedy = true) (hmax : 1 ≤ request.maxNewTokens)
    (hroom : request.promptTokenIds.length + request.maxNewTokens ≤ qwenModelMaxLength) :
    (runGeneration target drafter true { engine with mtpEnabled := true } request).events =
        (runGeneration target drafter false { engine with mtpEnabled := false } request).events ∧
      (runGeneration target drafter true { engine with mtpEnabled := true } request).events =
        renderEvents (Greedy.decode target.next request.stopTokenIds.contains
          request.promptTokenIds request.maxNewTokens) ∧
      ∀ record ∈
          (runGeneration target drafter true { engine with mtpEnabled := true } request).steps,
        Live target record.engine record.fed ∧
          record.engine.mtpPosition = record.engine.tokenHistory.length - 1 ∧
          (record.fed <+: request.promptTokenIds ∨
            ∃ n, record.fed = request.promptTokenIds ++
              Greedy.continuation target.next request.promptTokenIds n) := by
  -- both modes run the same two loops
  have hrun : ∀ useMtp : Bool,
      (runGeneration target drafter useMtp { engine with mtpEnabled := useMtp } request).events =
          renderEvents (Greedy.decode target.next request.stopTokenIds.contains
            request.promptTokenIds request.maxNewTokens) ∧
        ∀ record ∈
            (runGeneration target drafter useMtp { engine with mtpEnabled := useMtp } request).steps,
          record.engine.mtpEnabled = useMtp ∧ Ready target record.engine record.fed ∧
            (record.fed <+: request.promptTokenIds ∨
              ∃ n, record.fed = request.promptTokenIds ++
                Greedy.continuation target.next request.promptTokenIds n) := by
    intro useMtp
    have hreset : Ready target (resetSequence target { engine with mtpEnabled := useMtp }) [] :=
      ⟨live_resetSequence _, fun _ => rfl⟩
    obtain ⟨after, hprefill, hready, henabled, hsteps⟩ :=
      prefill_spec request.promptTokenIds.length hreset hprompt (Nat.le_refl _) htokens
        (by simp only [List.length_nil]; omega)
    simp only [List.nil_append] at hprefill hready hsteps
    unfold runGeneration
    rw [if_neg (by simpa using hprompt), if_neg (by simp [hgreedy])]
    simp only
    cases hpre : prefill target request.promptTokenIds.length
        (resetSequence target { engine with mtpEnabled := useMtp }) [] request.promptTokenIds with
    | mk steps answer =>
      rw [hpre] at hprefill hsteps
      simp only at hprefill
      subst hprefill
      simp only
      obtain ⟨hevents, hdecoded⟩ := decodeLoop_spec hvocab hdraft useMtp request
        (request.maxNewTokens + 1) hready hprompt hmax (by omega) (by omega)
      rw [Nat.sub_zero] at hevents
      refine ⟨hevents, fun record hrecord => ?_⟩
      rcases List.mem_append.mp hrecord with hrecord | hrecord
      · obtain ⟨hmtp, hrec, hprefix⟩ := hsteps record hrecord
        exact ⟨hmtp, hrec, .inl hprefix⟩
      · obtain ⟨hmtp, hrec, hcont⟩ := hdecoded record hrecord
        exact ⟨hmtp.trans henabled, hrec, .inr hcont⟩
  obtain ⟨hon, hsteps⟩ := hrun true
  obtain ⟨hoff, -⟩ := hrun false
  refine ⟨hon.trans hoff.symm, hon, fun record hrecord => ?_⟩
  obtain ⟨hmtp, hrec, hfed⟩ := hsteps record hrecord
  refine ⟨hrec.live, ?_, hfed⟩
  rw [hrec.mtpPosition hmtp, hrec.live.history]

def sampleTarget : Target Nat Nat Nat where
  reset := 1
  cell := fun recurrent rows token => (recurrent + token + 1, token, recurrent * 3 + rows.length)
  argmax := fun hyper => hyper % 7

-- right on the first two pairs, wrong on the third
def sampleDrafter (history : List Nat) (_ : Nat) : Nat := (history.length * 6) % 7

def sampleEngine : QwenNativeEngine Nat Nat Nat :=
  ⟨9, 9, fun _ => 9, [9], 9, [4, 4], 5, false⟩

def sampleRequest : GenerationRequest := ⟨[3, 1, 4], 6, [6], true⟩

theorem runGeneration_lossless_sample :
    (runGeneration sampleTarget sampleDrafter true { sampleEngine with mtpEnabled := true }
        sampleRequest).events =
          [.token 2, .token 4, .token 0, .token 2, .finished .stop] ∧
      (runGeneration sampleTarget sampleDrafter false { sampleEngine with mtpEnabled := false }
        sampleRequest).events =
          [.token 2, .token 4, .token 0, .token 2, .finished .stop] := by
  obtain ⟨hmodes, hgreedy, -⟩ := runGeneration_lossless sampleTarget sampleDrafter
    (fun hyper => Nat.lt_of_lt_of_le (Nat.mod_lt hyper (by decide)) (by decide))
    (fun history token => Nat.lt_of_lt_of_le (Nat.mod_lt _ (by decide)) (by decide))
    sampleEngine sampleRequest (by decide) (by decide) rfl (by decide) (by decide)
  have hdecoded : renderEvents (Greedy.decode sampleTarget.next
      sampleRequest.stopTokenIds.contains sampleRequest.promptTokenIds
      sampleRequest.maxNewTokens) =
        [.token 2, .token 4, .token 0, .token 2, .finished .stop] := by
    decide
  exact ⟨hgreedy.trans hdecoded, hmodes.symm.trans (hgreedy.trans hdecoded)⟩

end Proofs

end Spark.FlashNext
