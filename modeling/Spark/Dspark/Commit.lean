import Spark.Dspark.Frontier

/-!
# What a DSpark cycle commits

Rolling back and replaying is always exact. Committing directly is not: the verifier records no prefix of a long
block, and a greedy block goes on behind an eos.

* **`argmaxVerified_iff`**, **`stochasticVerified_iff`** — one cycle behind its verifier.
* **`cycle_exact_iff`** — the blocks for which it is exact.
-/

namespace Spark.Dspark

variable {σ Λ : Type} {target : Recurrent Int σ Λ} {answers : Answers σ Λ} {eosToken : Int}
  {before session session' : Session σ Λ} {accepted newly drafts : List Int} {maxTokens acceptedCap : Int}
  {started : Started σ Λ}

/-! ## Greedy cycles -/

/-- The block is committed as it was verified. -/
structure CommitsBlock (answers : Answers σ Λ) (n : Nat) : Prop where
  verifies : Verifies answers
  row : (answers.readRow (n - 1)).isSome = true
  told : answers.tpLeader = true → answers.sendCommit = true

/-- The prefix slot behind `n` tokens is committed. -/
structure CommitsPrefix (answers : Answers σ Λ) (n : Nat) : Prop where
  verifies : Verifies answers
  alone : answers.tpLeader = false
  short : n ≤ specPrefixSlots
  commits : answers.commitPrefix = true

/-- No eos stands inside of a block that is committed, and a slot that is committed holds the state behind the tokens
it is committed for. -/
structure ArgmaxSafe (target : Recurrent Int σ Λ) (answers : Answers σ Λ) (before : Session σ Λ) (eosToken : Int)
    (drafts : List Int) : Prop where
  whole : 1 + agreed answers.rowTops 0 drafts.tail = drafts.length → CommitsBlock answers drafts.length →
    eosToken ∉ drafts.dropLast
  front : ∀ n, n = 1 + agreed answers.rowTops 0 drafts.tail → n < drafts.length → CommitsPrefix answers n →
    (answers.readRow (n - 1)).isSome = true →
      slotState target before drafts n = target.fold (before.checkpoint ++ upToEos eosToken (drafts.take n))

theorem replayBudget_take {room : Int} {n : Nat} (hroom : (drafts.length : Int) ≤ room) (hn : n ≤ drafts.length) :
    drafts.take (replayBudget eosToken room drafts n) = upToEos eosToken (drafts.take n) := by
  have hbudget : replayBudget eosToken room drafts n = (upToEos eosToken (drafts.take n)).length := by
    rw [replayBudget, if_neg (show ¬ (n : Int) > room by omega), if_neg (show ¬ (n : Int) < 0 by omega),
      Int.toNat_natCast]
  rw [hbudget]
  exact (List.prefix_iff_eq_take.mp (upToEos_isFront.trans (List.take_prefix n drafts))).symm

/-- Rolling back and replaying is exact. -/
theorem argmaxReplay_holds (hcalled : Called target before accepted maxTokens eosToken acceptedCap)
    (hfits : Fits accepted maxTokens acceptedCap drafts)
    (hfront : session.checkpoint.take before.checkpoint.length = before.checkpoint)
    (hsame : started.mutated = false → session = before) {n : Nat} (hn : n ≤ drafts.length) :
    Holds target before.checkpoint accepted maxTokens eosToken acceptedCap
      (argmaxReplay target answers before accepted eosToken acceptedCap drafts started n session) := by
  have hback (session' : Session σ Λ) (hrollback : (if started.mutated = true then rollback answers before session
      else (session, true)) = (session', true)) :
      session'.checkpoint = before.checkpoint ∧ session'.frontier = before.frontier := by
    split at hrollback
    case isTrue =>
      obtain ⟨hcheckpoint, hfrontier⟩ := rollback_done hrollback
      exact ⟨hcheckpoint.trans hfront, hfrontier⟩
    case isFalse hmutated =>
      cases hrollback
      rw [hsame (Bool.not_eq_true _ ▸ hmutated)]
      exact ⟨rfl, rfl⟩
  unfold argmaxReplay
  rcases hrollback : (if started.mutated = true then rollback answers before session else (session, true)) with
    ⟨session', _ | _⟩
  · exact holds_failed
  · obtain ⟨hcheckpoint, hfrontier⟩ := hback session' hrollback
    dsimp only
    split
    case isTrue =>
      split
      case isTrue => exact holds_failed
      case isFalse => exact holds_idle hcalled hcheckpoint hfrontier
    case isFalse hok =>
      split
      case isTrue => exact holds_failed
      case isFalse =>
        split
        case isTrue => exact holds_failed
        case isFalse hreplayed =>
          obtain ⟨front, hbegins, htokens, hnew, hstate, -, hstops⟩ := replayFrom_spec _ _ _ _ (not_not.mp hreplayed)
          rw [replayBudget_take hfits.cap hn] at hbegins htokens hnew hstate
          rw [replayBudget_take hfits.cap hn]
          rw [List.nil_append] at htokens
          rw [hcheckpoint] at hnew
          rw [hfrontier, run_frontier hcalled.frontier] at hstate
          have hlength : front.length ≤ drafts.length :=
            (hbegins.trans (upToEos_isFront.trans (List.take_prefix n drafts))).length_le
          have heos : eosToken ∉ front.dropLast := by
            intro hmem
            have hno := hstops eosToken hmem
            rw [decide_eq_false_iff_not] at hno
            exact hno rfl
          have hcap := hfits.cap
          have hlimit := hfits.limit
          rw [htokens]
          split
          case h_1 => exact holds_done hcalled hnew hstate heos (by omega) (by omega)
          case h_2 =>
            split
            case h_1 => exact holds_failed
            case h_2 => exact holds_done hcalled hnew hstate heos (by omega) (by omega)

/-- A cycle that commits tokens with a state is exact just where that is the state behind them. -/
theorem holds_commit_iff (hcalled : Called target before accepted maxTokens eosToken acceptedCap)
    (hfits : Fits accepted maxTokens acceptedCap drafts)
    (hcheckpoint : session.checkpoint = before.checkpoint ++ newly) (hlength : newly.length ≤ drafts.length)
    (heos : eosToken ∉ newly.dropLast) :
    Holds target before.checkpoint accepted maxTokens eosToken acceptedCap (.done (accepted ++ newly) session) ↔
      session.frontier = target.fold (before.checkpoint ++ newly) := by
  constructor
  · intro hholds
    have hfrontier := (hholds (Int.natCast_nonneg _)).frontier
    have hsession : session.frontier = target.fold session.checkpoint := hfrontier
    rw [hsession, hcheckpoint]
  · intro hfrontier
    have hcap := hfits.cap
    have hlimit := hfits.limit
    exact holds_done hcalled hcheckpoint hfrontier heos (by omega) (by omega)

theorem agreed_tail_le (rowTops : Nat → Int) (hne : drafts ≠ []) :
    1 + agreed rowTops 0 drafts.tail ≤ drafts.length := by
  have hle := @agreed_le drafts.tail rowTops 0
  have hpositive := List.length_pos_iff.mpr hne
  rw [List.length_tail] at hle
  omega

theorem commitPrefix_cases (answers : Answers σ Λ) (session : Session σ Λ) {n : Nat} (hpositive : 0 < n)
    (hshort : n ≤ specPrefixSlots) :
    answers.commitPrefix = true ∧
        commitPrefix answers session n = ({ session with frontier := session.prefixes (n - 1) }, true) ∨
      answers.commitPrefix = false ∧
        commitPrefix answers session n = ({ session with frontier := answers.junk }, false) := by
  rw [commitPrefix, if_neg (by omega)]
  cases hcommit : answers.commitPrefix with
  | true => exact .inl ⟨rfl, rfl⟩
  | false => exact .inr ⟨rfl, rfl⟩

/-- The whole block is committed. -/
theorem argmaxWhole_iff (hcalled : Called target before accepted maxTokens eosToken acceptedCap)
    (hfits : Fits accepted maxTokens acceptedCap drafts) (hbegun : Begun target answers before drafts started)
    (hok : started.ok = true) (logits : Λ) :
    Holds target before.checkpoint accepted maxTokens eosToken acceptedCap
        (.done (accepted ++ emitted eosToken (acceptedCap - accepted.length) drafts)
          { started.session with logits, checkpointValid := true }) ↔
      eosToken ∉ drafts.dropLast := by
  rw [emitted_eq hfits.cap]
  constructor
  · intro hholds
    obtain ⟨newly, haccepted, hcheckpoint⟩ := (hholds (Int.natCast_nonneg _)).tokens
    have hnewly : upToEos eosToken drafts = newly := List.append_cancel_left haccepted
    have hdrafts : drafts = newly := by
      refine List.append_cancel_left (Eq.trans ?_ hcheckpoint)
      exact (hbegun.checkpoint hok).symm
    rw [hdrafts, ← hnewly]
    exact eos_notMem_upToEos
  · intro heos
    rw [upToEos_eq_self heos]
    exact holds_done hcalled (hbegun.checkpoint hok) (hbegun.frontier hok) heos hfits.cap hfits.limit

theorem argmaxVerified_iff (hcalled : Called target before accepted maxTokens eosToken acceptedCap)
    (hfits : Fits accepted maxTokens acceptedCap drafts) (hbegun : Begun target answers before drafts started) :
    Holds target before.checkpoint accepted maxTokens eosToken acceptedCap
        (argmaxVerified target answers before accepted eosToken acceptedCap drafts started) ↔
      ArgmaxSafe target answers before eosToken drafts := by
  have hreplay (session : Session σ Λ) (hfront : session.checkpoint.take before.checkpoint.length = before.checkpoint)
      (hsame : started.mutated = false → session = before) {n : Nat} (hn : n ≤ drafts.length) :=
    @argmaxReplay_holds σ Λ target answers eosToken before session accepted drafts maxTokens acceptedCap started
      hcalled hfits hfront hsame n hn
  have hfront := hbegun.front
  unfold argmaxVerified
  by_cases hok : started.ok = true
  swap
  · have hsafe : ArgmaxSafe target answers before eosToken drafts :=
      ⟨fun _ hcommits => absurd (hbegun.ok_iff.mpr hcommits.verifies) hok,
        fun _ _ _ hcommits => absurd (hbegun.ok_iff.mpr hcommits.verifies) hok⟩
    rw [if_neg hok]
    dsimp only
    rw [if_neg fun hboth => hok hboth.1]
    dsimp only
    rw [if_neg fun hall => hok hall.1]
    exact iff_of_true (hreplay _ hfront (fun h => (hbegun.unchanged h).2) (Nat.zero_le _)) hsafe
  have hverifies := hbegun.ok_iff.mp hok
  have hmutated (session : Session σ Λ) : started.mutated = false → session = before := fun h => by
    rw [(hbegun.unchanged h).1] at hok
    cases hok
  have hle := agreed_tail_le answers.rowTops hfits.nonempty
  rw [if_pos hok, hbegun.sent hok]
  generalize hagreed : 1 + agreed answers.rowTops 0 drafts.tail = n at hle
  have hpositive : 0 < n := by omega
  dsimp only
  by_cases hwhole : n = drafts.length
  · -- every token of the block agrees
    rw [if_pos ⟨hok, hwhole⟩]
    have hsafe : ArgmaxSafe target answers before eosToken drafts ↔
        (CommitsBlock answers drafts.length → eosToken ∉ drafts.dropLast) :=
      ⟨fun h => h.whole (hagreed.trans hwhole), fun h => ⟨fun _ => h, fun n' hn' hlt => by omega⟩⟩
    rw [hsafe]
    cases hrow : answers.readRow (drafts.length - 1) with
    | none =>
      have hnever : ¬ CommitsBlock answers drafts.length := fun hcommits => by
        have hsome := hcommits.row
        rw [hrow] at hsome
        cases hsome
      dsimp only
      rw [if_neg fun hall => by omega]
      exact iff_of_true (hreplay _ hfront (hmutated _) hle) fun hcommits => absurd hcommits hnever
    | some logits =>
      dsimp only
      split
      case isTrue htold => exact iff_of_true holds_failed fun hcommits => absurd (hcommits.told htold.1) htold.2
      case isFalse htold =>
        have hcommits : CommitsBlock answers drafts.length := by
          refine ⟨hverifies, by rw [hrow]; rfl, fun hleader => ?_⟩
          by_contra hnot
          exact htold ⟨hleader, hnot⟩
        rw [argmaxWhole_iff hcalled hfits hbegun hok logits]
        exact ⟨fun h _ => h, fun h => h hcommits⟩
  · -- a front of it does
    have hlt : n < drafts.length := by omega
    rw [if_neg fun hboth => hwhole hboth.2]
    dsimp only
    have hsafe : ArgmaxSafe target answers before eosToken drafts ↔
        (CommitsPrefix answers n → (answers.readRow (n - 1)).isSome = true →
          slotState target before drafts n = target.fold (before.checkpoint ++ upToEos eosToken (drafts.take n))) :=
      ⟨fun h => h.front n hagreed.symm hlt, fun h => ⟨fun hn => by omega, fun n' hn' _ => by
        rw [hn', hagreed]
        exact h⟩⟩
    rw [hsafe]
    split
    case isFalse hnot =>
      refine iff_of_true (hreplay _ hfront (hmutated _) hle) fun hcommits => absurd ?_ hnot
      exact ⟨hok, by rw [hcommits.alone]; decide, hpositive, hlt, hcommits.short⟩
    case isTrue hdirect =>
      cases hrow : answers.readRow (n - 1) with
      | none =>
        refine iff_of_true (hreplay _ ?_ (hmutated _) hle) fun _ hsome => by cases hsome
        rw [hfront, List.take_length]
      | some logits =>
        dsimp only
        rcases commitPrefix_cases answers { started.session with
            checkpoint := started.session.checkpoint.take before.checkpoint.length } hpositive hdirect.2.2.2.2 with
          ⟨hcommit, heq⟩ | ⟨hcommit, heq⟩
        · have htake : (drafts.take n).length ≤ drafts.length := (List.take_prefix n drafts).length_le
          have hcap := hfits.cap
          rw [heq]
          dsimp only
          rw [emitted_eq (by omega), hfront,
            holds_commit_iff hcalled hfits rfl (Nat.le_trans upToEos_isFront.length_le htake) eos_notMem_upToEos]
          dsimp only
          rw [hbegun.prefixes hok n hpositive hlt]
          refine ⟨fun h _ _ => h, fun h => h ⟨hverifies, ?_, hdirect.2.2.2.2, hcommit⟩ rfl⟩
          exact Bool.not_eq_true _ ▸ hdirect.2.1
        · rw [heq]
          refine iff_of_true (hreplay _ ?_ (hmutated _) hle) fun hcommits => ?_
          · show List.take _ (List.take _ started.session.checkpoint) = _
            rw [hfront, List.take_length]
          · rw [hcommits.commits] at hcommit
            cases hcommit

/-! ## Stochastic cycles -/

/-- `ds4_session_eval_probe_tp` succeeds. -/
structure Evaluates (answers : Answers σ Λ) : Prop where
  told : answers.tpLeader = true → answers.sendEval = true
  logits : ∃ logits, answers.eval = some logits ∧ (answers.settle logits).isSome = true

/-- A slot that is committed leads on to the state behind its tokens and the replacement. -/
def StochasticSafe (target : Recurrent Int σ Λ) (answers : Answers σ Λ) (before : Session σ Λ) (drafts : List Int) :
    Prop :=
  ∀ verdict, verdict = sampleRows answers 1 drafts.tail → verdict.ok = true → 0 ≤ verdict.replacement →
    CommitsPrefix answers verdict.acceptedDrafts → Evaluates answers →
      target.step (slotState target before drafts verdict.acceptedDrafts) verdict.replacement =
        target.fold (before.checkpoint ++ (drafts.take verdict.acceptedDrafts ++ [verdict.replacement]))

/-- One more token, or the cycle fails. -/
theorem evalProbeTp_cases (target : Recurrent Int σ Λ) (answers : Answers σ Λ) (session : Session σ Λ) (token : Int) :
    (¬ Evaluates answers ∧ (evalProbeTp target answers session token).2 = false) ∨
      (Evaluates answers ∧ ∃ session', evalProbeTp target answers session token = (session', true) ∧
        session'.checkpoint = session.checkpoint ++ [token] ∧
          session'.frontier = target.step session.frontier token) := by
  unfold evalProbeTp
  split
  case isTrue htold => exact .inl ⟨fun h => htold.2 (h.told htold.1), rfl⟩
  case isFalse htold =>
    cases heval : answers.eval with
    | none =>
      refine .inl ⟨fun h => ?_, rfl⟩
      obtain ⟨logits, hlogits, -⟩ := h.logits
      rw [heval] at hlogits
      cases hlogits
    | some logits =>
      dsimp only
      cases hsettle : answers.settle logits with
      | none =>
        refine .inl ⟨fun h => ?_, rfl⟩
        obtain ⟨logits', hlogits, hsome⟩ := h.logits
        rw [heval] at hlogits
        cases hlogits
        rw [hsettle] at hsome
        cases hsome
      | some settled =>
        refine .inr ⟨⟨fun hleader => ?_, logits, heval, by rw [hsettle]; rfl⟩, _, rfl, rfl, rfl⟩
        by_contra hnot
        exact htold ⟨hleader, hnot⟩

theorem step_fold (tokens : List Int) (token : Int) :
    target.step (target.fold tokens) token = target.fold (tokens ++ [token]) := target.run_fold tokens [token]

variable {verdict : Verdict}

theorem eos_notMem_take (heos : eosToken ∉ drafts.dropLast) {n : Nat} (hn : n < drafts.length) :
    eosToken ∉ drafts.take n := by
  intro hmem
  rw [List.dropLast_eq_take] at heos
  exact heos ((List.take_prefix_take_left (by omega)).subset hmem)

/-- A front of the block and the replacement are exact just where the state is. -/
theorem stochasticReplace_iff (hcalled : Called target before accepted maxTokens eosToken acceptedCap)
    (hfits : Fits accepted maxTokens acceptedCap drafts) (heos : eosToken ∉ drafts.dropLast)
    (hn : verdict.acceptedDrafts < drafts.length)
    (hcheckpoint : session.checkpoint = before.checkpoint ++ drafts.take verdict.acceptedDrafts) :
    Holds target before.checkpoint accepted maxTokens eosToken acceptedCap
        (stochasticReplace target answers accepted acceptedCap drafts verdict session) ↔
      (Evaluates answers → target.step session.frontier verdict.replacement =
        target.fold (before.checkpoint ++ (drafts.take verdict.acceptedDrafts ++ [verdict.replacement]))) := by
  have hcap := hfits.cap
  have hlength : (drafts.take verdict.acceptedDrafts).length = verdict.acceptedDrafts := by
    rw [List.length_take, Nat.min_eq_left (Nat.le_of_lt hn)]
  have htake : (drafts.take verdict.acceptedDrafts).take (acceptedCap - accepted.length).toNat =
      drafts.take verdict.acceptedDrafts := List.take_of_length_le (by omega)
  have hroom : ((accepted ++ drafts.take verdict.acceptedDrafts).length : Int) < acceptedCap := by
    rw [List.length_append, hlength]
    omega
  unfold stochasticReplace
  rcases evalProbeTp_cases target answers session verdict.replacement with
    ⟨hnot, hfails⟩ | ⟨hevaluates, session', heval, hnew, hstate⟩
  · rcases hprobe : evalProbeTp target answers session verdict.replacement with ⟨session', _ | _⟩
    · exact iff_of_true holds_failed fun h => absurd h hnot
    · rw [hprobe] at hfails
      cases hfails
  · rw [heval]
    dsimp only
    rw [htake, if_pos hroom, List.append_assoc, holds_commit_iff hcalled hfits, hstate]
    · exact ⟨fun h _ => h, fun h => h hevaluates⟩
    · rw [hnew, hcheckpoint, List.append_assoc]
    · rw [List.length_append, hlength]
      exact hn
    · rw [List.dropLast_concat]
      exact eos_notMem_take heos hn

theorem stochasticGiveUp_holds (hcalled : Called target before accepted maxTokens eosToken acceptedCap)
    (hbegun : Begun target answers before drafts started) :
    Holds target before.checkpoint accepted maxTokens eosToken acceptedCap
      (stochasticGiveUp answers before accepted started) := by
  unfold stochasticGiveUp
  rcases hrollback : (if started.mutated = true then rollback answers before started.session
    else (started.session, true)) with ⟨session', _ | _⟩
  · exact holds_failed
  · dsimp only
    split
    case isTrue => exact holds_failed
    case isFalse =>
      split at hrollback
      case isTrue =>
        obtain ⟨hcheckpoint, hfrontier⟩ := rollback_done hrollback
        exact holds_idle hcalled (hcheckpoint.trans hbegun.front) hfrontier
      case isFalse hmutated =>
        cases hrollback
        rw [(hbegun.unchanged (Bool.not_eq_true _ ▸ hmutated)).2]
        exact holds_idle hcalled rfl rfl

theorem stochasticReplay_holds (hcalled : Called target before accepted maxTokens eosToken acceptedCap)
    (hfits : Fits accepted maxTokens acceptedCap drafts) (heos : eosToken ∉ drafts.dropLast)
    (hn : verdict.acceptedDrafts < drafts.length)
    (hfront : session.checkpoint.take before.checkpoint.length = before.checkpoint) :
    Holds target before.checkpoint accepted maxTokens eosToken acceptedCap
      (stochasticReplay target answers before accepted acceptedCap drafts started verdict session) := by
  unfold stochasticReplay
  rcases hrollback : rollback answers before session with ⟨session', _ | _⟩
  · exact holds_failed
  · obtain ⟨hcheckpoint, hfrontier⟩ := rollback_done hrollback
    rw [hfront] at hcheckpoint
    dsimp only
    split
    case isTrue => exact holds_failed
    case isFalse =>
      split
      case isTrue => exact holds_failed
      case isFalse hreplayed =>
        obtain ⟨front, -, -, hnew, hstate, hall, -⟩ := replayFrom_spec _ _ _ _ (not_not.mp hreplayed)
        obtain rfl := hall fun _ _ => rfl
        rw [hcheckpoint] at hnew
        rw [hfrontier, run_frontier hcalled.frontier] at hstate
        split
        case h_1 => exact holds_failed
        case h_2 =>
          refine (stochasticReplace_iff hcalled hfits heos hn ?_).mpr fun _ => ?_
          · exact hnew
          · dsimp only
            rw [hstate, step_fold, List.append_assoc]

theorem stochasticVerified_iff (hcalled : Called target before accepted maxTokens eosToken acceptedCap)
    (hfits : Fits accepted maxTokens acceptedCap drafts) (heos : eosToken ∉ drafts.dropLast)
    (hbegun : Begun target answers before drafts started) :
    Holds target before.checkpoint accepted maxTokens eosToken acceptedCap
        (stochasticVerified target answers before accepted eosToken acceptedCap drafts started) ↔
      StochasticSafe target answers before drafts := by
  have hgiveUp := stochasticGiveUp_holds hcalled hbegun
  unfold stochasticVerified
  by_cases hok : started.ok = true
  swap
  · rw [if_neg hok]
    dsimp only
    rw [if_neg fun hall => absurd hall.1 Bool.false_ne_true, if_pos (.inl Bool.false_ne_true)]
    exact iff_of_true hgiveUp fun _ _ _ _ hcommits => absurd (hbegun.ok_iff.mpr hcommits.verifies) hok
  have hverifies := hbegun.ok_iff.mp hok
  rw [if_pos hok, hbegun.sent hok, StochasticSafe, forall_eq]
  have hspec := @sampleRows_spec σ Λ drafts.tail answers 1
  have htail : drafts.length = 1 + drafts.tail.length := by
    have hpositive := List.length_pos_iff.mpr hfits.nonempty
    rw [List.length_tail]
    omega
  generalize sampleRows answers 1 drafts.tail = verdict at hspec
  dsimp only
  by_cases hverdict : verdict.ok = true
  swap
  · rw [if_neg fun hall => hverdict hall.1, if_pos (.inl hverdict)]
    exact iff_of_true hgiveUp fun h => absurd h hverdict
  obtain ⟨hpositive, ⟨hnone, hwhole⟩ | ⟨hsome, hlt⟩⟩ := hspec hverdict
  · -- the block is taken as it is
    have hsafe : ¬ 0 ≤ verdict.replacement := Int.not_le.mpr hnone
    rw [if_pos ⟨hverdict, hnone, by omega⟩]
    refine iff_of_true ?_ fun _ h => absurd h hsafe
    split
    case h_1 => exact hgiveUp
    case h_2 logits _ =>
      split
      case isTrue => exact holds_failed
      case isFalse => exact (argmaxWhole_iff hcalled hfits hbegun hok logits).mpr heos
  · -- a replacement stands behind a front of it
    have hn : verdict.acceptedDrafts < drafts.length := by omega
    have hboth : ¬ (¬ verdict.ok = true ∨ verdict.replacement < 0) := by
      rintro (h | h)
      · exact h hverdict
      · exact Int.not_lt.mpr hsome h
    rw [if_neg fun hall => absurd hall.2.1 (Int.not_lt.mpr hsome), if_neg hboth]
    split
    case isFalse hnot =>
      refine iff_of_true (stochasticReplay_holds hcalled hfits heos hn hbegun.front) fun _ _ hcommits => ?_
      refine absurd ?_ hnot
      exact ⟨by rw [hcommits.alone]; decide, hpositive, hcommits.short⟩
    case isTrue hdirect =>
      rcases commitPrefix_cases answers { started.session with
          checkpoint := started.session.checkpoint.take before.checkpoint.length } hpositive hdirect.2.2 with
        ⟨hcommit, heq⟩ | ⟨hcommit, heq⟩
      · rw [heq]
        dsimp only
        rw [hbegun.front, stochasticReplace_iff hcalled hfits heos hn rfl]
        dsimp only
        rw [hbegun.prefixes hok _ hpositive hn]
        have hcommits : CommitsPrefix answers verdict.acceptedDrafts :=
          ⟨hverifies, Bool.not_eq_true _ ▸ hdirect.1, hdirect.2.2, hcommit⟩
        exact ⟨fun h _ _ _ => h, fun h => h hverdict hsome hcommits⟩
      · rw [heq]
        refine iff_of_true (stochasticReplay_holds hcalled hfits heos hn ?_) fun _ _ hcommits => ?_
        · show List.take _ (List.take _ started.session.checkpoint) = _
          rw [hbegun.front, List.take_length]
        · rw [hcommits.commits] at hcommit
          cases hcommit

/-! ## The two cycles -/

theorem draftCount_le (session : Session σ Λ) (nAccept maxTokens acceptedCap : Int) :
    draftCount session nAccept maxTokens acceptedCap ≤ acceptedCap - nAccept ∧
      draftCount session nAccept maxTokens acceptedCap ≤ maxTokens - nAccept := by
  rw [draftCount]
  split
  all_goals
    split
    all_goals
      split
      all_goals omega

/-- The part of a draft that a call may use fits it. -/
theorem fits_take (hdraft : session.draft ≠ [])
    (hpositive : ¬ draftCount session accepted.length maxTokens acceptedCap ≤ 0) :
    Fits accepted maxTokens acceptedCap
      (session.draft.take (draftCount session accepted.length maxTokens acceptedCap).toNat) := by
  obtain ⟨hcap, hlimit⟩ := draftCount_le session accepted.length maxTokens acceptedCap
  have hlength := List.length_take_le (draftCount session accepted.length maxTokens acceptedCap).toNat session.draft
  refine ⟨by omega, by omega, fun hnil => ?_⟩
  rw [List.take_eq_nil_iff] at hnil
  rcases hnil with hzero | hnil
  · omega
  · exact hdraft hnil

theorem Fits.front (hfits : Fits accepted maxTokens acceptedCap drafts) (hbegins : newly <+: drafts)
    (hne : newly ≠ []) : Fits accepted maxTokens acceptedCap newly := by
  have hlength := hbegins.length_le
  have hcap := hfits.cap
  have hlimit := hfits.limit
  exact ⟨by omega, by omega, hne⟩

/-- The block leaves the frontier, the checkpoint and the slots, and fits the call. -/
theorem argmaxBlock_spec (vocab : Nat) (argmax : Λ → Int) (session : Session σ Λ) (accepted : List Int)
    (maxTokens eosToken acceptedCap : Int) :
    ((argmaxBlock vocab argmax session accepted.length maxTokens eosToken acceptedCap).1 = session ∨
      (argmaxBlock vocab argmax session accepted.length maxTokens eosToken acceptedCap).1 = session.dropDraft) ∧
    ∀ drafts, (argmaxBlock vocab argmax session accepted.length maxTokens eosToken acceptedCap).2 = some drafts →
      Fits accepted maxTokens acceptedCap drafts := by
  unfold argmaxBlock
  split
  case isTrue => exact ⟨.inl rfl, fun drafts hnone => by cases hnone⟩
  case isFalse hdraft =>
    rw [not_or] at hdraft
    dsimp only
    split
    case isTrue => exact ⟨.inr rfl, fun drafts hnone => by cases hnone⟩
    case isFalse hpositive =>
      have hfits := fits_take hdraft.2 hpositive
      split
      case isTrue => exact ⟨.inr rfl, fun drafts hnone => by cases hnone⟩
      case isFalse =>
        split
        case isTrue => exact ⟨.inr rfl, fun drafts hnone => by cases hnone⟩
        case isFalse =>
          split
          case isTrue =>
            refine ⟨.inr rfl, fun drafts hsome => ?_⟩
            cases hsome
            refine hfits.front (List.take_prefix 1 _) fun hnil => ?_
            rw [List.take_eq_nil_iff] at hnil
            exact hfits.nonempty (hnil.resolve_left Nat.one_ne_zero)
          case isFalse =>
            refine ⟨.inr rfl, fun drafts hsome => ?_⟩
            cases hsome
            exact hfits

theorem stochasticBlock_spec (vocab : Nat) (session : Session σ Λ) (accepted : List Int)
    (maxTokens eosToken acceptedCap : Int) :
    ((stochasticBlock vocab session accepted.length maxTokens eosToken acceptedCap).1 = session ∨
      (stochasticBlock vocab session accepted.length maxTokens eosToken acceptedCap).1 =
        { session.dropDraft with stochasticDraft := false }) ∧
    ∀ drafts, (stochasticBlock vocab session accepted.length maxTokens eosToken acceptedCap).2 = some drafts →
      Fits accepted maxTokens acceptedCap drafts ∧ eosToken ∉ drafts.dropLast := by
  unfold stochasticBlock
  split
  case isTrue => exact ⟨.inl rfl, fun drafts hnone => by cases hnone⟩
  case isFalse hdraft =>
    rw [not_or, not_or] at hdraft
    dsimp only
    split
    case isTrue => exact ⟨.inr rfl, fun drafts hnone => by cases hnone⟩
    case isFalse hpositive =>
      have hfits := fits_take hdraft.2.2 hpositive
      split
      case isTrue => exact ⟨.inr rfl, fun drafts hnone => by cases hnone⟩
      case isFalse =>
        refine ⟨.inr rfl, fun drafts hsome => ?_⟩
        cases hsome
        exact ⟨hfits.front upToEos_isFront (upToEos_ne_nil hfits.nonempty), eos_notMem_upToEos⟩

theorem startVerify_none (hstart : startVerify target answers before drafts = none) : ¬ Verifies answers := by
  intro hverifies
  rw [startVerify, if_pos ⟨hverifies.snapshot, hverifies.rowBuffer⟩] at hstart
  split at hstart
  case isTrue htold => exact htold.2 (hverifies.told htold.1)
  case isFalse => cases hstart

theorem evalArgmax_iff (vocab : Nat) (argmax : Λ → Int)
    (hcalled : Called target session accepted maxTokens eosToken acceptedCap) :
    Holds target session.checkpoint accepted maxTokens eosToken acceptedCap
        (evalDsparkSpeculativeArgmax target answers vocab argmax session accepted maxTokens eosToken acceptedCap) ↔
      ∀ drafts, (argmaxBlock vocab argmax session accepted.length maxTokens eosToken acceptedCap).2 = some drafts →
        ArgmaxSafe target answers session eosToken drafts := by
  obtain ⟨hsession, hblock⟩ := argmaxBlock_spec vocab argmax session accepted maxTokens eosToken acceptedCap
  unfold evalDsparkSpeculativeArgmax
  generalize argmaxBlock vocab argmax session accepted.length maxTokens eosToken acceptedCap = taken
    at hsession hblock
  obtain ⟨before, _ | drafts⟩ := taken
  · refine iff_of_true ?_ fun drafts hnone => by cases hnone
    rcases hsession with rfl | rfl
    · exact holds_idle hcalled rfl rfl
    · exact holds_idle hcalled rfl rfl
  · have hfits := hblock drafts rfl
    have hbefore : Called target before accepted maxTokens eosToken acceptedCap ∧
        before.checkpoint = session.checkpoint ∧ before.prefixes = session.prefixes := by
      rcases hsession with rfl | rfl
      · exact ⟨hcalled, rfl, rfl⟩
      · exact ⟨⟨hcalled.frontier, hcalled.eos, hcalled.cap, hcalled.limit⟩, rfl, rfl⟩
    obtain ⟨hcalled', hcheckpoint, hprefixes⟩ := hbefore
    have hslots (n : Nat) : slotState target before drafts n = slotState target session drafts n := by
      rw [slotState, slotState, hcheckpoint, hprefixes]
    have hsafe : ArgmaxSafe target answers before eosToken drafts ↔
        ∀ drafts', some drafts = some drafts' → ArgmaxSafe target answers session eosToken drafts' := by
      constructor
      · rintro h _ hsome
        cases hsome
        exact ⟨h.whole, fun n hn hlt hcommits hrow => by
          rw [← hslots, ← hcheckpoint]
          exact h.front n hn hlt hcommits hrow⟩
      · intro h
        have hsafe := h drafts rfl
        exact ⟨hsafe.whole, fun n hn hlt hcommits hrow => by
          rw [hslots, hcheckpoint]
          exact hsafe.front n hn hlt hcommits hrow⟩
    dsimp only
    rw [← hsafe, ← hcheckpoint]
    cases hstart : startVerify target answers before drafts with
    | none =>
      have hnot := startVerify_none hstart
      exact iff_of_true holds_failed ⟨fun _ hcommits => absurd hcommits.verifies hnot,
        fun _ _ _ hcommits => absurd hcommits.verifies hnot⟩
    | some started => exact argmaxVerified_iff hcalled' hfits (startVerify_begun hcalled'.frontier hstart)

theorem evalStochastic_iff (vocab : Nat)
    (hcalled : Called target session accepted maxTokens eosToken acceptedCap) :
    Holds target session.checkpoint accepted maxTokens eosToken acceptedCap
        (evalDsparkSpeculativeStochastic target answers vocab session accepted maxTokens eosToken acceptedCap) ↔
      ∀ drafts, (stochasticBlock vocab session accepted.length maxTokens eosToken acceptedCap).2 = some drafts →
        answers.probabilities 0 = true → answers.pointAccept 0 = true →
          StochasticSafe target answers session drafts := by
  obtain ⟨hsession, hblock⟩ := stochasticBlock_spec vocab session accepted maxTokens eosToken acceptedCap
  unfold evalDsparkSpeculativeStochastic
  generalize stochasticBlock vocab session accepted.length maxTokens eosToken acceptedCap = taken at hsession hblock
  obtain ⟨before, block⟩ := taken
  have hbefore : Called target before accepted maxTokens eosToken acceptedCap ∧
      before.checkpoint = session.checkpoint ∧ before.prefixes = session.prefixes := by
    rcases hsession with rfl | rfl
    · exact ⟨hcalled, rfl, rfl⟩
    · exact ⟨⟨hcalled.frontier, hcalled.eos, hcalled.cap, hcalled.limit⟩, rfl, rfl⟩
  obtain ⟨hcalled', hcheckpoint, hprefixes⟩ := hbefore
  rw [← hcheckpoint]
  cases block with
  | none => exact iff_of_true (holds_idle hcalled' rfl rfl) fun drafts hnone => by cases hnone
  | some drafts =>
    obtain ⟨hfits, heos⟩ := hblock drafts rfl
    have hsafe : StochasticSafe target answers session drafts ↔ StochasticSafe target answers before drafts := by
      rw [StochasticSafe, StochasticSafe]
      simp only [slotState, hcheckpoint, hprefixes]
    dsimp only
    split
    case isTrue hprobabilities =>
      exact iff_of_true (holds_idle hcalled' rfl rfl) fun _ _ h => absurd h hprobabilities
    case isFalse hprobabilities =>
      split
      case isTrue hmiss =>
        refine iff_of_true ?_ fun _ _ _ h => absurd h hmiss
        split
        case isTrue => exact holds_failed
        case isFalse =>
          have hpositive := List.length_pos_iff.mpr hfits.nonempty
          have hcap := hfits.cap
          have hlimit := hfits.limit
          rcases evalProbeTp_cases target answers before answers.pointReplacement with
            ⟨-, hfails⟩ | ⟨-, session', heval, hnew, hstate⟩
          · rcases hprobe : evalProbeTp target answers before answers.pointReplacement with ⟨session', _ | _⟩
            · exact holds_failed
            · rw [hprobe] at hfails
              cases hfails
          · rw [heval]
            refine holds_done hcalled' hnew ?_ List.not_mem_nil ?_ ?_
            · rw [hstate, hcalled'.frontier, step_fold]
            · rw [List.length_singleton]
              omega
            · rw [List.length_singleton]
              omega
      case isFalse htake =>
        have hall : (∀ drafts', some drafts = some drafts' → answers.probabilities 0 = true →
            answers.pointAccept 0 = true → StochasticSafe target answers session drafts') ↔
              StochasticSafe target answers before drafts := by
          rw [← hsafe]
          refine ⟨fun h => h drafts rfl (not_not.mp hprobabilities) (not_not.mp htake), fun h _ hsome _ _ => ?_⟩
          cases hsome
          exact h
        rw [hall]
        cases hstart : startVerify target answers before drafts with
        | none =>
          exact iff_of_true holds_failed fun _ _ _ _ hcommits =>
            absurd hcommits.verifies (startVerify_none hstart)
        | some started =>
          exact stochasticVerified_iff hcalled' hfits heos (startVerify_begun hcalled'.frontier hstart)

/-- A cycle is exact just for the blocks that are safe, whatever the verifier answers: for a greedy one no eos inside
of what is committed directly, and for both a slot that holds the state it is taken for. -/
theorem cycle_exact_iff (target : Recurrent Int σ Λ) (answers : Answers σ Λ) (vocab : Nat) (argmax : Λ → Int)
    (session : Session σ Λ) (accepted : List Int) (maxTokens eosToken acceptedCap : Int)
    (hcalled : Called target session accepted maxTokens eosToken acceptedCap) :
    (Holds target session.checkpoint accepted maxTokens eosToken acceptedCap
        (evalDsparkSpeculativeArgmax target answers vocab argmax session accepted maxTokens eosToken acceptedCap) ↔
      ∀ drafts, (argmaxBlock vocab argmax session accepted.length maxTokens eosToken acceptedCap).2 = some drafts →
        ArgmaxSafe target answers session eosToken drafts) ∧
    (Holds target session.checkpoint accepted maxTokens eosToken acceptedCap
        (evalDsparkSpeculativeStochastic target answers vocab session accepted maxTokens eosToken acceptedCap) ↔
      ∀ drafts, (stochasticBlock vocab session accepted.length maxTokens eosToken acceptedCap).2 = some drafts →
        answers.probabilities 0 = true → answers.pointAccept 0 = true →
          StochasticSafe target answers session drafts) :=
  ⟨evalArgmax_iff vocab argmax hcalled, evalStochastic_iff vocab hcalled⟩

/-! ## Short blocks -/

/-! ## Long blocks, and an eos inside -/

/-- A target whose state is the tokens it has seen. -/
def transcript : Recurrent Int (List Int) Int := ⟨[], fun seen token => seen ++ [token], fun _ => 0⟩

/-- A session behind one token with a draft, and slots that were never written. -/
def drafted (draft : List Int) : Session (List Int) Int where
  checkpoint := [9]
  checkpointValid := true
  logits := 0
  frontier := [9]
  prefixes := fun _ => []
  draftValid := true
  stochasticDraft := false
  draft := draft
  ctxSize := 64

/-- Nothing fails on one host, and the rows agree with the block `[0, 1, 2, ..]` in front of the `n`-th. -/
def agreeing (n : Nat) : Answers (List Int) Int where
  snapshot := true
  rowBuffer := true
  tpLeader := false
  sendVerify := true
  verify := true
  rowTops := fun i => if i + 1 < n then i + 1 else 8
  readRow := fun _ => some 0
  commitPrefix := true
  restore := true
  sendCommit := true
  replay := fun _ => some 0
  vocabSplit := false
  mergeHalf := some
  probabilities := fun _ => true
  pointAccept := fun _ => true
  pointReplacement := 0
  sendEval := true
  eval := some 0
  settle := some
  junk := []
  junkPrefixes := fun _ => []

theorem drafted_called (draft : List Int) (eosToken : Int) (heos : eosToken ≠ 9) :
    Called transcript (drafted draft) [9] 16 eosToken 16 :=
  ⟨rfl, by simpa using heos, by decide, by decide⟩

theorem cycle_exact_iff_sample :
    (Holds transcript [9] [9] 16 7 16
        (evalDsparkSpeculativeArgmax transcript (agreeing 2) 32 id (drafted [0, 1, 2]) [9] 16 7 16) ↔
      ∀ drafts, (argmaxBlock 32 id (drafted [0, 1, 2]) 1 16 7 16).2 = some drafts →
        ArgmaxSafe transcript (agreeing 2) (drafted [0, 1, 2]) 7 drafts) ∧
    (Holds transcript [9] [9] 16 7 16
        (evalDsparkSpeculativeStochastic transcript (agreeing 2) 32 (drafted [0, 1, 2]) [9] 16 7 16) ↔
      ∀ drafts, (stochasticBlock 32 (drafted [0, 1, 2]) 1 16 7 16).2 = some drafts →
        (agreeing 2).probabilities 0 = true → (agreeing 2).pointAccept 0 = true →
          StochasticSafe transcript (agreeing 2) (drafted [0, 1, 2]) drafts) :=
  cycle_exact_iff transcript (agreeing 2) 32 id (drafted [0, 1, 2]) [9] 16 7 16
    (drafted_called [0, 1, 2] 7 (by decide))

/-- Two of six tokens are committed from a slot that no verifier wrote, in either cycle; and a block of three is
committed whole where only two are accepted, the second being eos. -/
theorem cycle_not_exact :
    ¬ Holds transcript [9] [9] 16 7 16
        (evalDsparkSpeculativeArgmax transcript (agreeing 2) 32 id (drafted [0, 1, 2, 3, 4, 5]) [9] 16 7 16) ∧
    ¬ Holds transcript [9] [9] 16 7 16
        (evalDsparkSpeculativeStochastic transcript { agreeing 2 with pointAccept := fun i => decide (i < 2) } 32
          { drafted [0, 1, 2, 3, 4, 5] with stochasticDraft := true } [9] 16 7 16) ∧
    ¬ Holds transcript [9] [9] 16 1 16
        (evalDsparkSpeculativeArgmax transcript (agreeing 3) 32 id (drafted [0, 1, 2]) [9] 16 1 16) := by
  refine ⟨fun h => ?_, fun h => ?_, fun h => ?_⟩
  · exact absurd (h (by decide)).frontier (by decide)
  · exact absurd (h (by decide)).frontier (by decide)
  · obtain ⟨newly, haccepted, hcheckpoint⟩ := (h (by decide)).tokens
    exact absurd (haccepted.trans hcheckpoint.symm) (by decide)

end Spark.Dspark
