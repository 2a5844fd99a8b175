import Mathlib.Data.List.Basic
import Spark.Dspark.Cycle

/-!
# The frontier of a DSpark cycle

A cycle is exact where the frontier it leaves is the fold of the checkpoint it leaves, and that is the old one with
the newly accepted tokens.

* **`Exact`** — what a cycle that does not fail is held to.
* **`startVerify_begun`** — the session behind its verifier; the slots of a long block are old.
* **`rollback_done`**, **`replayFrom_spec`** — the way back, and forth again.
-/

namespace Spark.Dspark

variable {σ Λ : Type} {target : Recurrent Int σ Λ} {answers : Answers σ Λ}

/-! ## Blocks -/

variable {eosToken : Int} {tokens : List Int}

theorem upToEos_isFront : upToEos eosToken tokens <+: tokens := by
  induction tokens with
  | nil => exact List.prefix_refl _
  | cons token tokens ih =>
    rw [upToEos]
    split
    · exact ⟨tokens, rfl⟩
    · exact (List.prefix_cons_inj token).mpr ih

theorem upToEos_ne_nil (hne : tokens ≠ []) : upToEos eosToken tokens ≠ [] := by
  cases tokens with
  | nil => exact absurd rfl hne
  | cons token tokens =>
    rw [upToEos]
    split
    · exact List.cons_ne_nil _ _
    · exact List.cons_ne_nil _ _

/-- An eos is the last of them. -/
theorem eos_notMem_upToEos : eosToken ∉ (upToEos eosToken tokens).dropLast := by
  induction tokens with
  | nil => exact List.not_mem_nil
  | cons token tokens ih =>
    rw [upToEos]
    split
    case isTrue => exact List.not_mem_nil
    case isFalse hne =>
      rcases eq_or_ne tokens [] with rfl | htokens
      · exact List.not_mem_nil
      · rw [List.dropLast_cons_of_ne_nil (upToEos_ne_nil htokens), List.mem_cons, not_or]
        exact ⟨Ne.symm hne, ih⟩

theorem upToEos_eq_self (heos : eosToken ∉ tokens.dropLast) : upToEos eosToken tokens = tokens := by
  induction tokens with
  | nil => rfl
  | cons token tokens ih =>
    rcases eq_or_ne tokens [] with rfl | htokens
    · rw [upToEos]
      split
      · rfl
      · rfl
    · rw [List.dropLast_cons_of_ne_nil htokens, List.mem_cons, not_or] at heos
      rw [upToEos, if_neg (Ne.symm heos.1), ih heos.2]

theorem emitted_eq {room : Int} (hroom : (tokens.length : Int) ≤ room) :
    emitted eosToken room tokens = upToEos eosToken tokens := by
  induction tokens generalizing room with
  | nil => rfl
  | cons token tokens ih =>
    rw [List.length_cons] at hroom
    rw [emitted, upToEos, if_pos (by omega), ih (by omega)]
    split
    · rfl
    · rfl

theorem agreed_le (rowTops : Nat → Int) (i : Nat) : agreed rowTops i tokens ≤ tokens.length := by
  induction tokens generalizing i with
  | nil => exact Nat.le_refl 0
  | cons token tokens ih =>
    rw [agreed, List.length_cons]
    split
    · exact Nat.zero_le _
    · have hle := ih (i + 1)
      omega

/-- Behind the rows there is a replacement, or the whole block is taken. -/
theorem sampleRows_spec (answers : Answers σ Λ) (i : Nat) (hok : (sampleRows answers i tokens).ok = true) :
    i ≤ (sampleRows answers i tokens).acceptedDrafts ∧
    ((sampleRows answers i tokens).replacement < 0 ∧
        (sampleRows answers i tokens).acceptedDrafts = i + tokens.length ∨
      0 ≤ (sampleRows answers i tokens).replacement ∧
        (sampleRows answers i tokens).acceptedDrafts < i + tokens.length) := by
  induction tokens generalizing i with
  | nil => exact ⟨Nat.le_refl i, .inl ⟨Int.negSucc_lt_zero 0, rfl⟩⟩
  | cons token tokens ih =>
    rw [sampleRows] at hok ⊢
    split at hok
    case isTrue => cases hok
    case isFalse hread =>
      rw [if_neg hread]
      split at hok
      case isTrue hmiss =>
        rw [if_pos hmiss]
        exact ⟨Nat.le_refl i, .inr ⟨of_decide_eq_true hok, by simp⟩⟩
      case isFalse htake =>
        rw [if_neg htake]
        obtain ⟨hle, hcase⟩ := ih (i + 1) hok
        rw [List.length_cons]
        omega

/-! ## Exact cycles -/

/-- What the callers keep to. -/
structure Called (target : Recurrent Int σ Λ) (session : Session σ Λ) (accepted : List Int)
    (maxTokens eosToken acceptedCap : Int) : Prop where
  frontier : session.frontier = target.fold session.checkpoint
  eos : eosToken ∉ accepted
  cap : (accepted.length : Int) ≤ acceptedCap
  limit : (accepted.length : Int) ≤ maxTokens

/-- The checkpoint grows by the newly accepted tokens, the frontier is its fold, nothing is accepted behind an eos,
and no more than there is room for. -/
structure Exact (target : Recurrent Int σ Λ) (checkpoint accepted : List Int) (maxTokens eosToken acceptedCap : Int)
    (out : Cycle σ Λ) : Prop where
  tokens : ∃ newly, out.accepted = accepted ++ newly ∧ out.session.checkpoint = checkpoint ++ newly
  returned : out.returned = out.accepted.length
  frontier : out.session.frontier = target.fold out.session.checkpoint
  eos : eosToken ∉ out.accepted.dropLast
  cap : out.returned ≤ acceptedCap
  limit : out.returned ≤ maxTokens

/-- A cycle that does not fail is exact. -/
def Holds (target : Recurrent Int σ Λ) (checkpoint accepted : List Int) (maxTokens eosToken acceptedCap : Int)
    (out : Cycle σ Λ) : Prop :=
  0 ≤ out.returned → Exact target checkpoint accepted maxTokens eosToken acceptedCap out

variable {before session session' : Session σ Λ} {accepted newly drafts : List Int} {maxTokens acceptedCap : Int}

/-- A failing cycle promises nothing. -/
theorem holds_failed {checkpoint : List Int} :
    Holds target checkpoint accepted maxTokens eosToken acceptedCap (.failed newly session) :=
  fun h => absurd (Int.negSucc_lt_zero 0) (Int.not_lt.mpr h)

theorem eos_notMem_append (haccepted : eosToken ∉ accepted) (hnewly : eosToken ∉ newly.dropLast) :
    eosToken ∉ (accepted ++ newly).dropLast := by
  rcases eq_or_ne newly [] with rfl | hne
  · rw [List.append_nil]
    exact fun hmem => haccepted ((List.dropLast_prefix accepted).subset hmem)
  · rw [List.dropLast_append_of_ne_nil hne, List.mem_append, not_or]
    exact ⟨haccepted, hnewly⟩

/-- New tokens within their bounds, with the state behind them. -/
theorem holds_done (hcalled : Called target before accepted maxTokens eosToken acceptedCap)
    (hcheckpoint : session.checkpoint = before.checkpoint ++ newly)
    (hfrontier : session.frontier = target.fold (before.checkpoint ++ newly)) (heos : eosToken ∉ newly.dropLast)
    (hcap : (newly.length : Int) ≤ acceptedCap - accepted.length)
    (hlimit : (newly.length : Int) ≤ maxTokens - accepted.length) :
    Holds target before.checkpoint accepted maxTokens eosToken acceptedCap (.done (accepted ++ newly) session) := by
  have hlength : ((accepted ++ newly).length : Int) = accepted.length + newly.length := by
    rw [List.length_append, Int.natCast_add]
  intro _
  refine ⟨⟨newly, rfl, hcheckpoint⟩, rfl, ?_, eos_notMem_append hcalled.eos heos, ?_, ?_⟩
  · show session.frontier = target.fold session.checkpoint
    rw [hfrontier, hcheckpoint]
  · show ((accepted ++ newly).length : Int) ≤ acceptedCap
    omega
  · show ((accepted ++ newly).length : Int) ≤ maxTokens
    omega

/-- Nothing new. -/
theorem holds_idle (hcalled : Called target before accepted maxTokens eosToken acceptedCap)
    (hcheckpoint : session.checkpoint = before.checkpoint) (hfrontier : session.frontier = before.frontier) :
    Holds target before.checkpoint accepted maxTokens eosToken acceptedCap (.done accepted session) := by
  have hcap := hcalled.cap
  have hlimit := hcalled.limit
  have hdone := @holds_done σ Λ target eosToken before session accepted [] maxTokens acceptedCap hcalled
    (by rw [List.append_nil, hcheckpoint]) (by rw [List.append_nil, hfrontier, hcalled.frontier]) List.not_mem_nil
    (by rw [List.length_nil]; omega) (by rw [List.length_nil]; omega)
  rwa [List.append_nil] at hdone

/-- A block within the bounds of a call. -/
structure Fits (accepted : List Int) (maxTokens acceptedCap : Int) (drafts : List Int) : Prop where
  cap : (drafts.length : Int) ≤ acceptedCap - accepted.length
  limit : (drafts.length : Int) ≤ maxTokens - accepted.length
  nonempty : drafts ≠ []

/-! ## Behind the verifier -/

/-- The verifier ran through the block. -/
structure Verifies (answers : Answers σ Λ) : Prop where
  snapshot : answers.snapshot = true
  rowBuffer : answers.rowBuffer = true
  told : answers.tpLeader = true → answers.sendVerify = true
  verify : answers.verify = true

/-- What stands in the slot behind `n` tokens of a block that is not `n` tokens long. -/
def slotState (target : Recurrent Int σ Λ) (before : Session σ Λ) (drafts : List Int) (n : Nat) : σ :=
  if drafts.length ≤ specPrefixSlots + 1 then target.fold (before.checkpoint ++ drafts.take n)
  else before.prefixes (n - 1)

variable {started : Started σ Λ}

theorem run_frontier (hfrontier : before.frontier = target.fold before.checkpoint) (tokens : List Int) :
    target.run before.frontier tokens = target.fold (before.checkpoint ++ tokens) := by
  rw [hfrontier, target.run_fold]

/-- The session behind the snapshot and the verifier. -/
structure Begun (target : Recurrent Int σ Λ) (answers : Answers σ Λ) (before : Session σ Λ) (drafts : List Int)
    (started : Started σ Λ) : Prop where
  front : started.session.checkpoint.take before.checkpoint.length = before.checkpoint
  unchanged : started.mutated = false → started.ok = false ∧ started.session = before
  ok_iff : started.ok = true ↔ Verifies answers
  sent : started.ok = true → started.sent answers = answers.tpLeader
  checkpoint : started.ok = true → started.session.checkpoint = before.checkpoint ++ drafts
  frontier : started.ok = true → started.session.frontier = target.fold (before.checkpoint ++ drafts)
  prefixes : started.ok = true → ∀ n, 0 < n → n < drafts.length →
    started.session.prefixes (n - 1) = slotState target before drafts n

theorem startVerify_begun (hfrontier : before.frontier = target.fold before.checkpoint)
    (hstart : startVerify target answers before drafts = some started) :
    Begun target answers before drafts started := by
  unfold startVerify at hstart
  split at hstart
  case isFalse hnone =>
    cases hstart
    exact {
      front := List.take_length
      unchanged := fun _ => ⟨rfl, rfl⟩
      ok_iff := iff_of_false Bool.false_ne_true fun hverifies => hnone ⟨hverifies.snapshot, hverifies.rowBuffer⟩
      sent := fun hok => absurd hok Bool.false_ne_true
      checkpoint := fun hok => absurd hok Bool.false_ne_true
      frontier := fun hok => absurd hok Bool.false_ne_true
      prefixes := fun hok => absurd hok Bool.false_ne_true }
  case isTrue hsnapshot =>
    split at hstart
    case isTrue => cases hstart
    case isFalse htold =>
      have htells : answers.tpLeader = true → answers.sendVerify = true := by
        intro hleader
        by_contra hnot
        exact htold ⟨hleader, hnot⟩
      unfold verifySuffixTops at hstart
      split at hstart
      case isFalse hfails =>
        cases hstart
        exact {
          front := List.take_left
          unchanged := fun hmutated => absurd hmutated.symm Bool.false_ne_true
          ok_iff := iff_of_false Bool.false_ne_true fun hverifies => hfails hverifies.verify
          sent := fun hok => absurd hok Bool.false_ne_true
          checkpoint := fun hok => absurd hok Bool.false_ne_true
          frontier := fun hok => absurd hok Bool.false_ne_true
          prefixes := fun hok => absurd hok Bool.false_ne_true }
      case isTrue hverify =>
        cases hstart
        have hblock : ((before.checkpoint ++ drafts).drop before.checkpoint.length).take drafts.length = drafts := by
          rw [List.drop_left, List.take_length]
        refine {
          front := List.take_left
          unchanged := fun hmutated => absurd hmutated.symm Bool.false_ne_true
          ok_iff := iff_of_true rfl ⟨hsnapshot.1, hsnapshot.2, htells, hverify⟩
          sent := fun _ => Bool.and_true _
          checkpoint := fun _ => rfl
          frontier := fun _ => ?_
          prefixes := fun _ n hn hlt => ?_ }
        · show target.run before.frontier _ = _
          rw [hblock, run_frontier hfrontier]
        · show (if _ then target.run before.frontier _ else before.prefixes (n - 1)) = _
          rw [hblock, slotState, Nat.sub_add_cancel hn]
          by_cases hshort : drafts.length ≤ specPrefixSlots + 1
          · have hlong : 1 < drafts.length := by omega
            rw [if_pos hshort, if_pos ⟨by simp [hshort, hlong], hlt⟩, run_frontier hfrontier]
          · rw [if_neg hshort, if_neg]
            simp [hshort]

theorem rollback_done (hrollback : rollback answers before session = (session', true)) :
    session'.checkpoint = session.checkpoint.take before.checkpoint.length ∧ session'.frontier = before.frontier := by
  unfold rollback frontierRestore at hrollback
  split at hrollback
  case h_1 hrestore =>
    split at hrestore
    · cases hrestore
      cases hrollback
      exact ⟨rfl, rfl⟩
    · cases hrestore
  case h_2 => cases hrollback

/-- What a replay goes through is a front of what it is given; it stops early only behind a last token. -/
theorem replayFrom_spec (last : Int → Bool) (i : Nat) (tokens : List Int) (replayed : Replayed σ Λ)
    (hok : (replayFrom target answers last i tokens replayed).ok = true) :
    ∃ front, front <+: tokens ∧
      (replayFrom target answers last i tokens replayed).tokens = replayed.tokens ++ front ∧
      (replayFrom target answers last i tokens replayed).session.checkpoint = replayed.session.checkpoint ++ front ∧
      (replayFrom target answers last i tokens replayed).session.frontier =
        target.run replayed.session.frontier front ∧
      ((∀ token ∈ tokens, last token = false) → front = tokens) ∧ ∀ token ∈ front.dropLast, last token = false := by
  induction tokens generalizing i replayed with
  | nil => exact ⟨[], List.prefix_refl _, (List.append_nil _).symm, (List.append_nil _).symm, rfl, fun _ => rfl,
      fun token hmem => absurd hmem List.not_mem_nil⟩
  | cons token tokens ih =>
    rw [replayFrom] at hok ⊢
    cases hrow : answers.replay i with
    | none =>
      rw [hrow] at hok
      cases hok
    | some row =>
      rw [hrow] at hok
      dsimp only at hok ⊢
      by_cases hlast : last token = true
      · rw [if_pos hlast]
        refine ⟨[token], ⟨tokens, rfl⟩, rfl, rfl, rfl, fun hnone => ?_, fun _ hmem => absurd hmem List.not_mem_nil⟩
        rw [hnone token List.mem_cons_self] at hlast
        cases hlast
      · rw [if_neg hlast] at hok ⊢
        obtain ⟨front, hfront, htokens, hcheckpoint, hfrontier, hall, hstops⟩ := ih _ _ hok
        refine ⟨token :: front, (List.prefix_cons_inj token).mpr hfront, ?_, ?_, ?_, fun hnone => ?_, ?_⟩
        · rw [htokens, List.append_assoc]
          rfl
        · rw [hcheckpoint, List.append_assoc]
          rfl
        · rw [hfrontier]
          rfl
        · rw [hall fun t hmem => hnone t (List.mem_cons_of_mem _ hmem)]
        · rcases eq_or_ne front [] with rfl | hne
          · exact fun _ hmem => absurd hmem List.not_mem_nil
          · rw [List.dropLast_cons_of_ne_nil hne]
            intro t hmem
            rcases List.mem_cons.mp hmem with rfl | hmem
            · exact Bool.not_eq_true _ ▸ hlast
            · exact hstops t hmem

end Spark.Dspark
