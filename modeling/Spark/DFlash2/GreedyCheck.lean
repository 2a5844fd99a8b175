import Spark.DFlash2.Block

/-!
# What `validate_block` lets through

`validate_block` compares the emitted drafts with the proposed ones, and the bonus with the target. It does not
compare the drafts with the target.

* **`validateBlockChecks_eq`** — no values of the fields make a check panic.
* **`streamsGreedy_of_acceptGreedy`** — the blocks that `AcceptGreedy` fills are streamed as greedy decoding would.
* **`validateBlock_greedy_iff`** — of the others, those that claim no more drafts than its loop would accept.
-/

namespace Spark.DFlash2

/-! ## The checks, operand by operand -/

/-- A chain of `||`; none where an operand panics that is evaluated. -/
def anyOf : List (Option Bool) → Option Bool
  | [] => some false
  | none :: _ => none
  | some true :: _ => some true
  | some false :: operands => anyOf operands

/-- `xs[start..stop]`; none where it panics. -/
def slice (xs : List Nat) (start stop : Nat) : Option (List Nat) :=
  if start ≤ stop ∧ stop ≤ xs.length then some ((xs.take stop).drop start) else none

/-- `validate_block` with every index, slice, sum and difference as it is evaluated; none where one panics. -/
def validateBlockChecks (block : DFlash2BlockResult) (expectedPosition expectedAnchor : Nat) :
    Option (Except String Nat) :=
  if block.structSize ≠ blockResultSize ∨ block.abiVersion ≠ engineAbiVersion then
    some (.error "q27 DFlash2 engine returned an incompatible block ABI")
  else
    let count := block.emittedCount
    match Word.checkedAdd 32 block.basePosition block.emittedCount with
    | none => some (.error "q27 DFlash2 engine returned an overflowing position")
    | some expectedNewPosition =>
      (anyOf [
        some (¬ (1 ≤ count ∧ count ≤ blockSize)),
        some (block.acceptedDraftTokens > draftTokens),
        (Word.checkedAdd 32 block.acceptedDraftTokens 1).map fun sum => block.emittedCount ≠ sum,
        some (block.basePosition ≠ expectedPosition),
        some (block.anchorToken ≠ expectedAnchor),
        block.proposedTokens[0]?.map fun token => token ≠ expectedAnchor,
        some (block.newPosition ≠ expectedNewPosition),
        (Word.checkedSub count 1).bind fun last =>
          block.emittedTokens[last]?.map fun token => block.bonusToken ≠ token,
        block.targetTop1[block.acceptedDraftTokens]?.map fun token => block.bonusToken ≠ token,
        (slice block.emittedTokens 0 block.acceptedDraftTokens).bind fun emitted =>
          (slice block.proposedTokens 1 count).map fun proposed => emitted ≠ proposed,
        (slice block.emittedTokens count block.emittedTokens.length).map fun padding =>
          padding.any fun token => token ≠ 0,
        some (block.proposedTokens.any fun token => token ≥ vocabulary),
        some (block.targetTop1.any fun token => token ≥ vocabulary),
        (slice block.emittedTokens 0 count).map fun emitted => emitted.any fun token => token ≥ vocabulary]).map
        fun invalid =>
          if invalid then .error "q27 DFlash2 engine returned invalid block metadata" else .ok count

theorem anyOf_map_some (operands : List Bool) : anyOf (operands.map some) = some (operands.any id) := by
  induction operands with
  | nil => rfl
  | cons operand operands ih =>
    cases operand with
    | true => rfl
    | false => exact ih

variable {block : DFlash2BlockResult} {expectedPosition expectedAnchor : Nat}

theorem slice_take {xs : List Nat} {stop : Nat} (h : stop ≤ xs.length) : slice xs 0 stop = some (xs.take stop) := by
  rw [slice, if_pos ⟨Nat.zero_le _, h⟩, List.drop_zero]

/-- The first three checks guard every index and every slice behind them. -/
theorem validateBlockChecks_eq (block : DFlash2BlockResult) (expectedPosition expectedAnchor : Nat) :
    validateBlockChecks block expectedPosition expectedAnchor =
      some (validateBlock block expectedPosition expectedAnchor) := by
  unfold validateBlockChecks validateBlock
  split
  case isTrue => rfl
  case isFalse =>
    simp only
    cases Word.checkedAdd 32 block.basePosition block.emittedCount with
    | none => rfl
    | some expectedNewPosition =>
      simp only
      by_cases hrange : 1 ≤ block.emittedCount ∧ block.emittedCount ≤ blockSize
      case neg => simp [anyOf, hrange]
      by_cases haccepted : block.acceptedDraftTokens > draftTokens
      case pos => simp [anyOf, hrange, haccepted]
      have hsum : Word.checkedAdd 32 block.acceptedDraftTokens 1 = some (block.acceptedDraftTokens + 1) := by
        refine Word.checkedAdd_eq_some.mpr ⟨?_, rfl⟩
        unfold draftTokens at haccepted
        omega
      by_cases hcount : block.emittedCount = block.acceptedDraftTokens + 1
      case neg => simp [anyOf, hrange, haccepted, hsum, hcount]
      unfold blockSize at hrange
      have hproposed := block.length_proposedTokens
      have htarget := block.length_targetTop1
      have hemitted := block.length_emittedTokens
      unfold blockSize at hproposed htarget hemitted
      have hlast : Word.checkedSub block.emittedCount 1 = some (block.emittedCount - 1) :=
        Word.checkedSub_eq_some.mpr ⟨hrange.1, rfl⟩
      have hdrafts : slice block.proposedTokens 1 block.emittedCount =
          some ((block.proposedTokens.take block.emittedCount).drop 1) := if_pos ⟨hrange.1, by omega⟩
      have hpadding : slice block.emittedTokens block.emittedCount block.emittedTokens.length =
          some (block.emittedTokens.drop block.emittedCount) := by
        rw [slice, if_pos ⟨by omega, Nat.le_refl _⟩, List.take_length]
      rw [hsum, hlast, hdrafts, hpadding, slice_take (by omega), slice_take (by omega)]
      simp only [Option.map_some, Option.bind_some,
        List.getElem?_eq_getElem (show 0 < block.proposedTokens.length by omega),
        List.getElem?_eq_getElem (show block.emittedCount - 1 < block.emittedTokens.length by omega),
        List.getElem?_eq_getElem (show block.acceptedDraftTokens < block.targetTop1.length by omega)]
      refine (congrArg _ (anyOf_map_some [_, _, _, _, _, _, _, _, _, _, _, _, _, _])).trans ?_
      simp only [Option.map_some, Option.some.injEq]
      refine if_congr ?_ rfl rfl
      simp only [List.any_cons, List.any_nil, id_eq, Bool.or_false, Bool.or_eq_true, decide_eq_true_eq, ne_eq,
        Option.some.injEq, @eq_comm _ block.bonusToken]

/-! ## What they say together -/

/-- A block that passes emits the target's own tokens. -/
def StreamsGreedy (block : DFlash2BlockResult) (expectedPosition expectedAnchor : Nat) : Prop :=
  ∀ count, validateBlock block expectedPosition expectedAnchor = .ok count →
    ∀ i < count, block.emittedTokens[i]? = block.targetTop1[i]?

/-- The accepted drafts are the target's own tokens. -/
def Agrees (block : DFlash2BlockResult) : Prop :=
  ∀ slot < block.acceptedDraftTokens, block.proposedTokens[slot + 1]? = block.targetTop1[slot]?

/-- The loop of `AcceptGreedy` decides whether the accepted drafts are the target's. -/
theorem agrees_iff (haccepted : block.acceptedDraftTokens ≤ draftTokens) :
    Agrees block ↔
      block.acceptedDraftTokens ≤ acceptLength block.proposedTokens block.targetTop1 draftTokens := by
  constructor
  · exact fun hagrees => le_acceptLength haccepted hagrees
  · intro hle slot hslot
    exact (acceptLength_spec block.proposedTokens block.targetTop1 draftTokens).2 slot (by omega)

/-- What a block that passes emits: its accepted drafts, then the bonus. -/
theorem ValidBlock.emitted (h : ValidBlock block expectedPosition expectedAnchor) :
    (∀ slot < block.acceptedDraftTokens, block.emittedTokens[slot]? = block.proposedTokens[slot + 1]?) ∧
      block.emittedTokens[block.acceptedDraftTokens]? = block.targetTop1[block.acceptedDraftTokens]? := by
  refine ⟨fun slot hslot => ?_, h.bonus_emitted.trans h.bonus_target.symm⟩
  have hdrafts := congrArg (fun tokens => tokens[slot]?) h.emitted_drafts
  simp only [List.getElem?_take, if_pos hslot, List.getElem?_drop] at hdrafts
  rw [hdrafts, if_pos, Nat.add_comm]
  have hcount := h.emittedCount
  omega

/-- What passes is streamed as greedy decoding would just when the accepted drafts are the target's. -/
theorem ValidBlock.streams_iff (h : ValidBlock block expectedPosition expectedAnchor) :
    StreamsGreedy block expectedPosition expectedAnchor ↔ Agrees block := by
  obtain ⟨hdrafts, hbonus⟩ := h.emitted
  constructor
  · intro hgreedy slot hslot
    have hcount := h.emittedCount
    rw [← hdrafts slot hslot]
    exact hgreedy block.emittedCount (validateBlock_of_valid h) slot (by omega)
  · intro hagrees count hok i hi
    obtain ⟨-, rfl⟩ := valid_of_validateBlock hok
    rw [h.emittedCount] at hi
    rcases Nat.lt_or_ge i block.acceptedDraftTokens with hlt | hge
    · rw [hdrafts i hlt]
      exact hagrees i hlt
    · rw [show i = block.acceptedDraftTokens from by omega]
      exact hbonus

/-- The drafts `AcceptGreedy` accepts are the target's. -/
theorem agrees_of_acceptGreedy {prefixLength : Nat}
    (haccepted : block.acceptedDraftTokens =
      (acceptGreedy block.proposedTokens block.targetTop1 prefixLength).acceptLength) : Agrees block := by
  intro slot hslot
  rw [haccepted] at hslot
  exact (acceptLength_spec block.proposedTokens block.targetTop1 draftTokens).2 slot hslot

/-- So whatever else stands in a block, the drafts being `AcceptGreedy`'s is enough. -/
theorem streamsGreedy_of_acceptGreedy {prefixLength : Nat}
    (haccepted : block.acceptedDraftTokens =
      (acceptGreedy block.proposedTokens block.targetTop1 prefixLength).acceptLength) :
    StreamsGreedy block expectedPosition expectedAnchor := by
  intro count hok
  have hvalid := (valid_of_validateBlock hok).1
  exact hvalid.streams_iff.mpr (agrees_of_acceptGreedy haccepted) count hok

/-- No field values make a check panic. A block is streamed as greedy decoding would, or not at all, just when a check
refuses it or it claims no more drafts than the loop of `AcceptGreedy` accepts of them; and so is every block with
the accepted drafts of `AcceptGreedy`. -/
theorem validateBlock_greedy_iff (block : DFlash2BlockResult) (expectedPosition expectedAnchor : Nat) :
    validateBlockChecks block expectedPosition expectedAnchor =
        some (validateBlock block expectedPosition expectedAnchor) ∧
      (StreamsGreedy block expectedPosition expectedAnchor ↔
        ¬ ValidBlock block expectedPosition expectedAnchor ∨
          block.acceptedDraftTokens ≤ acceptLength block.proposedTokens block.targetTop1 draftTokens) ∧
      ∀ prefixLength,
        block.acceptedDraftTokens =
            (acceptGreedy block.proposedTokens block.targetTop1 prefixLength).acceptLength →
          StreamsGreedy block expectedPosition expectedAnchor := by
  refine ⟨validateBlockChecks_eq block expectedPosition expectedAnchor, ?_,
    fun _ haccepted => streamsGreedy_of_acceptGreedy haccepted⟩
  by_cases hvalid : ValidBlock block expectedPosition expectedAnchor
  · rw [hvalid.streams_iff, agrees_iff hvalid.accepted_le]
    exact (or_iff_right (not_not_intro hvalid)).symm
  · have hrefused : StreamsGreedy block expectedPosition expectedAnchor :=
      fun count hok => absurd (valid_of_validateBlock hok).1 hvalid
    exact iff_of_true hrefused (Or.inl hvalid)

/-- A block with one accepted draft, `draft`, where the target's tokens are 7 and 3. -/
def oneDraft (draft : Nat) : DFlash2BlockResult where
  structSize := blockResultSize
  abiVersion := engineAbiVersion
  basePosition := 5
  newPosition := 7
  anchorToken := 1
  acceptedDraftTokens := 1
  emittedCount := 2
  bonusToken := 3
  proposedTokens := [1, draft, 0, 0, 0, 0, 0, 0]
  targetTop1 := [7, 3, 0, 0, 0, 0, 0, 0]
  emittedTokens := [draft, 3, 0, 0, 0, 0, 0, 0]
  length_proposedTokens := rfl
  length_targetTop1 := rfl
  length_emittedTokens := rfl

/-- A block that passes with the draft the target predicted, as `AcceptGreedy` fills it. -/
theorem oneDraft_greedy :
    validateBlock (oneDraft 7) 5 1 = .ok 2 ∧ ValidBlock (oneDraft 7) 5 1 ∧ StreamsGreedy (oneDraft 7) 5 1 := by
  have hok : validateBlock (oneDraft 7) 5 1 = .ok 2 := by rfl
  have hiff := validateBlock_greedy_iff (oneDraft 7) 5 1
  exact ⟨hok, (valid_of_validateBlock hok).1, hiff.2.2 5 (by decide)⟩

/-- A draft the target did not predict passes. -/
theorem wrong_draft_passes :
    ¬ ∀ (block : DFlash2BlockResult) (expectedPosition expectedAnchor : Nat),
      StreamsGreedy block expectedPosition expectedAnchor := by
  intro hall
  have hok : validateBlock (oneDraft 9) 5 1 = .ok 2 := by rfl
  have hsame := hall (oneDraft 9) 5 1 2 hok 0 (by decide)
  cases hsame

end Spark.DFlash2
