import Mathlib.Data.List.Basic
import Spark.Lib.Greedy
import Spark.Lib.Word

/-!
# One DFlash2 block

A block is an anchor and seven drafts; the target scores all eight rows at once. `AcceptGreedy`
keeps the drafts that agree with the target and adds the target's own token after them.
`validate_block` is the service's check of what the native engine hands back.

* **`acceptLength_spec`**, **`le_acceptLength`** — the accepted drafts are those the target would have produced, and
  as many as there are.
* **`committed_eq_continuation`** — what a block commits is a piece of the greedy continuation.
* **`validateBlock_of_valid`**, **`valid_of_validateBlock`** — the service accepts the blocks whose fields all agree.
-/

namespace Spark.DFlash2

def blockSize : Nat := 8

def draftTokens : Nat := 7

def maxPosition : Nat := 262144

def vocabulary : Nat := 248320

def engineAbiVersion : Nat := 1

/-- `size_of::<DFlash2BlockResult>()`: eight words, three arrays of eight words, one `u64`. -/
def blockResultSize : Nat := 136

/-- `DFlash2BlockResult`. The three arrays have their fixed length. -/
structure DFlash2BlockResult where
  structSize : Nat
  abiVersion : Nat
  basePosition : Nat
  newPosition : Nat
  anchorToken : Nat
  acceptedDraftTokens : Nat
  emittedCount : Nat
  bonusToken : Nat
  proposedTokens : List Nat
  targetTop1 : List Nat
  emittedTokens : List Nat
  length_proposedTokens : proposedTokens.length = blockSize
  length_targetTop1 : targetTop1.length = blockSize
  length_emittedTokens : emittedTokens.length = blockSize

/-! ## `AcceptGreedy` -/

/-- The acceptance loop after `slots` slots. -/
def acceptLength (candidates targetTop1 : List Nat) (slots : Nat) : Nat :=
  (List.range slots).foldl
    (fun accept slot =>
      if accept = slot ∧ candidates[slot + 1]? = targetTop1[slot]? then accept + 1 else accept)
    0

/-- The zero-padded row of committed tokens. -/
def committedRow (candidates : List Nat) (accept bonus : Nat) : List Nat :=
  (List.range blockSize).map fun column =>
    if column < accept then candidates.getD (column + 1) 0
    else if column = accept then bonus
    else 0

structure Acceptance where
  acceptLength : Nat
  commitLength : Nat
  bonusToken : Nat
  newLength : Nat
  committedTokens : List Nat

/-- `AcceptGreedy` on one row of the batch; `newLength` is a `u64`. -/
def acceptGreedy (candidates targetTop1 : List Nat) (prefixLength : Nat) : Acceptance :=
  let accept := acceptLength candidates targetTop1 draftTokens
  let bonus := targetTop1.getD accept 0
  { acceptLength := accept
    commitLength := accept + 1
    bonusToken := bonus
    newLength := Word.wrappingAdd 64 prefixLength (accept + 1)
    committedTokens := committedRow candidates accept bonus }

theorem acceptLength_succ (candidates targetTop1 : List Nat) (slots : Nat) :
    acceptLength candidates targetTop1 (slots + 1) =
      if acceptLength candidates targetTop1 slots = slots ∧
          candidates[slots + 1]? = targetTop1[slots]? then
        acceptLength candidates targetTop1 slots + 1
      else acceptLength candidates targetTop1 slots := by
  rw [acceptLength, List.range_succ, List.foldl_append]
  rfl

theorem acceptLength_spec (candidates targetTop1 : List Nat) (slots : Nat) :
    acceptLength candidates targetTop1 slots ≤ slots ∧
      ∀ slot < acceptLength candidates targetTop1 slots,
        candidates[slot + 1]? = targetTop1[slot]? := by
  induction slots with
  | zero => simp [acceptLength]
  | succ slots ih =>
    obtain ⟨hle, hagree⟩ := ih
    rw [acceptLength_succ]
    split
    · next h =>
      refine ⟨by omega, fun slot hslot => ?_⟩
      rcases Nat.lt_or_ge slot slots with hlt | hge
      · exact hagree slot (by omega)
      · rw [show slot = slots from by omega]
        exact h.2
    · exact ⟨by omega, hagree⟩

/-- As many drafts as agree from the start are accepted. -/
theorem le_acceptLength {candidates targetTop1 : List Nat} {slots count : Nat} (hcount : count ≤ slots)
    (hagree : ∀ slot < count, candidates[slot + 1]? = targetTop1[slot]?) :
    count ≤ acceptLength candidates targetTop1 slots := by
  induction slots generalizing count with
  | zero => exact Nat.le_trans hcount (Nat.zero_le _)
  | succ slots ih =>
    rw [acceptLength_succ]
    rcases Nat.lt_or_ge slots count with hlast | hearlier
    · obtain rfl : count = slots + 1 := by omega
      -- the loop has not been stopped by an earlier slot
      have hfront := ih (Nat.le_refl slots) fun slot hslot => hagree slot (by omega)
      have hle := (acceptLength_spec candidates targetTop1 slots).1
      rw [if_pos ⟨Nat.le_antisymm hle hfront, hagree slots (by omega)⟩]
      omega
    · have hbefore := ih hearlier hagree
      split <;> omega

@[simp] theorem length_committedRow (candidates : List Nat) (accept bonus : Nat) :
    (committedRow candidates accept bonus).length = blockSize := by
  simp [committedRow]

/-- The committed row without its padding: the accepted candidates, then the bonus. -/
theorem committedRow_eq {candidates : List Nat} {accept : Nat} (bonus : Nat)
    (hlength : candidates.length = blockSize) (haccept : accept ≤ draftTokens) :
    committedRow candidates accept bonus =
      (candidates.drop 1).take accept ++ bonus ::
        List.replicate (draftTokens - accept) 0 := by
  unfold draftTokens blockSize at *
  apply List.ext_getElem
  · simp only [length_committedRow, blockSize, List.length_append, List.length_take,
      List.length_drop, List.length_cons, List.length_replicate]
    omega
  · intro column hleft hright
    simp only [length_committedRow, blockSize] at hleft
    have htaken : ((candidates.drop 1).take accept).length = accept := by
      simp only [List.length_take, List.length_drop]
      omega
    simp only [committedRow, List.getElem_map, List.getElem_range]
    rcases Nat.lt_trichotomy column accept with hlt | heq | hgt
    · rw [if_pos hlt, List.getElem_append_left (by omega), List.getElem_take, List.getElem_drop,
        List.getD_eq_getElem _ _ (by omega)]
      congr 1
      omega
    · subst heq
      rw [if_neg (by omega), if_pos rfl, List.getElem_append_right (by omega)]
      simp only [htaken, Nat.sub_self, List.getElem_cons_zero]
    · rw [if_neg (by omega), if_neg (by omega), List.getElem_append_right (by omega)]
      simp only [htaken]
      rw [List.getElem_cons, dif_neg (by omega), List.getElem_replicate]

/-! ## The target's rows -/

/-- `target_top1`: row `i` is the greedy token after the history and the candidates up to and
including the `i`-th. -/
def targetTop1 (next : List Nat → Nat) (history candidates : List Nat) : List Nat :=
  (List.range blockSize).map fun row => next (history ++ candidates.take (row + 1))

@[simp] theorem length_targetTop1 (next : List Nat → Nat) (history candidates : List Nat) :
    (targetTop1 next history candidates).length = blockSize := by
  simp [targetTop1]

theorem targetTop1_getElem? (next : List Nat → Nat) (history candidates : List Nat) {row : Nat}
    (hrow : row < blockSize) :
    (targetTop1 next history candidates)[row]? =
      some (next (history ++ candidates.take (row + 1))) := by
  simp [targetTop1, hrow]

section Commit

variable {next : List Nat → Nat} {history drafts : List Nat} {anchor : Nat}

/-- As long as the drafts agree with the target, the candidates are the anchor and the greedy
continuation after it. -/
theorem take_eq_continuation {accept : Nat}
    (haccept : accept ≤ draftTokens)
    (hagree : ∀ slot < accept,
      (anchor :: drafts)[slot + 1]? = (targetTop1 next history (anchor :: drafts))[slot]?) :
    drafts.take accept = Greedy.continuation next (history ++ [anchor]) accept := by
  induction accept with
  | zero => rfl
  | succ accept ih =>
    have hprefix := ih (by omega) fun slot hslot => hagree slot (by omega)
    have hslot := hagree accept (by omega)
    rw [targetTop1_getElem? _ _ _ (by unfold blockSize draftTokens at *; omega),
      List.getElem?_cons_succ] at hslot
    rw [List.take_add_one, hslot, hprefix, Greedy.continuation_add]
    simp [Greedy.continuation, hprefix]

/-- What a block commits is the greedy continuation after its anchor, and its candidates up to
the commit length are the anchor and all but the last of it. -/
theorem committed_eq_continuation {prefixLength : Nat} {block : Acceptance}
    (hlength : drafts.length = draftTokens)
    (hblock : block =
      acceptGreedy (anchor :: drafts) (targetTop1 next history (anchor :: drafts)) prefixLength) :
    block.committedTokens.take block.commitLength =
        Greedy.continuation next (history ++ [anchor]) block.commitLength ∧
      (anchor :: drafts).take block.commitLength ++ [block.bonusToken] =
        anchor :: Greedy.continuation next (history ++ [anchor]) block.commitLength := by
  subst hblock
  simp only [acceptGreedy]
  obtain ⟨haccept, hagree⟩ := acceptLength_spec (anchor :: drafts)
    (targetTop1 next history (anchor :: drafts)) draftTokens
  generalize acceptLength (anchor :: drafts) (targetTop1 next history (anchor :: drafts))
    draftTokens = accept at haccept hagree ⊢
  have hprefix := take_eq_continuation haccept hagree
  have hbonus : (targetTop1 next history (anchor :: drafts)).getD accept 0 =
      next (history ++ [anchor] ++ drafts.take accept) := by
    rw [List.getD_eq_getElem?_getD,
      targetTop1_getElem? _ _ _ (by unfold blockSize draftTokens at *; omega)]
    simp
  have hcandidates : (anchor :: drafts).length = blockSize := by
    rw [List.length_cons, hlength]
    rfl
  have htaken : (drafts.take accept).length = accept := by
    rw [List.length_take]
    omega
  have hcontinued : Greedy.continuation next (history ++ [anchor]) (accept + 1) =
      drafts.take accept ++ [next (history ++ [anchor] ++ drafts.take accept)] := by
    rw [Greedy.continuation_add, ← hprefix]
    rfl
  rw [hcontinued, hbonus]
  constructor
  · rw [committedRow_eq _ hcandidates haccept, List.drop_one, List.tail_cons, List.take_append,
      List.take_of_length_le (by omega), htaken]
    simp
  · simp

end Commit

/-! ## `validate_block` -/

/-- The service's check of a block against the position and the anchor it expects. -/
def validateBlock (block : DFlash2BlockResult) (expectedPosition expectedAnchor : Nat) :
    Except String Nat :=
  if block.structSize ≠ blockResultSize ∨ block.abiVersion ≠ engineAbiVersion then
    .error "q27 DFlash2 engine returned an incompatible block ABI"
  else
    let count := block.emittedCount
    match Word.checkedAdd 32 block.basePosition block.emittedCount with
    | none => .error "q27 DFlash2 engine returned an overflowing position"
    | some expectedNewPosition =>
      if ¬ (1 ≤ count ∧ count ≤ blockSize) ∨
          block.acceptedDraftTokens > draftTokens ∨
          block.emittedCount ≠ block.acceptedDraftTokens + 1 ∨
          block.basePosition ≠ expectedPosition ∨
          block.anchorToken ≠ expectedAnchor ∨
          block.proposedTokens[0]? ≠ some expectedAnchor ∨
          block.newPosition ≠ expectedNewPosition ∨
          block.emittedTokens[count - 1]? ≠ some block.bonusToken ∨
          block.targetTop1[block.acceptedDraftTokens]? ≠ some block.bonusToken ∨
          block.emittedTokens.take block.acceptedDraftTokens ≠
            (block.proposedTokens.take count).drop 1 ∨
          (block.emittedTokens.drop count).any (fun token => token ≠ 0) ∨
          block.proposedTokens.any (fun token => token ≥ vocabulary) ∨
          block.targetTop1.any (fun token => token ≥ vocabulary) ∨
          (block.emittedTokens.take count).any (fun token => token ≥ vocabulary) then
        .error "q27 DFlash2 engine returned invalid block metadata"
      else .ok count

/-- What `validate_block` checks. -/
structure ValidBlock (block : DFlash2BlockResult) (expectedPosition expectedAnchor : Nat) : Prop where
  structSize : block.structSize = blockResultSize
  abiVersion : block.abiVersion = engineAbiVersion
  position_lt : block.basePosition + block.emittedCount < 2 ^ 32
  accepted_le : block.acceptedDraftTokens ≤ draftTokens
  emittedCount : block.emittedCount = block.acceptedDraftTokens + 1
  basePosition : block.basePosition = expectedPosition
  anchorToken : block.anchorToken = expectedAnchor
  proposed_head : block.proposedTokens[0]? = some expectedAnchor
  newPosition : block.newPosition = block.basePosition + block.emittedCount
  bonus_emitted : block.emittedTokens[block.acceptedDraftTokens]? = some block.bonusToken
  bonus_target : block.targetTop1[block.acceptedDraftTokens]? = some block.bonusToken
  emitted_drafts : block.emittedTokens.take block.acceptedDraftTokens =
    (block.proposedTokens.take block.emittedCount).drop 1
  padding : ∀ token ∈ block.emittedTokens.drop block.emittedCount, token = 0
  proposed_lt : ∀ token ∈ block.proposedTokens, token < vocabulary
  target_lt : ∀ token ∈ block.targetTop1, token < vocabulary
  emitted_lt : ∀ token ∈ block.emittedTokens.take block.emittedCount, token < vocabulary

theorem validateBlock_of_valid {block : DFlash2BlockResult} {expectedPosition expectedAnchor : Nat}
    (h : ValidBlock block expectedPosition expectedAnchor) :
    validateBlock block expectedPosition expectedAnchor = .ok block.emittedCount := by
  have hcount := h.emittedCount
  have hrange : 1 ≤ block.emittedCount ∧ block.emittedCount ≤ blockSize := by
    have haccepted := h.accepted_le
    unfold draftTokens at haccepted
    unfold blockSize
    omega
  unfold validateBlock
  rw [if_neg (by simp [h.structSize, h.abiVersion])]
  simp only [Word.checkedAdd_eq_some.mpr ⟨h.position_lt, rfl⟩]
  rw [if_neg]
  simp only [not_or, not_not, ne_eq, Nat.not_lt, Bool.not_eq_true, List.any_eq_false,
    decide_eq_true_eq]
  refine ⟨hrange, h.accepted_le, hcount, h.basePosition, h.anchorToken, h.proposed_head,
    h.newPosition, ?_, h.bonus_target, h.emitted_drafts, h.padding, ?_, ?_, ?_⟩
  · rw [hcount, Nat.add_sub_cancel]
    exact h.bonus_emitted
  · exact fun token htoken => Nat.not_le.mpr (h.proposed_lt token htoken)
  · exact fun token htoken => Nat.not_le.mpr (h.target_lt token htoken)
  · exact fun token htoken => Nat.not_le.mpr (h.emitted_lt token htoken)

/-- A block that passes has been checked in every field. -/
theorem valid_of_validateBlock {block : DFlash2BlockResult} {expectedPosition expectedAnchor count : Nat}
    (h : validateBlock block expectedPosition expectedAnchor = .ok count) :
    ValidBlock block expectedPosition expectedAnchor ∧ count = block.emittedCount := by
  unfold validateBlock at h
  split at h
  · cases h
  next habi =>
    simp only at h
    split at h
    · cases h
    next expectedNewPosition hadd =>
      obtain ⟨hlt, rfl⟩ := Word.checkedAdd_eq_some.mp hadd
      split at h
      · cases h
      next hfields =>
        cases h
        simp only [not_or, not_not, ne_eq, Nat.not_lt, Bool.not_eq_true, List.any_eq_false,
          decide_eq_true_eq] at habi hfields
        obtain ⟨-, haccepted, hcount, hbase, hanchor, hhead, hnew, hbonus, htarget, hdrafts, hpadding, hproposed,
          htop, hemitted⟩ := hfields
        rw [hcount, Nat.add_sub_cancel] at hbonus
        exact ⟨⟨habi.1, habi.2, hlt, haccepted, hcount, hbase, hanchor, hhead, hnew, hbonus, htarget, hdrafts,
          hpadding, fun token htoken => Nat.not_le.mp (hproposed token htoken),
          fun token htoken => Nat.not_le.mp (htop token htoken),
          fun token htoken => Nat.not_le.mp (hemitted token htoken)⟩, rfl⟩

end Spark.DFlash2
