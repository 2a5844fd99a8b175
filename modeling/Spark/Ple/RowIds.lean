import Mathlib.Data.List.Infix
import Spark.Lib.Outcome
import Spark.Lib.Traverse

/-!
# The rows of an n-gram

`decode_row_ids` hashes the current token with the one or two before it into one row of each head's table. What is
before the last end-of-sequence token does not count.

* **`decodeRowIds_eq`** — the hash of a window of three tokens.
* **`runBuckets_eq_oneAtATime`** — a prompt in buckets gets the rows of its tokens one at a time.
* **`row_ids_local_and_bounded`** — what the rows depend on, and where they lie.
-/

namespace Spark.Ple

open Outcome

def qwenPleHeads : Nat := 16

def qwenPleHeadsPerNgram : Nat := 8

inductive QwenPleHashError where
  | emptyHistory
  | invalidHeadGeometry
  | rowOverflow
  deriving DecidableEq, Repr

/-- What every call hashes with. -/
structure HashGeometry where
  layerMultipliers : Vector Int64 3
  headVocabSizes : Vector Int64 qwenPleHeads
  headOffsets : Vector Int64 qwenPleHeads

/-- `iter().rposition(..)`: the index of the last element that the test holds of. -/
def rposition {α : Type} (test : α → Bool) (xs : List α) : Option Nat :=
  (xs.reverse.findIdx? test).map fun back => xs.length - 1 - back

/-- The row of one head: `rem_euclid`, `checked_add` and the conversion to `u64`. -/
def headRow (mixed size offset : Int64) : Except QwenPleHashError Nat :=
  let row := mixed.toInt % size.toInt + offset.toInt
  if -2 ^ 63 ≤ row ∧ row < 2 ^ 63 then
    if 0 ≤ row then .ok row.toNat else .error .rowOverflow
  else .error .rowOverflow

/-- The rows of all heads. -/
def headRows (geometry : HashGeometry) (bigram trigram : Int64) : Except QwenPleHashError (List Nat) :=
  (List.finRange qwenPleHeads).mapM fun head : Fin qwenPleHeads =>
    headRow (if head.val < qwenPleHeadsPerNgram then bigram else trigram) geometry.headVocabSizes[head]
      geometry.headOffsets[head]

/-- `decode_row_ids`. -/
def decodeRowIds (geometry : HashGeometry) (eosTokenId : Int64) (history : List Int64) :
    Except QwenPleHashError (List Nat) :=
  if history = [] then .error .emptyHistory
  else if ∃ index : Fin qwenPleHeads, geometry.headVocabSizes[index] ≤ 0 ∨ geometry.headOffsets[index] < 0 then
    .error .invalidHeadGeometry
  else
    let currentIndex := history.length - 1
    let segmentStart :=
      match rposition (· == eosTokenId) (history.take currentIndex) with
      | none => 0
      | some index => index + 1
    let current := history.getD currentIndex 0
    let previous := if currentIndex ≥ segmentStart + 1 then history.getD (currentIndex - 1) 0 else eosTokenId
    let previousPrevious :=
      if currentIndex ≥ segmentStart + 2 then history.getD (currentIndex - 2) 0 else eosTokenId
    let bigram := current * geometry.layerMultipliers.get 0 ^^^ previous * geometry.layerMultipliers.get 1
    let trigram := bigram ^^^ previousPrevious * geometry.layerMultipliers.get 2
    headRows geometry bigram trigram

/-- The end-of-sequence token `run_ple` hashes with. -/
def runPleEos : Int64 := 248044

/-- The rows that `run_ple` fetches, for a bucket of tokens from a position on. -/
def runPleRows (geometry : HashGeometry) (tokenHistory : List UInt32) (startPosition numTokens : Nat) :
    Except (Outcome.Fault QwenPleHashError) (List Nat) :=
  let history := tokenHistory.map fun token => Int64.ofNat token.toNat
  (List.range numTokens).foldlM (fun rows tokenOffset => do
    let front ← Outcome.sliceAt history 0 (startPosition + tokenOffset + 1)
    let ids ← raise id (decodeRowIds geometry runPleEos front)
    return rows ++ ids) []

/-- The rows of one bucket, which `advance_tokens` puts behind the history first. -/
def advanceTokensRows (geometry : HashGeometry) (tokenHistory inputTokens : List UInt32) :
    Except (Outcome.Fault QwenPleHashError) (List Nat) :=
  runPleRows geometry (tokenHistory ++ inputTokens) tokenHistory.length inputTokens.length

/-- The rows of a prompt, bucket by bucket. -/
def runBuckets (geometry : HashGeometry) :
    (tokenHistory : List UInt32) → List (List UInt32) → Except (Outcome.Fault QwenPleHashError) (List Nat)
  | _, [] => .ok []
  | tokenHistory, bucket :: buckets => do
    let rows ← advanceTokensRows geometry tokenHistory bucket
    let later ← runBuckets geometry (tokenHistory ++ bucket) buckets
    return rows ++ later

/-! ## The window -/

/-- The current token and the two before it, of a history from its end on; the end-of-sequence token in place of what
does not count. -/
def window (eos : Int64) : List Int64 → Int64 × Int64 × Int64
  | [] => (0, eos, eos)
  | [current] => (current, eos, eos)
  | [current, previous] => (current, previous, eos)
  | current :: previous :: previousPrevious :: _ =>
    (current, previous, if previous = eos then eos else previousPrevious)

/-- The rows of a window. -/
def windowRows (geometry : HashGeometry) (window : Int64 × Int64 × Int64) : Except QwenPleHashError (List Nat) :=
  let bigram := window.1 * geometry.layerMultipliers.get 0 ^^^ window.2.1 * geometry.layerMultipliers.get 1
  headRows geometry bigram (bigram ^^^ window.2.2 * geometry.layerMultipliers.get 2)

variable {geometry : HashGeometry} {eos : Int64} {history : List Int64}

/-- The token `n + 1` before the current one counts just when there is one and none up to it ends a sequence. `back` is
what is before the current token, from its end on. -/
theorem segment_iff {back : List Int64} {n : Nat} :
    back.length ≥ (match (back.findIdx? (· == eos)).map fun i => back.length - 1 - i with
      | none => 0
      | some index => index + 1) + (n + 1) ↔ n < back.length ∧ ∀ token ∈ back.take (n + 1), token ≠ eos := by
  cases hfind : back.findIdx? (· == eos) with
  | none =>
    have hnone := List.findIdx?_eq_none_iff.mp hfind
    have hall : ∀ token ∈ back.take (n + 1), token ≠ eos := fun token htoken => by
      simpa using hnone token (List.mem_of_mem_take htoken)
    simp only [Option.map_none]
    rw [and_iff_left hall]
    omega
  | some i =>
    obtain ⟨hlt, hend, hbefore⟩ := List.findIdx?_eq_some_iff_getElem.mp hfind
    simp only [Option.map_some]
    have hstart : back.length ≥ back.length - 1 - i + 1 + (n + 1) ↔ n < i := by omega
    refine hstart.trans ?_
    constructor
    · intro hle
      refine ⟨by omega, fun token htoken => ?_⟩
      obtain ⟨j, hj, rfl⟩ := List.mem_take_iff_getElem.mp htoken
      have hno := hbefore j (by omega)
      simpa using hno
    · rintro ⟨hn, hall⟩
      by_contra hle
      -- the end is among the tokens up to `n`
      refine hall back[i] (List.mem_take_iff_getElem.mpr ⟨i, by omega, rfl⟩) ?_
      simpa using hend

/-- A history that is cut behind the last end-of-sequence token, of which at most two tokens before the current one
are looked at. -/
theorem decodeRowIds_eq (hhistory : history ≠ [])
    (hvalid : ¬ ∃ index : Fin qwenPleHeads, geometry.headVocabSizes[index] ≤ 0 ∨ geometry.headOffsets[index] < 0) :
    decodeRowIds geometry eos history = windowRows geometry (window eos history.reverse) := by
  obtain ⟨back, rfl⟩ : ∃ back, history = back.reverse := ⟨history.reverse, (List.reverse_reverse _).symm⟩
  rw [List.reverse_reverse]
  cases back with
  | nil => exact absurd rfl hhistory
  | cons current back =>
    have hlength : (current :: back).reverse.length - 1 = back.length := by simp
    have htake : (current :: back).reverse.take back.length = back.reverse := by
      rw [List.reverse_cons]
      exact List.take_left' (List.length_reverse)
    have hlast : (current :: back).reverse.getD back.length 0 = current := by
      rw [List.reverse_cons, List.getD_append_right _ _ _ _ (by simp)]
      simp
    unfold decodeRowIds
    rw [if_neg hhistory, if_neg hvalid]
    simp only [hlength, htake, hlast]
    rw [rposition, List.reverse_reverse, List.length_reverse]
    simp only [@segment_iff eos back 0, @segment_iff eos back 1]
    rcases back with _ | ⟨previous, _ | ⟨previousPrevious, back⟩⟩
    · rfl
    · by_cases heos : previous = eos
      · simp [windowRows, window, heos]
      · simp [windowRows, window, heos]
    · by_cases heos : previous = eos
      · simp [windowRows, window, heos]
      · by_cases heos' : previousPrevious = eos
        · simp [windowRows, window, heos, heos']
        · simp [windowRows, window, heos, heos']

theorem window_take (back : List Int64) : window eos (back.take 3) = window eos back := by
  rcases back with _ | ⟨current, _ | ⟨previous, _ | ⟨previousPrevious, back⟩⟩⟩ <;> rfl

/-- Nothing from the last end-of-sequence token on is in the window. -/
theorem window_append {segment : List Int64} (hsegment : segment ≠ []) (old : List Int64) :
    window eos (segment ++ eos :: old) = window eos segment := by
  rcases segment with _ | ⟨current, _ | ⟨previous, _ | ⟨previousPrevious, segment⟩⟩⟩
  · exact absurd rfl hsegment
  · rcases old with _ | ⟨token, old⟩
    · rfl
    · simp [window]
  · simp [window]
  · rfl

theorem decodeRowIds_congr {history' : List Int64} (hnil : history = [] ↔ history' = [])
    (hwindow : window eos history.reverse = window eos history'.reverse) :
    decodeRowIds geometry eos history = decodeRowIds geometry eos history' := by
  by_cases hempty : history = []
  · rw [hempty, hnil.mp hempty]
  by_cases hvalid : ∃ index : Fin qwenPleHeads,
      geometry.headVocabSizes[index] ≤ 0 ∨ geometry.headOffsets[index] < 0
  · rw [decodeRowIds, decodeRowIds, if_neg hempty, if_neg (hnil.not.mp hempty), if_pos hvalid, if_pos hvalid]
  · rw [decodeRowIds_eq hempty hvalid, decodeRowIds_eq (hnil.not.mp hempty) hvalid, hwindow]

/-- The rows depend on the last three tokens. -/
theorem decodeRowIds_last {history' : List Int64}
    (h : history.drop (history.length - 3) = history'.drop (history'.length - 3)) :
    decodeRowIds geometry eos history = decodeRowIds geometry eos history' := by
  have hback (xs : List Int64) : xs.reverse.take 3 = (xs.drop (xs.length - 3)).reverse := List.take_reverse
  refine decodeRowIds_congr ?_ ?_
  · have hlength := congrArg List.length h
    rw [List.length_drop, List.length_drop] at hlength
    rw [← List.length_eq_zero_iff, ← List.length_eq_zero_iff]
    omega
  · rw [← window_take, hback, h, ← hback, window_take]

/-- What is before an end-of-sequence token does not count, nor does the token. -/
theorem decodeRowIds_segment {segment : List Int64} (hsegment : segment ≠ []) (old : List Int64) :
    decodeRowIds geometry eos (old ++ eos :: segment) = decodeRowIds geometry eos segment := by
  refine decodeRowIds_congr (by simp [hsegment]) ?_
  rw [List.reverse_append, List.reverse_cons, List.append_assoc, List.singleton_append,
    window_append (by simpa using hsegment)]

/-! ## Where the rows lie -/

theorem headRow_ok {mixed size offset : Int64} {row : Nat} (hsize : 0 < size.toInt)
    (h : headRow mixed size offset = .ok row) :
    offset.toInt ≤ row ∧ (row : Int) < offset.toInt + size.toInt := by
  have hlow := Int.emod_nonneg mixed.toInt (Int.ne_of_gt hsize)
  have hhigh := Int.emod_lt_of_pos mixed.toInt hsize
  unfold headRow at h
  simp only at h
  split at h
  · split at h
    · cases h
      omega
    · cases h
  · cases h

/-- A row of every head, in the interval of its table. -/
def InTables (geometry : HashGeometry) (rows : List Nat) : Prop :=
  rows.length = qwenPleHeads ∧ ∀ head : Fin qwenPleHeads, ∃ row, rows[head.val]? = some row ∧
    geometry.headOffsets[head].toInt ≤ row ∧
      (row : Int) < geometry.headOffsets[head].toInt + geometry.headVocabSizes[head].toInt

theorem decodeRowIds_inTables {rows : List Nat} (h : decodeRowIds geometry eos history = .ok rows) :
    InTables geometry rows := by
  by_cases hempty : history = []
  · rw [decodeRowIds, if_pos hempty] at h
    cases h
  by_cases hvalid : ∃ index : Fin qwenPleHeads,
      geometry.headVocabSizes[index] ≤ 0 ∨ geometry.headOffsets[index] < 0
  · rw [decodeRowIds, if_neg hempty, if_pos hvalid] at h
    cases h
  rw [decodeRowIds_eq hempty hvalid] at h
  have hall := Traverse.mapM_ok_iff.mp h
  have hlength : rows.length = qwenPleHeads := hall.length_eq.symm.trans List.length_finRange
  refine ⟨hlength, fun head => ?_⟩
  have hhead : head.val < rows.length := by
    rw [hlength]
    exact head.isLt
  have hrow := hall.get (by rw [List.length_finRange]; exact head.isLt) hhead
  rw [List.get_finRange] at hrow
  refine ⟨rows[head.val], List.getElem?_eq_getElem hhead, headRow_ok ?_ hrow⟩
  by_contra hsize
  exact hvalid ⟨head, .inl (Int64.le_iff_toInt_le.mpr (Int.not_lt.mp hsize))⟩

/-! ## Buckets -/

variable {tokenHistory : List UInt32}

/-- The rows of the last token of a history. -/
def lastRows (geometry : HashGeometry) (tokenHistory : List UInt32) : Except (Outcome.Fault QwenPleHashError) (List Nat) :=
  raise id (decodeRowIds geometry runPleEos (tokenHistory.map fun token => Int64.ofNat token.toNat))

/-- A bucket appends the rows of the last token of every longer front of it. -/
theorem advanceTokensRows_eq (geometry : HashGeometry) (tokenHistory tokens : List UInt32) :
    advanceTokensRows geometry tokenHistory tokens = (List.range tokens.length).foldlM (fun rows offset => do
      let ids ← lastRows geometry (tokenHistory ++ tokens.take (offset + 1))
      return rows ++ ids) [] := by
  refine Traverse.foldlM_congr (fun offset hoffset rows => ?_) []
  have hlt := List.mem_range.mp hoffset
  have hslice : (Outcome.sliceAt ((tokenHistory ++ tokens).map fun token => Int64.ofNat token.toNat) 0
      (tokenHistory.length + offset + 1) : Except (Outcome.Fault QwenPleHashError) _) =
        .ok ((tokenHistory ++ tokens.take (offset + 1)).map fun token => Int64.ofNat token.toNat) := by
    rw [Outcome.sliceAt, if_pos, List.drop_zero, ← List.map_take, Nat.add_assoc, List.take_length_add_append]
    rw [List.length_map, List.length_append]
    omega
  rw [bind_of_ok hslice]
  rfl

/-- A bucket with one more token. -/
theorem advanceTokensRows_append (geometry : HashGeometry) (tokenHistory tokens : List UInt32) (token : UInt32) :
    advanceTokensRows geometry tokenHistory (tokens ++ [token]) = (do
      let rows ← advanceTokensRows geometry tokenHistory tokens
      let ids ← lastRows geometry (tokenHistory ++ tokens ++ [token])
      return rows ++ ids) := by
  rw [advanceTokensRows_eq, advanceTokensRows_eq, List.length_append, List.length_singleton, List.range_succ,
    List.foldlM_append]
  congr 1
  · refine Traverse.foldlM_congr (fun offset hoffset rows => ?_) []
    have hlt := List.mem_range.mp hoffset
    rw [List.take_append_of_le_length (by omega)]
  · funext rows
    rw [List.foldlM_cons, List.take_of_length_le (by simp), List.append_assoc]
    simp

theorem runBuckets_append (geometry : HashGeometry) (tokenHistory : List UInt32) (front back : List (List UInt32)) :
    runBuckets geometry tokenHistory (front ++ back) = (do
      let rows ← runBuckets geometry tokenHistory front
      let later ← runBuckets geometry (tokenHistory ++ front.flatten) back
      return rows ++ later) := by
  induction front generalizing tokenHistory with
  | nil =>
    rw [List.nil_append, List.flatten_nil, List.append_nil, runBuckets]
    show _ = (runBuckets geometry tokenHistory back >>= pure)
    rw [bind_pure]
  | cons bucket front ih =>
    simp only [List.cons_append, runBuckets, List.flatten_cons, ih, bind_assoc, pure_bind, List.append_assoc]

theorem runBuckets_single (geometry : HashGeometry) (tokenHistory : List UInt32) (bucket : List UInt32) :
    runBuckets geometry tokenHistory [bucket] = advanceTokensRows geometry tokenHistory bucket := by
  show (do
    let rows ← advanceTokensRows geometry tokenHistory bucket
    return rows ++ []) = _
  simp only [List.append_nil, bind_pure]

/-- A bucket gets the rows of its tokens one at a time. -/
theorem advanceTokensRows_eq_oneAtATime (geometry : HashGeometry) (tokenHistory tokens : List UInt32) :
    advanceTokensRows geometry tokenHistory tokens = runBuckets geometry tokenHistory (tokens.map ([·])) := by
  induction tokens using List.reverseRecOn with
  | nil => rfl
  | append_singleton tokens token ih =>
    have hsingle := advanceTokensRows_append geometry (tokenHistory ++ tokens) [] token
    have hflatten : (tokens.map ([·])).flatten = tokens := by
      rw [← List.flatMap_def, List.flatMap_singleton']
    rw [List.map_append, runBuckets_append, ← ih, hflatten, List.map_singleton, runBuckets_single,
      advanceTokensRows_append]
    have hempty : advanceTokensRows geometry (tokenHistory ++ tokens) [] = .ok [] := rfl
    rw [List.nil_append, List.append_nil, bind_of_ok hempty] at hsingle
    rw [hsingle]
    simp only [List.nil_append, bind_pure]

/-- A prompt in buckets gets the rows of its tokens one at a time. -/
theorem runBuckets_eq_oneAtATime (geometry : HashGeometry) (tokenHistory : List UInt32)
    (buckets : List (List UInt32)) :
    runBuckets geometry tokenHistory buckets = runBuckets geometry tokenHistory (buckets.flatten.map ([·])) := by
  induction buckets generalizing tokenHistory with
  | nil => rfl
  | cons bucket buckets ih =>
    have hflatten : (bucket.map ([·])).flatten = bucket := by
      rw [← List.flatMap_def, List.flatMap_singleton']
    rw [List.flatten_cons, List.map_append, runBuckets_append, ← advanceTokensRows_eq_oneAtATime, hflatten, ← ih]
    rfl

/-- The rows depend on the last three tokens and on nothing up to an end-of-sequence token before the current one;
every row is in its own table; and the rows of a prompt do not depend on its buckets. -/
theorem row_ids_local_and_bounded (geometry : HashGeometry) (eos : Int64) :
    (∀ history history', history.drop (history.length - 3) = history'.drop (history'.length - 3) →
      decodeRowIds geometry eos history = decodeRowIds geometry eos history') ∧
    (∀ old segment, segment ≠ [] →
      decodeRowIds geometry eos (old ++ eos :: segment) = decodeRowIds geometry eos segment) ∧
    (∀ history rows, decodeRowIds geometry eos history = .ok rows → InTables geometry rows) ∧
    ∀ tokenHistory buckets, runBuckets geometry tokenHistory buckets =
      runBuckets geometry tokenHistory (buckets.flatten.map ([·])) :=
  ⟨fun _ _ => decodeRowIds_last, fun old _ hsegment => decodeRowIds_segment hsegment old,
    fun _ _ => decodeRowIds_inTables, runBuckets_eq_oneAtATime geometry⟩

end Spark.Ple
