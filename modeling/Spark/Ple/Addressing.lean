import Mathlib.Order.Interval.Finset.Nat
import Spark.Lib.BinarySearch
import Spark.Ple.Decoding
import Spark.Ple.RoundTrip

/-!
# Row addresses

Over the shards of an index that was read, the binary search of `PleIndex::address` and the linear scan of
`ple_index.py` answer with the same place: the one shard whose rows contain the row.

* **`addressLoop_eq_search`** — the loop of `address` is a halving search.
* **`address_of_contains`** — the search ends at the shard that contains the row.
* **`address_agrees`** — both sides, for every row of every index that was read.
-/

namespace Spark.Ple

open BinarySearch

/-! ## The scan of `ple_index.py` -/

/-- What `address` raises. -/
inductive AddressError where
  | indexError (message : String)
  | pleFormatError (message : String)
  deriving DecidableEq, Repr

/-- The loop over the shards; the integers of Python have no width. -/
def scanShards (rowBytes : Nat) (globalRow : Int) :
    List PleShard → (ordinal : Nat) → Except AddressError (Nat × Int)
  | [], _ => .error (.pleFormatError "PLE row index is internally inconsistent")
  | shard :: shards, ordinal =>
    let globalRowEnd : Int := shard.globalRowStart + shard.rowCount
    if shard.globalRowStart ≤ globalRow ∧ globalRow < globalRowEnd then
      let localRow : Int := globalRow - shard.globalRowStart
      .ok (ordinal, shard.dataOffset + localRow * rowBytes)
    else scanShards rowBytes globalRow shards (ordinal + 1)

/-- `address` of `ple_index.py`. -/
def PleIndex.scanAddress (index : PleIndex) (globalRow : Int) : Except AddressError (Nat × Int) :=
  if globalRow < 0 ∨ globalRow ≥ index.totalRows then
    .error (.indexError s!"PLE row {globalRow} is outside the index")
  else scanShards index.rowBytes globalRow index.shards 0

/-! ## The shard of a row -/

def PleShard.Contains (shard : PleShard) (row : Nat) : Prop :=
  shard.globalRowStart ≤ row ∧ row < shard.globalRowStart + shard.rowCount

theorem Tiles.exists_contains {shards : List PleShard} {start stop row : Nat} (h : Tiles shards start stop)
    (hstart : start ≤ row) (hstop : row < stop) :
    ∃ (i : Nat) (shard : PleShard), shards[i]? = some shard ∧ shard.Contains row := by
  induction h with
  | nil => omega
  | @cons shard rest stop hrows hrest ih =>
    rcases Nat.lt_or_ge row (shard.globalRowStart + shard.rowCount) with hlt | hge
    · exact ⟨0, shard, rfl, hstart, hlt⟩
    · obtain ⟨i, other, hother, hcontains⟩ := ih hge hstop
      exact ⟨i + 1, other, hother, hcontains⟩

theorem Tiles.start_le {shards : List PleShard} {start stop : Nat} (h : Tiles shards start stop) :
    ∀ shard ∈ shards, start ≤ shard.globalRowStart ∧ shard.globalRowStart + shard.rowCount ≤ stop := by
  induction h with
  | nil => exact nofun
  | @cons shard rest stop hrows hrest ih =>
    refine List.forall_mem_cons.mpr ⟨⟨Nat.le_refl _, hrest.le⟩, fun other hother => ?_⟩
    obtain ⟨hle, hend⟩ := ih other hother
    exact ⟨by omega, hend⟩

/-- A shard ends where a later one begins, or before it. -/
theorem Tiles.pairwise {shards : List PleShard} {start stop : Nat} (h : Tiles shards start stop) :
    shards.Pairwise fun a b => a.globalRowStart + a.rowCount ≤ b.globalRowStart := by
  induction h with
  | nil => exact .nil
  | cons hrows hrest ih => exact .cons (fun other hother => (hrest.start_le other hother).1) ih

/-! ## The binary search -/

variable {index : PleIndex} {row i : Nat} {shard : PleShard}

/-- Which way the search goes at the shard `i`. -/
def PleIndex.compareRow (index : PleIndex) (row i : Nat) : Ordering :=
  match index.shards[i]? with
  | none => .gt
  | some shard =>
    if row < shard.globalRowStart then .gt
    else if row ≥ shard.globalRowStart + shard.rowCount then .lt
    else .eq

/-- No shard ends past the rows a word can count. -/
def PleIndex.Countable (index : PleIndex) : Prop :=
  ∀ shard ∈ index.shards, shard.globalRowStart + shard.rowCount < 2 ^ 64

theorem globalRowEnd_of_countable (h : index.Countable) (hshard : shard ∈ index.shards) :
    shard.globalRowEnd = .ok (shard.globalRowStart + shard.rowCount) := by
  unfold PleShard.globalRowEnd Word.checkedAdd
  rw [if_pos (h shard hshard)]

/-- The loop is a halving search that ends with the address in the shard it found. -/
theorem PleIndex.addressLoop_eq_search (h : index.Countable) (fuel : Nat) :
    ∀ low high : Nat, high ≤ index.shards.length → index.addressLoop row fuel low high =
      match search (index.compareRow row) fuel low high with
      | none => .error .rowRange
      | some mid =>
        match index.shards[mid]? with
        | none => .error .rowRange
        | some shard => index.addressIn row mid shard := by
  induction fuel with
  | zero => exact fun low high _ => rfl
  | succ fuel ih =>
    intro low high hhigh
    rw [addressLoop, search]
    split
    · next hlt =>
      have hmid : (low + high) / 2 < index.shards.length := by omega
      have hshard : index.shards[(low + high) / 2]? = some index.shards[(low + high) / 2] :=
        List.getElem?_eq_getElem hmid
      simp only [compareRow, hshard, globalRowEnd_of_countable h (List.getElem_mem hmid)]
      split
      · exact ih _ _ (by omega)
      · split
        · exact ih _ _ hhigh
        · simp only [hshard]
    · rfl

/-- What the search asks of the shards. -/
structure PleIndex.Searchable (index : PleIndex) : Prop where
  tiles : Tiles index.shards 0 index.totalRows
  total : index.totalRows < 2 ^ 64

theorem PleIndex.Searchable.countable (h : index.Searchable) : index.Countable := by
  intro shard hshard
  have := (h.tiles.start_le shard hshard).2
  have := h.total
  omega

/-- The answers of the comparison are in order around the shard of the row. -/
theorem PleIndex.Searchable.ordered (h : index.Searchable) (hshard : index.shards[i]? = some shard)
    (hrow : shard.Contains row) : Ordered (index.compareRow row) 0 index.shards.length i := by
  obtain ⟨hstart, hend⟩ := hrow
  obtain ⟨hlt, hget⟩ := List.getElem?_eq_some_iff.mp hshard
  have hpairs := List.pairwise_iff_getElem.mp h.tiles.pairwise
  refine ⟨?_, fun j _ hj => ?_, fun j hj hjlt => ?_⟩
  · simp only [compareRow, hshard]
    rw [if_neg (by omega), if_neg (by omega)]
  · have hpair := hpairs j i (by omega) hlt hj
    rw [hget] at hpair
    simp only [compareRow, List.getElem?_eq_getElem (show j < index.shards.length by omega)]
    rw [if_neg (by omega), if_pos (by omega)]
  · have hpair := hpairs i j hlt hjlt hj
    rw [hget] at hpair
    simp only [compareRow, List.getElem?_eq_getElem hjlt]
    rw [if_pos (by omega)]

/-- **The search ends at the shard that contains the row**, with any fuel above the number of shards. -/
theorem PleIndex.Searchable.addressLoop_eq (h : index.Searchable) (hshard : index.shards[i]? = some shard)
    (hrow : shard.Contains row) {fuel : Nat} (hfuel : index.shards.length < fuel) :
    index.addressLoop row fuel 0 index.shards.length = index.addressIn row i shard := by
  have hlt := (List.getElem?_eq_some_iff.mp hshard).1
  have hfound := search_found (h.ordered hshard hrow) (Nat.zero_le i) hlt hfuel
  rw [addressLoop_eq_search h.countable fuel 0 _ (Nat.le_refl _), hfound]
  simp only [hshard]

theorem PleIndex.Searchable.address_eq (h : index.Searchable) (hshard : index.shards[i]? = some shard)
    (hrow : shard.Contains row) : index.address row = index.addressIn row i shard := by
  have hend := (h.tiles.start_le shard (List.mem_of_getElem? hshard)).2
  have hlt := hrow.2
  rw [PleIndex.address, if_neg (by omega)]
  exact h.addressLoop_eq hshard hrow (Nat.lt_succ_self _)

/-- The offset of a row of a shard, whatever its size. -/
def PleShard.rowOffset (shard : PleShard) (rowBytes row : Nat) : Nat :=
  shard.dataOffset + (row - shard.globalRowStart) * rowBytes

/-- The two checked operations fail exactly where the offset is no word. -/
theorem PleIndex.addressIn_eq (index : PleIndex) (row i : Nat) (shard : PleShard) :
    index.addressIn row i shard =
      if shard.rowOffset index.rowBytes row < 2 ^ 64 then
        .ok ⟨i, shard.rowOffset index.rowBytes row, index.rowBytes⟩
      else .error .integerOverflow := by
  unfold addressIn PleShard.rowOffset Word.checkedMul Word.checkedAdd
  by_cases hmul : (row - shard.globalRowStart) * index.rowBytes < 2 ^ 64
  · by_cases hadd : shard.dataOffset + (row - shard.globalRowStart) * index.rowBytes < 2 ^ 64
    · simp only [if_pos hmul, Option.bind_some, if_pos hadd]
    · simp only [if_pos hmul, Option.bind_some, if_neg hadd]
  · simp only [if_neg hmul, Option.bind_none]
    rw [if_neg (by omega)]

/-! ## The linear scan -/

/-- The scan stops at the first shard that contains the row. -/
theorem scanShards_eq {rowBytes : Nat} {shards : List PleShard} (hrow : shard.Contains row)
    (hshard : shards[i]? = some shard) (hfirst : ∀ j other, j < i → shards[j]? = some other → ¬ other.Contains row)
    (ordinal : Nat) :
    scanShards rowBytes row shards ordinal = .ok (ordinal + i, (shard.rowOffset rowBytes row : Int)) := by
  induction shards generalizing i ordinal with
  | nil => cases hshard
  | cons head rest ih =>
    rw [scanShards]
    cases i with
    | zero =>
      cases hshard
      obtain ⟨hstart, hend⟩ := hrow
      simp only
      rw [if_pos ⟨by omega, by omega⟩, PleShard.rowOffset, Nat.cast_add, Nat.cast_mul, Nat.cast_sub hstart]
      rfl
    | succ i =>
      have hskip : ¬ head.Contains row := hfirst 0 head (Nat.succ_pos i) rfl
      simp only
      rw [if_neg fun hin => hskip ⟨by omega, by omega⟩]
      have hrest := ih hshard (fun j other hj hother => hfirst (j + 1) other (by omega) hother) (ordinal + 1)
      rw [hrest, show ordinal + 1 + i = ordinal + (i + 1) by omega]

/-- At most one shard contains a row. -/
theorem PleIndex.Searchable.unique (h : index.Searchable) {j : Nat} {other : PleShard}
    (hshard : index.shards[i]? = some shard) (hrow : shard.Contains row) (hother : index.shards[j]? = some other)
    (hrow' : other.Contains row) : j = i := by
  obtain ⟨hi, hgeti⟩ := List.getElem?_eq_some_iff.mp hshard
  obtain ⟨hj, hgetj⟩ := List.getElem?_eq_some_iff.mp hother
  have hpairs := List.pairwise_iff_getElem.mp h.tiles.pairwise
  obtain ⟨hstart, hend⟩ := hrow
  obtain ⟨hstart', hend'⟩ := hrow'
  rcases Nat.lt_trichotomy j i with hlt | heq | hgt
  · have hpair := hpairs j i hj hi hlt
    rw [hgeti, hgetj] at hpair
    omega
  · exact heq
  · have hpair := hpairs i j hi hj hgt
    rw [hgeti, hgetj] at hpair
    omega

theorem PleIndex.Searchable.scanAddress_eq (h : index.Searchable) (hshard : index.shards[i]? = some shard)
    (hrow : shard.Contains row) : index.scanAddress row = .ok (i, (shard.rowOffset index.rowBytes row : Int)) := by
  have hend := (h.tiles.start_le shard (List.mem_of_getElem? hshard)).2
  have hlt := hrow.2
  rw [PleIndex.scanAddress, if_neg (by omega)]
  have hfirst : ∀ j other, j < i → index.shards[j]? = some other → ¬ other.Contains row := by
    intro j other hj hother hin
    have := h.unique hshard hrow hother hin
    omega
  rw [scanShards_eq hrow hshard hfirst 0, Nat.zero_add]

/-! ## Both sides -/

/-- What both sides say about a row. -/
structure PleIndex.Addressed (index : PleIndex) (row i : Nat) (shard : PleShard) : Prop where
  at_shard : index.shards[i]? = some shard
  contains : shard.Contains row
  unique : ∀ (j : Nat) other, index.shards[j]? = some other → other.Contains row → j = i
  scan : index.scanAddress row = .ok (i, (shard.rowOffset index.rowBytes row : Int))
  search : shard.rowOffset index.rowBytes row < 2 ^ 64 →
    index.address row = .ok ⟨i, shard.rowOffset index.rowBytes row, index.rowBytes⟩
  overflow : index.address row = .error .integerOverflow ↔ 2 ^ 64 ≤ shard.rowOffset index.rowBytes row
  found : index.address row ≠ .error .rowRange
  terminates : ∀ fuel, index.shards.length < fuel →
    index.addressLoop row fuel 0 index.shards.length = index.address row
  inside : Finset.Ico (shard.rowOffset index.rowBytes row) (shard.rowOffset index.rowBytes row + index.rowBytes) ⊆
    Finset.Ico shard.dataOffset (shard.dataOffset + shard.dataBytes)

/-- The rows of a shard are inside its data. -/
theorem rowOffset_inside {rowBytes : Nat} (hbytes : shard.dataBytes = shard.rowCount * rowBytes)
    (hrow : shard.Contains row) :
    shard.dataOffset ≤ shard.rowOffset rowBytes row ∧
      shard.rowOffset rowBytes row + rowBytes ≤ shard.dataOffset + shard.dataBytes := by
  obtain ⟨hstart, hend⟩ := hrow
  have hlast : (row - shard.globalRowStart + 1) * rowBytes ≤ shard.rowCount * rowBytes :=
    Nat.mul_le_mul_right _ (by omega)
  rw [Nat.succ_mul] at hlast
  unfold PleShard.rowOffset
  omega

/-- The rows of a shard are apart. -/
theorem rowOffset_step (rowBytes : Nat) {row' : Nat} (hstart : shard.globalRowStart ≤ row) (hlt : row < row') :
    shard.rowOffset rowBytes row + rowBytes ≤ shard.rowOffset rowBytes row' := by
  have hstep : (row - shard.globalRowStart + 1) * rowBytes ≤ (row' - shard.globalRowStart) * rowBytes :=
    Nat.mul_le_mul_right _ (by omega)
  rw [Nat.succ_mul] at hstep
  unfold PleShard.rowOffset
  omega

theorem searchable_of_decode {payload : List UInt8} (h : PleIndex.decode payload = .ok index) :
    index.Searchable := by
  refine ⟨(accepted_of_decode h).tiles, ?_⟩
  simp only [PleIndex.decode, Traverse.bind_eq_ok, readHeader_eq_ok, checkHeader_eq_ok, reject_eq_ok] at h
  obtain ⟨header, hheader, -, -, ⟨shards, last⟩, -, -, -, heq⟩ := h
  cases heq
  exact Pack.word_lt hheader.totalRows

theorem PleIndex.Searchable.addressed (h : index.Searchable) (hshard : index.shards[i]? = some shard)
    (hrow : shard.Contains row) (hbytes : shard.dataBytes = shard.rowCount * index.rowBytes) :
    index.Addressed row i shard := by
  have haddress := h.address_eq hshard hrow
  rw [index.addressIn_eq] at haddress
  refine
    { at_shard := hshard
      contains := hrow
      unique := fun j other hother hin => h.unique hshard hrow hother hin
      scan := h.scanAddress_eq hshard hrow
      search := fun hlt => haddress.trans (if_pos hlt)
      overflow := ?_
      found := ?_
      terminates := fun fuel hfuel => (h.addressLoop_eq hshard hrow hfuel).trans (h.address_eq hshard hrow).symm
      inside := ?_ }
  · rw [haddress]
    split
    · next hlt => exact ⟨nofun, fun hge => absurd hlt (Nat.not_lt_of_le hge)⟩
    · next hge => exact ⟨fun _ => Nat.le_of_not_lt hge, fun _ => rfl⟩
  · rw [haddress]
    split
    · exact nofun
    · exact nofun
  · obtain ⟨hlow, hhigh⟩ := rowOffset_inside hbytes hrow
    exact Finset.Ico_subset_Ico hlow hhigh

/-- **The two searches agree**, and the rows of a shard are apart and inside its data. -/
theorem address_agrees {payload : List UInt8} (h : PleIndex.decode payload = .ok index) :
    (∀ row, row < index.totalRows → ∃ i shard, index.Addressed row i shard) ∧
      ∀ row row' i shard, row ≠ row' → index.Addressed row i shard → index.Addressed row' i shard →
        Disjoint
          (Finset.Ico (shard.rowOffset index.rowBytes row) (shard.rowOffset index.rowBytes row + index.rowBytes))
          (Finset.Ico (shard.rowOffset index.rowBytes row') (shard.rowOffset index.rowBytes row' + index.rowBytes)) := by
  have haccepted := accepted_of_decode h
  have hsearchable := searchable_of_decode h
  refine ⟨fun row hrow => ?_, fun row row' i shard hne hin hin' => ?_⟩
  · obtain ⟨i, shard, hshard, hcontains⟩ := hsearchable.tiles.exists_contains (Nat.zero_le row) hrow
    exact ⟨i, shard, hsearchable.addressed hshard hcontains
      (haccepted.dataBytes shard (List.mem_of_getElem? hshard))⟩
  · rw [Finset.disjoint_left]
    intro offset hoffset hoffset'
    rw [Finset.mem_Ico] at hoffset hoffset'
    rcases Nat.lt_or_gt_of_ne hne with hlt | hgt
    · have := rowOffset_step index.rowBytes hin.contains.1 hlt
      omega
    · have := rowOffset_step index.rowBytes hin'.contains.1 hgt
      omega

/-- A row of the second shard. -/
theorem address_agrees_sample :
    (∃ i shard, (twoShardIndex "b").Addressed 4 i shard) ∧ (twoShardIndex "b").address 4 = .ok ⟨1, 224, 160⟩ :=
  ⟨(address_agrees (decode_payloadOf _ (twoShardIndex_accepted (by decide)) (twoShardIndex_fits (by decide)))).1 4
    (by decide), by decide⟩

end Spark.Ple
