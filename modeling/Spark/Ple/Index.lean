import Mathlib.Data.Nat.Notation
import Spark.Lib.Word

/-!
# The PLE index: shards and row addresses

`storage.rs` keeps one logical embedding table split over safetensors shards. `PleIndex`
describes the split; `PleIndex.address` maps a global row to the shard and byte offset it
lives at, by binary search over the shard table.
-/

namespace Spark.Ple

/-- `PleIndexError`. -/
inductive PleIndexError where
  | truncated
  | magic
  | version (version : Nat)
  | dataType (dtype : Nat)
  | layout
  | recordTable
  | checksum
  | path
  | rowRange
  | rowOutOfRange (row : Nat)
  | integerOverflow
  deriving DecidableEq, Repr

structure RowAddress where
  shard : Nat
  byteOffset : Nat
  byteLen : Nat
  deriving DecidableEq, Repr

structure PleShard where
  globalRowStart : Nat
  rowCount : Nat
  dataOffset : Nat
  dataBytes : Nat
  relativePath : String
  deriving DecidableEq, Repr

def PleShard.globalRowEnd (shard : PleShard) : Except PleIndexError Nat :=
  match Word.checkedAdd 64 shard.globalRowStart shard.rowCount with
  | some rowEnd => .ok rowEnd
  | none => .error .integerOverflow

structure PleIndex where
  pageBytes : Nat
  rowBytes : Nat
  dtype : Nat
  totalRows : Nat
  scaleBf16Bits : Nat
  shards : List PleShard
  deriving DecidableEq, Repr

/-- The address of `globalRow` inside the shard at position `mid`: both the product and the
sum are checked 64-bit operations. -/
def PleIndex.addressIn (index : PleIndex) (globalRow mid : Nat) (shard : PleShard) :
    Except PleIndexError RowAddress :=
  let localRow := globalRow - shard.globalRowStart
  match (Word.checkedMul 64 localRow index.rowBytes).bind (Word.checkedAdd 64 shard.dataOffset)
  with
  | some rowOffset =>
    .ok { shard := mid, byteOffset := rowOffset, byteLen := index.rowBytes }
  | none => .error .integerOverflow

/-- The `while low < high` loop of `PleIndex::address`. Each round shrinks `high - low`, so
`shards.len()` rounds of fuel are enough. -/
def PleIndex.addressLoop (index : PleIndex) (globalRow : Nat) :
    (fuel low high : Nat) → Except PleIndexError RowAddress
  | 0, _, _ => .error .rowRange
  | fuel + 1, low, high =>
    if low < high then
      let mid := (low + high) / 2
      match index.shards[mid]? with
      | none => .error .rowRange
      | some shard =>
        if globalRow < shard.globalRowStart then
          index.addressLoop globalRow fuel low mid
        else
          match shard.globalRowEnd with
          | .error e => .error e
          | .ok rowEnd =>
            if globalRow ≥ rowEnd then index.addressLoop globalRow fuel (mid + 1) high
            else index.addressIn globalRow mid shard
    else .error .rowRange

/-- `PleIndex::address`. -/
def PleIndex.address (index : PleIndex) (globalRow : Nat) : Except PleIndexError RowAddress :=
  if globalRow ≥ index.totalRows then .error (.rowOutOfRange globalRow)
  else index.addressLoop globalRow (index.shards.length + 1) 0 index.shards.length

/-- What an address says: the row lies in the interval of the shard it names, at the
unwrapped byte offset of its place in that shard. -/
structure PleIndex.Located (index : PleIndex) (globalRow : Nat) (address : RowAddress) : Prop
    where
  shard : ∃ shard, index.shards[address.shard]? = some shard ∧
    shard.globalRowStart ≤ globalRow ∧ globalRow < shard.globalRowStart + shard.rowCount ∧
    address.byteOffset =
      shard.dataOffset + (globalRow - shard.globalRowStart) * index.rowBytes
  byteOffset_lt : address.byteOffset < 2 ^ 64
  byteLen : address.byteLen = index.rowBytes

theorem PleShard.globalRowEnd_ok {shard : PleShard} {rowEnd : Nat}
    (h : shard.globalRowEnd = .ok rowEnd) : rowEnd = shard.globalRowStart + shard.rowCount := by
  unfold globalRowEnd at h
  split at h
  · next e heq =>
    have := (Word.checkedAdd_eq_some.mp heq).2
    cases h
    exact this
  · cases h

theorem PleIndex.addressIn_ok {index : PleIndex} {globalRow mid : Nat} {shard : PleShard}
    {address : RowAddress} (h : index.addressIn globalRow mid shard = .ok address) :
    address.shard = mid ∧ address.byteLen = index.rowBytes ∧ address.byteOffset < 2 ^ 64 ∧
      address.byteOffset =
        shard.dataOffset + (globalRow - shard.globalRowStart) * index.rowBytes := by
  unfold addressIn at h
  simp only at h
  split at h
  · next rowOffset heq =>
    obtain ⟨product, hmul, hadd⟩ := Option.bind_eq_some_iff.mp heq
    obtain ⟨-, rfl⟩ := Word.checkedMul_eq_some.mp hmul
    obtain ⟨hlt, rfl⟩ := Word.checkedAdd_eq_some.mp hadd
    cases h
    exact ⟨rfl, rfl, hlt, rfl⟩
  · cases h

/-- The search only ever answers with the shard whose interval contains the row. Induction
on the fuel, one case per branch of the loop body. -/
theorem PleIndex.addressLoop_ok {index : PleIndex} {globalRow : Nat} {address : RowAddress} :
    ∀ {fuel low high : Nat}, index.addressLoop globalRow fuel low high = .ok address →
      index.Located globalRow address := by
  intro fuel
  induction fuel with
  | zero => intro low high h; simp [addressLoop] at h
  | succ fuel ih =>
    intro low high h
    simp only [addressLoop] at h
    split at h
    · split at h
      · cases h
      · next shard hshard =>
        split at h
        · exact ih h
        · next hstart =>
          split at h
          · cases h
          · next rowEnd hend =>
            split at h
            · exact ih h
            · next hlt =>
              obtain ⟨hmid, hlen, hbound, hoff⟩ := addressIn_ok h
              have hrowEnd := PleShard.globalRowEnd_ok hend
              exact ⟨⟨shard, by rw [hmid]; exact hshard, by omega, by omega, hoff⟩, hbound, hlen⟩
    · cases h

/-- **Every address is the row's own place.** -/
theorem PleIndex.address_ok {index : PleIndex} {globalRow : Nat} {address : RowAddress}
    (h : index.address globalRow = .ok address) : index.Located globalRow address := by
  unfold PleIndex.address at h
  split at h
  · cases h
  · exact addressLoop_ok h

end Spark.Ple
