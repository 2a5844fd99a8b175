import Mathlib.Order.CompletePartialOrder
import Mathlib.Data.List.Sort
import Mathlib.Order.Interval.Set.Disjoint
import Spark.Lib.Mem
import Spark.Lib.Traverse
import Spark.Lib.Word

/-!
# Fixed-buffer reads: files, operations and batch validation

`uring.rs` lends one slab to an `io_uring` reader. This module holds the data both read
paths share: the file a read targets, the operation record `FixedRead`, the errors of
`std::io` the reader produces, and `validate`, which every batch passes before a byte of
the slab is touched.

* **`neighbours_sorted_iff`** — after sorting, comparing neighbours compares all pairs.
* **`validate_iff_safeBatch`** — the batches that pass are those that the slab can take.
-/

namespace Spark.Uring

/-- An open file with fixed contents. A file size is a non-negative `off_t`, so it is below
`2 ^ 63`. -/
structure OpenFile where
  bytes : List UInt8
  size_lt : bytes.length < 2 ^ 63

/-- The size `metadata().len()` reports. -/
def OpenFile.size (file : OpenFile) : Nat := file.bytes.length

/-- The contents as a memory, zero past end of file. -/
def OpenFile.contents (file : OpenFile) : Mem UInt8 := fun i => file.bytes.getD i 0

/-- The bytes a positional read of `count` bytes at `offset` transfers. -/
def OpenFile.readAt (file : OpenFile) (offset count : Nat) : List UInt8 :=
  (file.bytes.drop offset).take count

/-- `io::Error`, by the constructor the reader uses: the kinds it names with their text, and
the raw code of an operating-system error. -/
inductive IoError where
  | invalidInput (message : String)
  | wouldBlock (message : String)
  | unexpectedEof (message : String)
  | other (message : String)
  | rawOs (code : Int)
  deriving DecidableEq, Repr

/-- One read of `bytes` bytes at `fileOffset` into the slab at `bufferOffset`. -/
structure FixedRead where
  file : OpenFile
  fileOffset : Nat
  bufferOffset : Nat
  bytes : Nat

/-- `FixedReadStats`. -/
structure FixedReadStats where
  operations : Nat := 0
  bytes : Nat := 0
  submissionBatches : Nat := 0
  deriving DecidableEq, Repr

/-- The slab range `[bufferOffset, bufferOffset + bytes)` of one operation, with the checks
`validate` makes on it. -/
def checkedRange (bufferLen : Nat) (read : FixedRead) : Except IoError (Nat × Nat) :=
  if read.bytes = 0 ∨ read.bytes > 2 ^ 32 - 1 then
    .error (.invalidInput "fixed-buffer read length must fit a non-zero u32")
  else
    match Word.checkedAdd 64 read.bufferOffset read.bytes with
    | none => .error (.invalidInput "buffer overflow")
    | some stop =>
      if stop > bufferLen then
        .error (.invalidInput "fixed-buffer read exceeds the registered slab")
      else .ok (read.bufferOffset, stop)

/-- The lexicographic order of `(usize, usize)`. -/
def rangeLe (a b : Nat × Nat) : Prop := a.1 < b.1 ∨ (a.1 = b.1 ∧ a.2 ≤ b.2)

instance : DecidableRel rangeLe := fun a b =>
  inferInstanceAs (Decidable (a.1 < b.1 ∨ (a.1 = b.1 ∧ a.2 ≤ b.2)))

/-- `ranges.windows(2).any(|pair| pair[0].1 > pair[1].0)`. -/
def neighboursOverlap : List (Nat × Nat) → Bool
  | a :: b :: rest => decide (a.2 > b.1) || neighboursOverlap (b :: rest)
  | _ => false

/-- `FixedBufferReader::validate` for a slab of `bufferLen` bytes. -/
def validate (maxBatch bufferLen : Nat) (reads : List FixedRead) : Except IoError Unit :=
  if reads.length > maxBatch then
    .error (.invalidInput
      s!"fixed-buffer read has {reads.length} operations but max batch is {maxBatch}")
  else
    match reads.mapM (checkedRange bufferLen) with
    | .error e => .error e
    | .ok ranges =>
      if neighboursOverlap (ranges.insertionSort rangeLe) then
        .error (.invalidInput "fixed-buffer read destinations overlap")
      else .ok ()

/-! ## What an accepted batch is -/

/-- Two operations write no common cell. -/
def FixedRead.Apart (a b : FixedRead) : Prop :=
  a.bufferOffset + a.bytes ≤ b.bufferOffset ∨ b.bufferOffset + b.bytes ≤ a.bufferOffset

/-- The slab range of an operation. -/
def FixedRead.range (read : FixedRead) : Nat × Nat := (read.bufferOffset, read.bufferOffset + read.bytes)

/-- The slab cells an operation writes. -/
def FixedRead.cells (read : FixedRead) : Set Nat := Set.Ico read.bufferOffset (read.bufferOffset + read.bytes)

/-- An operation by itself: it reads something, its length fits a `u32`, and its destination is in the slab. -/
structure FixedRead.InSlab (bufferLen : Nat) (read : FixedRead) : Prop where
  nonempty : 0 < read.bytes
  fits_u32 : read.bytes < 2 ^ 32
  inside : read.bufferOffset + read.bytes ≤ bufferLen

theorem apart_iff_disjoint {bufferLen : Nat} {a b : FixedRead} (ha : a.InSlab bufferLen) (hb : b.InSlab bufferLen) :
    a.Apart b ↔ Disjoint a.cells b.cells := by
  have hposa := ha.nonempty
  have hposb := hb.nonempty
  rw [FixedRead.cells, FixedRead.cells, Set.Ico_disjoint_Ico, FixedRead.Apart]
  omega

theorem checkedRange_eq_ok {bufferLen : Nat} {read : FixedRead} {range : Nat × Nat} :
    checkedRange bufferLen read = .ok range ↔
      read.InSlab bufferLen ∧ read.bufferOffset + read.bytes < 2 ^ 64 ∧ read.range = range := by
  constructor
  · intro h
    unfold checkedRange at h
    split at h
    · cases h
    · next hbytes =>
      split at h
      · cases h
      · next stop hstop =>
        obtain ⟨hword, hsum⟩ := Word.checkedAdd_eq_some.mp hstop
        split at h
        · cases h
        · next hfits =>
          cases h
          exact ⟨⟨by omega, by omega, by omega⟩, hword, by rw [FixedRead.range, hsum]⟩
  · rintro ⟨hread, hword, rfl⟩
    have hpos := hread.nonempty
    have hu32 := hread.fits_u32
    have hstop : Word.checkedAdd 64 read.bufferOffset read.bytes = some (read.bufferOffset + read.bytes) :=
      Word.checkedAdd_eq_some.mpr ⟨hword, rfl⟩
    rw [checkedRange, if_neg (by omega), hstop]
    exact if_neg (Nat.not_lt.mpr hread.inside)

/-- All operations pass by themselves, and their ranges are collected in order. -/
theorem mapM_checkedRange {bufferLen : Nat} {reads : List FixedRead} {ranges : List (Nat × Nat)} :
    reads.mapM (checkedRange bufferLen) = .ok ranges ↔
      (∀ read ∈ reads, read.InSlab bufferLen ∧ read.bufferOffset + read.bytes < 2 ^ 64) ∧
        reads.map FixedRead.range = ranges := by
  rw [Traverse.mapM_ok_iff]
  simp only [checkedRange_eq_ok]
  constructor
  · intro h
    induction h with
    | nil => exact ⟨nofun, rfl⟩
    | cons hread _ ih =>
      obtain ⟨hin, hword, hrange⟩ := hread
      exact ⟨List.forall_mem_cons.mpr ⟨⟨hin, hword⟩, ih.1⟩, by rw [List.map_cons, hrange, ih.2]⟩
  · rintro ⟨hall, rfl⟩
    rw [List.forall₂_map_right_iff, List.forall₂_same]
    exact fun read hread => ⟨(hall read hread).1, (hall read hread).2, rfl⟩

/-- Neighbours that do not overlap put every pair apart, because no range is empty. -/
theorem pairwise_of_neighbours {ranges : List (Nat × Nat)} (hsome : ∀ range ∈ ranges, range.1 < range.2)
    (h : neighboursOverlap ranges = false) : ranges.Pairwise fun a b => a.2 ≤ b.1 := by
  induction ranges with
  | nil => exact List.Pairwise.nil
  | cons a rest ih =>
    cases rest with
    | nil => exact List.pairwise_singleton _ _
    | cons b rest =>
      simp only [neighboursOverlap, Bool.or_eq_false_iff, decide_eq_false_iff_not] at h
      have htail := ih (fun range hrange => hsome range (List.mem_cons_of_mem a hrange)) h.2
      refine List.pairwise_cons.mpr ⟨fun c hc => ?_, htail⟩
      rcases List.mem_cons.mp hc with rfl | hc
      · omega
      · have hb := hsome b (by simp)
        have hbc := (List.pairwise_cons.mp htail).1 c hc
        omega

theorem neighbours_of_pairwise {ranges : List (Nat × Nat)} (h : ranges.Pairwise fun a b => a.2 ≤ b.1) :
    neighboursOverlap ranges = false := by
  induction ranges with
  | nil => rfl
  | cons a rest ih =>
    cases rest with
    | nil => rfl
    | cons b rest =>
      obtain ⟨ha, htail⟩ := List.pairwise_cons.mp h
      rw [neighboursOverlap, ih htail, Bool.or_false, decide_eq_false_iff_not]
      exact Nat.not_lt.mpr (ha b List.mem_cons_self)

instance : Std.Total rangeLe where
  total a b := by
    unfold rangeLe
    omega

instance : IsTrans (Nat × Nat) rangeLe where
  trans a b c hab hbc := by
    unfold rangeLe at *
    omega

/-- In the sorted list no neighbours overlap exactly when no two ranges do. -/
theorem neighbours_sorted_iff {ranges : List (Nat × Nat)} (hsome : ∀ range ∈ ranges, range.1 < range.2) :
    neighboursOverlap (ranges.insertionSort rangeLe) = false ↔
      ranges.Pairwise fun a b => a.2 ≤ b.1 ∨ b.2 ≤ a.1 := by
  have hperm := List.perm_insertionSort rangeLe ranges
  have hsomeSorted : ∀ range ∈ ranges.insertionSort rangeLe, range.1 < range.2 :=
    fun range h => hsome range (hperm.mem_iff.mp h)
  -- the order of the ranges does not matter for being apart
  rw [← hperm.pairwise_iff fun hab => hab.symm]
  constructor
  · exact fun h => (pairwise_of_neighbours hsomeSorted h).imp Or.inl
  · intro h
    apply neighbours_of_pairwise
    refine (h.and (List.pairwise_insertionSort rangeLe ranges)).imp_of_mem fun {a b} ha hb hab => ?_
    obtain ⟨hapart, hle⟩ := hab
    have hposa := hsomeSorted a ha
    have hposb := hsomeSorted b hb
    unfold rangeLe at hle
    omega

/-- A batch that passes, with the wrap of the sums spelled out. -/
theorem validate_eq_ok {maxBatch bufferLen : Nat} {reads : List FixedRead} :
    validate maxBatch bufferLen reads = .ok () ↔ reads.length ≤ maxBatch ∧
      (∀ read ∈ reads, read.InSlab bufferLen ∧ read.bufferOffset + read.bytes < 2 ^ 64) ∧
      reads.Pairwise FixedRead.Apart := by
  have hranges : (∀ read ∈ reads, read.InSlab bufferLen ∧ read.bufferOffset + read.bytes < 2 ^ 64) →
      (neighboursOverlap ((reads.map FixedRead.range).insertionSort rangeLe) = false ↔
        reads.Pairwise FixedRead.Apart) := by
    intro hall
    rw [neighbours_sorted_iff, List.pairwise_map]
    · exact Iff.rfl
    · intro range hrange
      obtain ⟨read, hread, rfl⟩ := List.mem_map.mp hrange
      exact Nat.lt_add_of_pos_right (hall read hread).1.nonempty
  constructor
  · intro h
    unfold validate at h
    split at h
    · cases h
    next hlimit =>
    split at h
    · cases h
    next ranges hchecked =>
    obtain ⟨hall, rfl⟩ := mapM_checkedRange.mp hchecked
    split at h
    · cases h
    next hneighbours =>
    exact ⟨Nat.not_lt.mp hlimit, hall, (hranges hall).mp (Bool.not_eq_true _ ▸ hneighbours)⟩
  · rintro ⟨hlimit, hall, hapart⟩
    rw [validate, if_neg (Nat.not_lt.mpr hlimit), mapM_checkedRange.mpr ⟨hall, rfl⟩]
    exact if_neg (by rw [(hranges hall).mpr hapart]; exact Bool.false_ne_true)

/-- A batch that passes is inside the slab and writes no cell twice. -/
theorem validate_ok {maxBatch bufferLen : Nat} {reads : List FixedRead}
    (h : validate maxBatch bufferLen reads = .ok ()) :
    (∀ read ∈ reads, 0 < read.bytes ∧ read.bufferOffset + read.bytes ≤ bufferLen) ∧
      reads.Pairwise FixedRead.Apart := by
  obtain ⟨-, hall, hapart⟩ := validate_eq_ok.mp h
  exact ⟨fun read hread => ⟨(hall read hread).1.nonempty, (hall read hread).1.inside⟩, hapart⟩

/-- The batches a slab can take. -/
structure SafeBatch (maxBatch bufferLen : Nat) (reads : List FixedRead) : Prop where
  limit : reads.length ≤ maxBatch
  operations : ∀ read ∈ reads, read.InSlab bufferLen
  disjoint : reads.Pairwise fun a b => Disjoint a.cells b.cells

/-- `validate` accepts exactly the safe batches; the slab length is a machine word. -/
theorem validate_iff_safeBatch (maxBatch : Nat) (bufferLen : UInt64) (reads : List FixedRead) :
    validate maxBatch bufferLen.toNat reads = .ok () ↔ SafeBatch maxBatch bufferLen.toNat reads := by
  have hdisjoint : (∀ read ∈ reads, read.InSlab bufferLen.toNat) →
      (reads.Pairwise FixedRead.Apart ↔ reads.Pairwise fun a b => Disjoint a.cells b.cells) := fun hall =>
    List.Pairwise.iff_of_mem fun ha hb => apart_iff_disjoint (hall _ ha) (hall _ hb)
  rw [validate_eq_ok]
  constructor
  · rintro ⟨hlimit, hall, hapart⟩
    have hin := fun read hread => (hall read hread).1
    exact ⟨hlimit, hin, (hdisjoint hin).mp hapart⟩
  · rintro ⟨hlimit, hin, hapart⟩
    refine ⟨hlimit, fun read hread => ⟨hin read hread, ?_⟩, (hdisjoint hin).mpr hapart⟩
    exact Nat.lt_of_le_of_lt (hin read hread).inside bufferLen.toNat_lt

theorem OpenFile.contents_of_lt (file : OpenFile) {i : Nat} (h : i < file.size) :
    file.bytes[i]? = some (file.contents i) := by
  have hlt : i < file.bytes.length := h
  simp [contents, List.getD_eq_getElem?_getD, List.getElem?_eq_getElem hlt]

theorem OpenFile.contents_of_ge (file : OpenFile) {i : Nat} (h : file.size ≤ i) :
    file.contents i = 0 := by
  have hle : file.bytes.length ≤ i := h
  simp [contents, List.getD_eq_getElem?_getD, List.getElem?_eq_none hle]

/-- A read that stays inside the file transfers that slice of the contents. -/
theorem OpenFile.getElem?_readAt (file : OpenFile) {offset count i : Nat} (hi : i < count)
    (h : offset + i < file.size) :
    (file.readAt offset count)[i]? = some (file.contents (offset + i)) := by
  rw [readAt, List.getElem?_take_of_lt hi, List.getElem?_drop]
  exact file.contents_of_lt h

end Spark.Uring
