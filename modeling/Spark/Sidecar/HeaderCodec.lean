import Spark.Sidecar.Checksum

/-!
# The header codecs

Each parser accepts the blocks its serializer writes, and others: reserved bytes count for the checksum, but
their value is not looked at.

* **`field_serializeHeader`** — an accepted block and what is serialized again agree in every field.
* **`eq_serializeHeader_iff`** — they are the same block exactly when the reserved bytes are zero.
* **`header_codecs`** — the codecs are inverse to each other up to that, and no block is of both formats.
-/

namespace Spark.Sidecar

open Crc

variable {format : Format} {header : Header} {block : List UInt8}

/-- The bytes that no field takes. -/
def reservedParts (format : Format) : List (Nat × List UInt8) :=
  [(36, List.replicate 4 0),
    (128 + format.layoutName.length, List.replicate (headerBytes - (128 + format.layoutName.length)) 0)]

/-- Every byte is in a field, in the checksum, or reserved. -/
theorem parts_cover (format : Format) (header : Header) {i : Nat} (hi : i < headerBytes) (hsum : i < 120 ∨ 128 ≤ i) :
    ∃ part ∈ headerParts format header ++ reservedParts format, part.1 ≤ i ∧ i < part.1 + part.2.length := by
  have hmagic := format.magic_length
  have hname := format.layoutName_length
  simp only [headerParts, reservedParts, List.cons_append, List.nil_append, List.exists_mem_cons_iff, length_leBytes,
    Vector.length_toList, hmagic, List.length_replicate, headerBytes, List.not_mem_nil, false_and, exists_false,
    or_false] at hi ⊢
  omega

/-- Blocks with the same fields and the same reserved bytes agree outside the checksum. -/
theorem getElem?_of_parts (format : Format) (header : Header) {a b : List UInt8}
    (ha : ∀ part ∈ headerParts format header ++ reservedParts format, field a part.1 part.2.length = part.2)
    (hb : ∀ part ∈ headerParts format header ++ reservedParts format, field b part.1 part.2.length = part.2)
    {i : Nat} (hi : i < headerBytes) (hsum : i < 120 ∨ 128 ≤ i) : a[i]? = b[i]? := by
  obtain ⟨part, hpart, hle, hlt⟩ := parts_cover format header hi hsum
  have hsame : (field a part.1 part.2.length)[i - part.1]? = (field b part.1 part.2.length)[i - part.1]? := by
    rw [ha part hpart, hb part hpart]
  rwa [field, field, List.getElem?_take_of_lt (by omega), List.getElem?_take_of_lt (by omega), List.getElem?_drop,
    List.getElem?_drop, Nat.add_sub_cancel' hle] at hsame

/-- The fields of an accepted block are those of what is serialized again. -/
theorem field_serializeHeader (h : parseHeader format block = .ok header) {part : Nat × List UInt8}
    (hpart : part ∈ headerParts format header) :
    field (serializeHeader format header) part.1 part.2.length = field block part.1 part.2.length := by
  rw [(says_serializeHeader format header).fields part hpart,
    ((parseHeader_eq_ok format header).mp h).fields part hpart]

theorem reserved_serializeHeader {part : Nat × List UInt8} (hpart : part ∈ reservedParts format) :
    field (serializeHeader format header) part.1 part.2.length = part.2 := by
  have hmagic := format.magic_length
  have hname := format.layoutName_length
  have hclear : ∀ part ∈ reservedParts format, part.1 + part.2.length ≤ headerBytes ∧
      (part.1 + part.2.length ≤ 120 ∨ 128 ≤ part.1) ∧ part.2 = List.replicate part.2.length 0 ∧
      ∀ other ∈ headerParts format header, Mem.Clear other part.1 part.2.length := by
    simp only [reservedParts, headerParts, List.forall_mem_cons, Mem.Clear, length_leBytes, Vector.length_toList,
      hmagic, List.length_replicate, headerBytes, List.not_mem_nil, false_imp_iff, implies_true, and_true, true_and]
    omega
  obtain ⟨hend, hapart, hzero, hother⟩ := hclear part hpart
  rw [serializeHeader_eq, field_sealBlock _ hend hapart, slice_headerFields_of_clear format header hother]
  exact hzero.symm

/-- Blocks that say something and agree outside the checksum agree in the checksum. -/
theorem Says.unique {header' : Header} {other : List UInt8} (h : Says format header block)
    (hother : Says format header' other) (hsame : ∀ i < headerBytes, i < 120 ∨ 128 ≤ i → block[i]? = other[i]?) :
    block = other := by
  have hfield : ∀ offset bytes, offset + bytes ≤ headerBytes → offset + bytes ≤ 120 ∨ 128 ≤ offset →
      field block offset bytes = field other offset bytes := by
    intro offset bytes hend hapart
    refine List.ext_getElem? fun i => ?_
    rw [field, field, List.getElem?_take, List.getElem?_take]
    split
    · rw [List.getElem?_drop, List.getElem?_drop]
      exact hsame _ (by omega) (by omega)
    · rfl
  have hfront := hfield 0 120 (by decide) (by decide)
  have hback := hfield 128 3968 (by decide) (by decide)
  have hinput : checksumInput block = checksumInput other := by
    rw [checksumInput_eq h.length, checksumInput_eq hother.length, hfront, hback]
  have hsum : field block 120 8 = field other 120 8 := by rw [h.checksum, hother.checksum, hinput]
  have hsplit : ∀ {bytes : List UInt8}, bytes.length = headerBytes →
      field bytes 0 120 ++ (field bytes 120 8 ++ field bytes 128 3968) = bytes := by
    intro bytes hlength
    have hrest : (bytes.drop 128).length ≤ 3968 := by
      rw [List.length_drop, hlength]
      decide
    rw [field, field, field, List.take_of_length_le hrest, List.drop_zero]
    rw [show 128 = 120 + 8 from rfl, ← List.drop_drop, List.take_append_drop, List.take_append_drop]
  rw [← hsplit h.length, ← hsplit hother.length, hfront, hsum, hback]

/-- What is serialized again is the block itself exactly when its reserved bytes are zero. -/
theorem eq_serializeHeader_iff (h : parseHeader format block = .ok header) :
    serializeHeader format header = block ↔
      ∀ part ∈ reservedParts format, field block part.1 part.2.length = part.2 := by
  constructor
  · rintro rfl part hpart
    exact reserved_serializeHeader hpart
  · intro hzero
    have hblock := (parseHeader_eq_ok format header).mp h
    have hagain := says_serializeHeader format header
    refine hagain.unique hblock fun i hi hsum => getElem?_of_parts format header ?_ ?_ hi hsum
    · exact List.forall_mem_append.mpr ⟨hagain.fields, fun part => reserved_serializeHeader⟩
    · exact List.forall_mem_append.mpr ⟨hblock.fields, hzero⟩

/-- The two magics differ. -/
theorem formats_exclusive (block : List UInt8) (a b : Header) :
    ¬ (parseHeader formatV1 block = .ok a ∧ parseHeader formatV2 block = .ok b) := by
  rintro ⟨hv1, hv2⟩
  have hmagic : ∀ {format : Format} {header : Header}, parseHeader format block = .ok header →
      field block 0 16 = format.magic := by
    intro format header h
    have hfield := ((parseHeader_eq_ok format header).mp h).fields (0, format.magic) List.mem_cons_self
    rwa [format.magic_length] at hfield
  have hsame : formatV1.magic = formatV2.magic := (hmagic hv1).symm.trans (hmagic hv2)
  exact absurd hsame (by decide)

/-- Both codecs read back what they write, for every header; an accepted block is serialized to the same fields, and
to the same block when its reserved bytes are zero; and no block is accepted by both parsers. -/
theorem header_codecs :
    (∀ format ∈ [formatV1, formatV2], ∀ header, parseHeader format (serializeHeader format header) = .ok header) ∧
    (∀ format ∈ [formatV1, formatV2], ∀ block header, parseHeader format block = .ok header →
      (∀ part ∈ headerParts format header,
        field (serializeHeader format header) part.1 part.2.length = field block part.1 part.2.length) ∧
      (serializeHeader format header = block ↔
        ∀ part ∈ reservedParts format, field block part.1 part.2.length = part.2)) ∧
    ∀ block a b, ¬ (parseHeader formatV1 block = .ok a ∧ parseHeader formatV2 block = .ok b) :=
  ⟨fun format _ header => parseHeader_serializeHeader format header,
    fun _ _ _ _ h => ⟨fun _ => field_serializeHeader h, eq_serializeHeader_iff h⟩, formats_exclusive⟩

/-- The fields of a header with a one in a reserved byte. -/
def marked (format : Format) (header : Header) : Mem UInt8 := (headerFields format header).write 36 [1]

theorem slice_marked (format : Format) (header : Header) {offset bytes : Nat}
    (h : offset + bytes ≤ 36 ∨ 37 ≤ offset) :
    (marked format header).slice offset bytes = (headerFields format header).slice offset bytes :=
  Mem.slice_write_of_apart _ h

/-- A reserved byte does not keep a block from being accepted. -/
theorem parseHeader_marked (format : Format) (header : Header) :
    parseHeader format (sealBlock (marked format header)) = .ok header := by
  refine (parseHeader_eq_ok format header).mpr (says_sealBlock format header ?_ fun part hpart => ?_)
  · rw [slice_marked _ _ (by omega), slice_headerFields_checksum]
  · have hmagic := format.magic_length
    have hapart : ∀ part ∈ headerParts format header, part.1 + part.2.length ≤ 36 ∨ 37 ≤ part.1 := by
      simp only [headerParts, List.forall_mem_cons, length_leBytes, Vector.length_toList, hmagic, List.not_mem_nil,
        false_imp_iff, implies_true, and_true]
      omega
    rw [slice_marked _ _ (hapart part hpart), slice_headerFields format header hpart]

/-- The two blocks differ in one bit, so their checksums differ. -/
theorem crc64Ecma_marked (format : Format) (header : Header) :
    crc64Ecma ((headerFields format header).slice 0 headerBytes) ≠
      crc64Ecma ((marked format header).slice 0 headerBytes) := by
  have hclear : ∀ part ∈ headerParts format header, Mem.Clear part 36 1 := by
    have hmagic := format.magic_length
    simp only [headerParts, List.forall_mem_cons, Mem.Clear, length_leBytes, Vector.length_toList, hmagic,
      List.not_mem_nil, false_imp_iff, implies_true, and_true]
    omega
  have hzero : (headerFields format header).slice 36 1 = [0] := slice_headerFields_of_clear format header hclear
  have hone : (marked format header).slice 36 1 = [1] := Mem.slice_write_self _ 36 [1]
  have hsplit : ∀ fields : Mem UInt8,
      fields.slice 0 headerBytes = fields.slice 0 36 ++ (fields.slice 36 1 ++ fields.slice 37 4059) := by
    intro fields
    rw [show headerBytes = 36 + (1 + 4059) from rfl, Mem.slice_add, Mem.slice_add]
  refine crc64Ecma_burst (by rw [Mem.length_slice, Mem.length_slice]) ?_
  rw [hsplit, hsplit, hzero, hone, slice_marked _ _ (by omega), slice_marked _ _ (by omega)]
  simp only [List.flatMap_append]
  exact differWithin_append _ _ rfl (by decide) (by decide)

/-- An accepted block whose checksum is not that of what is serialized again. -/
theorem reserved_byte_changes_checksum :
    ∃ block header, parseHeader formatV1 block = .ok header ∧
      field (serializeHeader formatV1 header) 120 8 ≠ field block 120 8 := by
  let header := formatV1.header (Vector.replicate 32 0) false 0
  refine ⟨sealBlock (marked formatV1 header), header, parseHeader_marked formatV1 header, fun h => ?_⟩
  rw [serializeHeader_eq, checksum_sealBlock, checksum_sealBlock] at h
  have hword := congrArg (fun bytes => UInt64.ofNat (leNat bytes)) h
  simp only [leNat_word64] at hword
  exact crc64Ecma_marked formatV1 header hword

end Spark.Sidecar
