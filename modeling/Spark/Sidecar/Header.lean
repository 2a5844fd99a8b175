import Spark.Lib.LittleEndian
import Spark.Lib.Mem
import Spark.Lib.Traverse
import Spark.Lib.Word

/-!
# The sidecar header

Both sidecar formats keep the state of a build in one 4096-byte header under a CRC-64 of its own.
They differ in the values of a `Format`.

* **`crc64Ecma`** — the checksum of headers and records.
* **`serializeHeader`**, **`parseHeader`** — the block and back.
* **`validateHeader`** — a header against the one the checkpoint calls for.
* **`parseHeader_eq_ok`** — the blocks that are accepted, by what their fields say.
* **`parseHeader_serializeHeader`** — what was serialized is read back.
-/

namespace Spark.Sidecar

inductive SidecarError where
  | checkpoint (message : String)
  | io
  | integerOverflow
  | invalid (message : String)
  | checksum (record : Nat) (expected actual : UInt64)
  deriving DecidableEq, Repr

/-! ## CRC-64 -/

def crc64Entry (index : Nat) : UInt64 :=
  (List.range 8).foldl
    (fun value _ =>
      if value &&& ((1 : UInt64) <<< 63) ≠ 0 then (value <<< 1) ^^^ 0x42f0e1eba9ea3693 else value <<< 1)
    (UInt64.ofNat index <<< 56)

def crc64Table : List UInt64 := (List.range 256).map crc64Entry

/-- `Crc64::update`. -/
def crc64Update (crc : UInt64) (bytes : List UInt8) : UInt64 :=
  bytes.foldl
    (fun crc byte =>
      let index := (crc >>> 56).toUInt8 ^^^ byte
      crc64Table.getD index.toNat 0 ^^^ (crc <<< 8))
    crc

def crc64Ecma (bytes : List UInt8) : UInt64 := crc64Update 0 bytes

/-- The checksum of consecutive chunks is that of the whole. -/
theorem crc64Update_append (crc : UInt64) (front back : List UInt8) :
    crc64Update crc (front ++ back) = crc64Update (crc64Update crc front) back :=
  List.foldl_append

/-! ## Formats -/

def headerBytes : Nat := 4096

def checksumBytes : Nat := 8

/-- What the two formats do not share. -/
structure Format where
  magic : List UInt8
  layoutName : List UInt8
  version : UInt32
  layers : UInt32
  expertsPerLayer : UInt32
  recordBytes : Nat
  recordCount : Nat
  /-- How messages about headers name the format. -/
  title : String
  /-- How messages about files name it. -/
  noun : String
  magic_length : magic.length = 16
  magic_ne_zero : magic ≠ List.replicate 16 0
  layoutName_length : layoutName.length ≤ 128
  fits : (4096 + recordCount * 8 + 4095) / 4096 * 4096 + recordCount * recordBytes < 2 ^ 64

namespace Format

variable (format : Format)

def recordsOffset : Nat := (headerBytes + format.recordCount * checksumBytes + 4095) / 4096 * 4096

def totalBytes : Nat := format.recordsOffset + format.recordCount * format.recordBytes

end Format

def ascii (text : String) : List UInt8 := text.toList.map Char.toUInt8

/-- The expert-major format: a record is one expert of one layer. -/
def formatV1 : Format where
  magic := ascii "SPARKQWEXPERT" ++ [0, 0, 0]
  layoutName := ascii "qwen3.8-flash-next-nvfp4-aos-v1"
  version := 1
  layers := 48
  expertsPerLayer := 512
  recordBytes := 2764816
  recordCount := 48 * 512
  title := "Qwen expert sidecar"
  noun := "sidecar"
  magic_length := by decide
  magic_ne_zero := by decide
  layoutName_length := by decide
  fits := by decide

/-- The layer-local format: a record is one layer. -/
def formatV2 : Format where
  magic := ascii "SPARKQWSOAV2" ++ [0, 0, 0, 0]
  layoutName := ascii "qwen3.8-flash-next-nvfp4-layer-soa-v2"
  version := 2
  layers := 48
  expertsPerLayer := 512
  recordBytes := 1415585792
  recordCount := 48
  title := "Qwen SoA-v2 sidecar"
  noun := "SoA-v2 sidecar"
  magic_length := by decide
  magic_ne_zero := by decide
  layoutName_length := by decide
  fits := by decide

/-- `ExpertSidecarHeader`, and with layers for records `ExpertSidecarV2Header`. -/
structure Header where
  stateComplete : Bool
  recordBytes : UInt64
  recordCount : UInt64
  checksumsOffset : UInt64
  recordsOffset : UInt64
  totalBytes : UInt64
  committed : UInt64
  sourceFingerprint : Vector UInt8 32
  deriving DecidableEq

def checked (value : Option Nat) : Except SidecarError Nat :=
  match value with
  | some value => .ok value
  | none => .error .integerOverflow

def alignUp (value alignment : Nat) : Except SidecarError Nat := do
  let rounded ← checked (Word.checkedAdd 64 value (alignment - 1))
  return rounded / alignment * alignment

def expectedHeader (format : Format) (sourceFingerprint : Vector UInt8 32) (complete : Bool)
    (committed : Nat) : Except SidecarError Header := do
  let checksums ← checked (Word.checkedMul 64 format.recordCount checksumBytes)
  let recordsOffset ← alignUp (← checked (Word.checkedAdd 64 headerBytes checksums)) 4096
  let records ← checked (Word.checkedMul 64 format.recordCount format.recordBytes)
  let totalBytes ← checked (Word.checkedAdd 64 recordsOffset records)
  return {
    stateComplete := complete
    recordBytes := UInt64.ofNat format.recordBytes
    recordCount := UInt64.ofNat format.recordCount
    checksumsOffset := UInt64.ofNat headerBytes
    recordsOffset := UInt64.ofNat recordsOffset
    totalBytes := UInt64.ofNat totalBytes
    committed := UInt64.ofNat committed
    sourceFingerprint }

/-! ## The block -/

def putU32 (block : Mem UInt8) (offset : Nat) (value : UInt32) : Mem UInt8 :=
  block.write offset (leBytes 4 value.toNat)

def putU64 (block : Mem UInt8) (offset : Nat) (value : UInt64) : Mem UInt8 :=
  block.write offset (leBytes 8 value.toNat)

/-- The block with its checksum field still zero. -/
def headerFields (format : Format) (header : Header) : Mem UInt8 :=
  let block : Mem UInt8 := fun _ => 0
  let block := block.write 0 format.magic
  let block := putU32 block 16 format.version
  let block := putU32 block 20 (UInt32.ofNat headerBytes)
  let block := putU32 block 24 (if header.stateComplete then 1 else 0)
  let block := putU32 block 28 format.layers
  let block := putU32 block 32 format.expertsPerLayer
  let block := putU64 block 40 header.recordBytes
  let block := putU64 block 48 header.recordCount
  let block := putU64 block 56 header.checksumsOffset
  let block := putU64 block 64 header.recordsOffset
  let block := putU64 block 72 header.totalBytes
  let block := putU64 block 80 header.committed
  let block := block.write 88 header.sourceFingerprint.toList
  block.write 128 format.layoutName

def serializeHeader (format : Format) (header : Header) : List UInt8 :=
  let block := headerFields format header
  let checksum := crc64Ecma (block.slice 0 headerBytes)
  (putU64 block 120 checksum).slice 0 headerBytes

/-- `input.get(offset..offset + bytes)`. -/
def getRange (input : List UInt8) (offset bytes : Nat) : Except SidecarError (List UInt8) :=
  if offset + bytes ≤ input.length then .ok ((input.drop offset).take bytes)
  else .error .integerOverflow

def getU32 (input : List UInt8) (offset : Nat) : Except SidecarError UInt32 := do
  return UInt32.ofNat (leNat (← getRange input offset 4))

def getU64 (input : List UInt8) (offset : Nat) : Except SidecarError UInt64 := do
  return UInt64.ofNat (leNat (← getRange input offset 8))

/-- The block with its checksum field cleared. -/
def checksumInput (block : List UInt8) : List UInt8 :=
  block.take 120 ++ List.replicate 8 0 ++ block.drop 128

def getFingerprint (block : List UInt8) : Vector UInt8 32 :=
  Vector.ofFn fun i => block.getD (88 + i.val) 0

def parseHeader (format : Format) (block : List UInt8) : Except SidecarError Header := do
  if block.length ≠ headerBytes ∨ block.take 16 ≠ format.magic then
    throw (.invalid ("invalid " ++ format.title ++ " magic or header size"))
  let storedChecksum ← getU64 block 120
  if crc64Ecma (checksumInput block) ≠ storedChecksum then
    throw (.invalid (format.title ++ " header checksum mismatch"))
  if (← getU32 block 16) ≠ format.version ∨
      (← getU32 block 20) ≠ UInt32.ofNat headerBytes ∨
      (← getU32 block 28) ≠ format.layers ∨
      (← getU32 block 32) ≠ format.expertsPerLayer ∨
      (block.drop 128).take format.layoutName.length ≠ format.layoutName then
    throw (.invalid ("unsupported " ++ format.title ++ " schema"))
  let state ← getU32 block 24
  if state ≠ 0 ∧ state ≠ 1 then
    throw (.invalid ("invalid " ++ format.title ++ " state"))
  return {
    stateComplete := state = 1
    recordBytes := ← getU64 block 40
    recordCount := ← getU64 block 48
    checksumsOffset := ← getU64 block 56
    recordsOffset := ← getU64 block 64
    totalBytes := ← getU64 block 72
    committed := ← getU64 block 80
    sourceFingerprint := getFingerprint block }

def validateHeader (format : Format) (actual expected : Header) (requireComplete : Bool) :
    Except SidecarError Unit :=
  if actual.recordBytes ≠ expected.recordBytes ∨
      actual.recordCount ≠ expected.recordCount ∨
      actual.checksumsOffset ≠ expected.checksumsOffset ∨
      actual.recordsOffset ≠ expected.recordsOffset ∨
      actual.totalBytes ≠ expected.totalBytes ∨
      actual.sourceFingerprint ≠ expected.sourceFingerprint ∨
      actual.committed > actual.recordCount ∨
      (requireComplete ∧ (¬ actual.stateComplete ∨ actual.committed ≠ actual.recordCount)) ∨
      (¬ requireComplete ∧ actual.stateComplete) then
    .error (.invalid (format.title ++ " metadata does not match this checkpoint or build"))
  else .ok ()

/-! ## Reading back a serialized block -/

/-- `bytes` bytes of a block from `offset` on. -/
def field (block : List UInt8) (offset bytes : Nat) : List UInt8 := (block.drop offset).take bytes

/-- A block of fields with its checksum put in. -/
def sealBlock (fields : Mem UInt8) : List UInt8 :=
  (putU64 fields 120 (crc64Ecma (fields.slice 0 headerBytes))).slice 0 headerBytes

theorem length_sealBlock (fields : Mem UInt8) : (sealBlock fields).length = headerBytes := Mem.length_slice _ _ _

/-- Outside the checksum a sealed block holds the fields. -/
theorem field_sealBlock (fields : Mem UInt8) {offset bytes : Nat} (hend : offset + bytes ≤ headerBytes)
    (hapart : offset + bytes ≤ 120 ∨ 128 ≤ offset) :
    field (sealBlock fields) offset bytes = fields.slice offset bytes := by
  rw [field, sealBlock, Mem.take_drop_slice _ hend, Nat.zero_add]
  exact Mem.slice_write_of_apart fields (by rwa [length_leBytes])

theorem checksum_sealBlock (fields : Mem UInt8) :
    field (sealBlock fields) 120 8 = leBytes 8 (crc64Ecma (fields.slice 0 headerBytes)).toNat := by
  rw [field, sealBlock, Mem.take_drop_slice _ (by decide), Nat.zero_add]
  simpa [putU64] using Mem.slice_write_self fields 120 (leBytes 8 (crc64Ecma (fields.slice 0 headerBytes)).toNat)

theorem checksumInput_eq {block : List UInt8} (h : block.length = headerBytes) :
    checksumInput block = field block 0 120 ++ List.replicate 8 0 ++ field block 128 3968 := by
  rw [checksumInput, field, field, List.drop_zero, List.take_of_length_le (l := block.drop 128)]
  rw [List.length_drop, h]
  decide

theorem checksumInput_sealBlock {fields : Mem UInt8} (h : fields.slice 120 8 = List.replicate 8 0) :
    checksumInput (sealBlock fields) = fields.slice 0 headerBytes := by
  rw [checksumInput_eq (length_sealBlock fields), field_sealBlock _ (by decide) (by decide),
    field_sealBlock _ (by decide) (by decide), ← h, show headerBytes = 120 + 8 + 3968 from rfl, Mem.slice_add,
    Mem.slice_add]

section RoundTrip

variable (format : Format) (header : Header)

/-- The fields of a header and where they are, in the order they are put. -/
def headerParts : List (Nat × List UInt8) :=
  [(0, format.magic),
    (16, leBytes 4 format.version.toNat),
    (20, leBytes 4 (UInt32.ofNat headerBytes).toNat),
    (24, leBytes 4 (if header.stateComplete then (1 : UInt32) else 0).toNat),
    (28, leBytes 4 format.layers.toNat),
    (32, leBytes 4 format.expertsPerLayer.toNat),
    (40, leBytes 8 header.recordBytes.toNat),
    (48, leBytes 8 header.recordCount.toNat),
    (56, leBytes 8 header.checksumsOffset.toNat),
    (64, leBytes 8 header.recordsOffset.toNat),
    (72, leBytes 8 header.totalBytes.toNat),
    (80, leBytes 8 header.committed.toNat),
    (88, header.sourceFingerprint.toList),
    (128, format.layoutName)]

theorem headerFields_eq : headerFields format header = Mem.writeParts (fun _ => 0) (headerParts format header) := rfl

theorem serializeHeader_eq : serializeHeader format header = sealBlock (headerFields format header) := rfl

theorem length_serializeHeader : (serializeHeader format header).length = headerBytes := length_sealBlock _

/-- No field meets another. -/
theorem headerParts_apart :
    (headerParts format header).Pairwise fun part later => Mem.Clear later part.1 part.2.length := by
  have hmagic := format.magic_length
  simp only [headerParts, List.pairwise_cons, List.forall_mem_cons, Mem.Clear, length_leBytes, Vector.length_toList,
    hmagic, List.not_mem_nil, false_imp_iff, implies_true, List.Pairwise.nil, and_true]
  omega

theorem slice_headerFields {part : Nat × List UInt8} (h : part ∈ headerParts format header) :
    (headerFields format header).slice part.1 part.2.length = part.2 :=
  Mem.slice_writeParts_of_mem _ (headerParts_apart format header) h

/-- The checksum and what is reserved stay zero. -/
theorem slice_headerFields_of_clear {offset bytes : Nat}
    (h : ∀ part ∈ headerParts format header, Mem.Clear part offset bytes) :
    (headerFields format header).slice offset bytes = List.replicate bytes 0 := by
  rw [headerFields_eq, Mem.slice_writeParts_of_clear _ h]
  simp [Mem.slice]

theorem slice_headerFields_checksum : (headerFields format header).slice 120 8 = List.replicate 8 0 := by
  apply slice_headerFields_of_clear
  have hmagic := format.magic_length
  simp only [headerParts, List.forall_mem_cons, Mem.Clear, length_leBytes, Vector.length_toList, hmagic,
    List.not_mem_nil, false_imp_iff, implies_true, and_true]
  omega

/-- A field is inside the block and does not meet the checksum. -/
theorem headerParts_inside {part : Nat × List UInt8} (h : part ∈ headerParts format header) :
    part.1 + part.2.length ≤ headerBytes ∧ (part.1 + part.2.length ≤ 120 ∨ 128 ≤ part.1) := by
  have hmagic := format.magic_length
  have hname := format.layoutName_length
  revert part
  simp only [headerParts, List.forall_mem_cons, length_leBytes, Vector.length_toList, hmagic, headerBytes,
    List.not_mem_nil, false_imp_iff, implies_true, and_true]
  omega

/-- What a block says: its checksum is right, and its fields are those of the header. -/
structure Says (block : List UInt8) : Prop where
  length : block.length = headerBytes
  checksum : field block 120 8 = leBytes 8 (crc64Ecma (checksumInput block)).toNat
  fields : ∀ part ∈ headerParts format header, field block part.1 part.2.length = part.2

/-- A sealed block says what its fields say. -/
theorem says_sealBlock {fields : Mem UInt8} (hzero : fields.slice 120 8 = List.replicate 8 0)
    (h : ∀ part ∈ headerParts format header, fields.slice part.1 part.2.length = part.2) :
    Says format header (sealBlock fields) where
  length := length_sealBlock fields
  checksum := by rw [checksum_sealBlock, checksumInput_sealBlock hzero]
  fields part hpart := by
    obtain ⟨hend, hapart⟩ := headerParts_inside format header hpart
    rw [field_sealBlock _ hend hapart, h part hpart]

theorem says_serializeHeader : Says format header (serializeHeader format header) :=
  says_sealBlock format header (slice_headerFields_checksum format header) fun _ => slice_headerFields format header

/-! ## What is read -/

theorem getU32_eq_ok {block : List UInt8} {offset : Nat} {value : UInt32} (h : offset + 4 ≤ block.length) :
    getU32 block offset = .ok value ↔ field block offset 4 = leBytes 4 value.toNat := by
  have hlength : (field block offset 4).length = 4 := by
    rw [field, List.length_take, List.length_drop]
    omega
  rw [getU32, getRange, if_pos h]
  constructor
  · intro hread
    have hvalue : UInt32.ofNat (leNat (field block offset 4)) = value := Except.ok.inj hread
    have hlt := leNat_lt (field block offset 4)
    have hback := leBytes_leNat (field block offset 4)
    rw [hlength] at hlt hback
    rw [← hvalue, UInt32.toNat_ofNat_of_lt' hlt, hback]
  · intro hfield
    show Except.ok (UInt32.ofNat (leNat (field block offset 4))) = _
    rw [hfield, leNat_word32]

theorem getU64_eq_ok {block : List UInt8} {offset : Nat} {value : UInt64} (h : offset + 8 ≤ block.length) :
    getU64 block offset = .ok value ↔ field block offset 8 = leBytes 8 value.toNat := by
  have hlength : (field block offset 8).length = 8 := by
    rw [field, List.length_take, List.length_drop]
    omega
  rw [getU64, getRange, if_pos h]
  constructor
  · intro hread
    have hvalue : UInt64.ofNat (leNat (field block offset 8)) = value := Except.ok.inj hread
    have hlt := leNat_lt (field block offset 8)
    have hback := leBytes_leNat (field block offset 8)
    rw [hlength] at hlt hback
    rw [← hvalue, UInt64.toNat_ofNat_of_lt' hlt, hback]
  · intro hfield
    show Except.ok (UInt64.ofNat (leNat (field block offset 8))) = _
    rw [hfield, leNat_word64]

theorem getFingerprint_eq {block : List UInt8} {fingerprint : Vector UInt8 32} (h : block.length = headerBytes) :
    getFingerprint block = fingerprint ↔ field block 88 32 = fingerprint.toList := by
  have hread : field block 88 32 = (getFingerprint block).toList := by
    refine List.ext_getElem (by simp [field, h, headerBytes]) fun i hi _ => ?_
    have hlt : 88 + i < block.length := by
      rw [field, List.length_take] at hi
      rw [h, headerBytes]
      omega
    simp only [field, List.getElem_take, List.getElem_drop, getFingerprint, Vector.getElem_toList,
      Vector.getElem_ofFn, List.getD_eq_getElem?_getD, List.getElem?_eq_getElem hlt, Option.getD_some]
  rw [hread, Vector.toList_inj]

/-- A block that starts with zeros is no header. -/
theorem parseHeader_zero {block : List UInt8} {header : Header}
    (hzero : block.take 16 = List.replicate 16 0) : parseHeader format block ≠ .ok header := by
  unfold parseHeader
  rw [if_pos (.inr (by rw [hzero]; exact format.magic_ne_zero.symm))]
  nofun

theorem parseHeader_of_says {block : List UInt8} (h : Says format header block) :
    parseHeader format block = .ok header := by
  have hlength := h.length
  have hfields := h.fields
  have hchecksum := (getU64_eq_ok (by rw [hlength]; decide)).mpr h.checksum
  simp only [headerParts, List.forall_mem_cons, length_leBytes, Vector.length_toList, format.magic_length] at hfields
  obtain ⟨hmagic, hversion, hbytes, hstate, hlayers, hexperts, hrecord, hcount, hsums, hrecords, htotal, hcommitted,
    hfingerprint, hname, -⟩ := hfields
  rw [← getU32_eq_ok (by rw [hlength]; decide)] at hversion hbytes hstate hlayers hexperts
  rw [← getU64_eq_ok (by rw [hlength]; decide)] at hrecord hcount hsums hrecords htotal hcommitted
  rw [← getFingerprint_eq hlength] at hfingerprint
  rw [field, List.drop_zero] at hmagic
  rw [field] at hname
  unfold parseHeader
  rw [if_neg (by simp [hlength, hmagic]), hchecksum, hversion, hbytes, hlayers, hexperts, hname, hstate,
    hrecord, hcount, hsums, hrecords, htotal, hcommitted, hfingerprint]
  cases header with
  | mk stateComplete =>
    cases stateComplete <;> simp [bind, Except.bind, pure, Except.pure]

theorem says_of_parseHeader {block : List UInt8} (h : parseHeader format block = .ok header) :
    Says format header block := by
  unfold parseHeader at h
  split at h
  · cases h
  next hstart =>
  push Not at hstart
  obtain ⟨hlength, hmagic⟩ := hstart
  dsimp only at h
  obtain ⟨stored, hstored, h⟩ := Traverse.bind_eq_ok.mp h
  split at h
  · cases h
  next hchecksum =>
  rw [not_not] at hchecksum
  obtain ⟨version, hversion, h⟩ := Traverse.bind_eq_ok.mp h
  obtain ⟨bytes, hbytes, h⟩ := Traverse.bind_eq_ok.mp h
  obtain ⟨layers, hlayers, h⟩ := Traverse.bind_eq_ok.mp h
  obtain ⟨experts, hexperts, h⟩ := Traverse.bind_eq_ok.mp h
  split at h
  · cases h
  next hschema =>
  push Not at hschema
  obtain ⟨hversion', hbytes', hlayers', hexperts', hname⟩ := hschema
  rw [hversion'] at hversion
  rw [hbytes'] at hbytes
  rw [hlayers'] at hlayers
  rw [hexperts'] at hexperts
  obtain ⟨state, hstate, h⟩ := Traverse.bind_eq_ok.mp h
  split at h
  · cases h
  next hknown =>
  obtain ⟨recordBytes, hrecord, h⟩ := Traverse.bind_eq_ok.mp h
  obtain ⟨recordCount, hcount, h⟩ := Traverse.bind_eq_ok.mp h
  obtain ⟨checksumsOffset, hsums, h⟩ := Traverse.bind_eq_ok.mp h
  obtain ⟨recordsOffset, hrecords, h⟩ := Traverse.bind_eq_ok.mp h
  obtain ⟨totalBytes, htotal, h⟩ := Traverse.bind_eq_ok.mp h
  obtain ⟨committed, hcommitted, h⟩ := Traverse.bind_eq_ok.mp h
  cases h
  have hflag : (if decide (state = 1) then (1 : UInt32) else 0) = state := by
    by_cases hone : state = 1
    · rw [hone]
      rfl
    · rw [decide_eq_false hone]
      exact (not_not.mp fun hzero => hknown ⟨hzero, hone⟩).symm
  rw [getU32_eq_ok (by rw [hlength]; decide)] at hversion hbytes hlayers hexperts hstate
  rw [getU64_eq_ok (by rw [hlength]; decide)] at hstored hrecord hcount hsums hrecords htotal hcommitted
  refine ⟨hlength, hchecksum ▸ hstored, ?_⟩
  simp only [headerParts, List.forall_mem_cons, length_leBytes, Vector.length_toList, format.magic_length, hflag]
  exact ⟨hmagic, hversion, hbytes, hstate, hlayers, hexperts, hrecord, hcount, hsums, hrecords, htotal, hcommitted,
    (getFingerprint_eq hlength).mp rfl, hname, nofun⟩

/-- The parser accepts exactly the blocks that say what it answers. -/
theorem parseHeader_eq_ok {block : List UInt8} :
    parseHeader format block = .ok header ↔ Says format header block :=
  ⟨says_of_parseHeader format header, parseHeader_of_says format header⟩

theorem parseHeader_serializeHeader :
    parseHeader format (serializeHeader format header) = .ok header :=
  (parseHeader_eq_ok format header).mpr (says_serializeHeader format header)

end RoundTrip

/-! ## The headers of a build -/

section Expected

variable (format : Format) (fingerprint : Vector UInt8 32)

/-- The header of a build with `committed` records. -/
def Format.header (complete : Bool) (committed : Nat) : Header where
  stateComplete := complete
  recordBytes := UInt64.ofNat format.recordBytes
  recordCount := UInt64.ofNat format.recordCount
  checksumsOffset := UInt64.ofNat headerBytes
  recordsOffset := UInt64.ofNat format.recordsOffset
  totalBytes := UInt64.ofNat format.totalBytes
  committed := UInt64.ofNat committed
  sourceFingerprint := fingerprint

theorem Format.totalBytes_lt : format.totalBytes < 2 ^ 64 := format.fits

theorem Format.recordCount_lt : format.recordCount < 2 ^ 64 := by
  have hfits := format.totalBytes_lt
  unfold Format.totalBytes Format.recordsOffset checksumBytes headerBytes at hfits
  omega

theorem checked_add {a b : Nat} (h : a + b < 2 ^ 64) :
    checked (Word.checkedAdd 64 a b) = .ok (a + b) := by
  rw [Word.checkedAdd_eq_some.mpr ⟨h, rfl⟩]
  rfl

theorem checked_mul {a b : Nat} (h : a * b < 2 ^ 64) :
    checked (Word.checkedMul 64 a b) = .ok (a * b) := by
  rw [Word.checkedMul_eq_some.mpr ⟨h, rfl⟩]
  rfl

theorem alignUp_ok {value : Nat} (h : value + 4095 < 2 ^ 64) :
    alignUp value 4096 = .ok ((value + 4095) / 4096 * 4096) := by
  unfold alignUp
  rw [checked_add h]
  rfl

/-- No format overflows the arithmetic of its header. -/
theorem expectedHeader_ok (complete : Bool) (committed : Nat) :
    expectedHeader format fingerprint complete committed =
      .ok (format.header fingerprint complete committed) := by
  have hfits := format.totalBytes_lt
  have hrecords : headerBytes + format.recordCount * checksumBytes ≤ format.recordsOffset := by
    unfold Format.recordsOffset headerBytes
    omega
  have htotal : format.totalBytes = format.recordsOffset + format.recordCount * format.recordBytes := rfl
  have hround : headerBytes + format.recordCount * checksumBytes + 4095 < 2 ^ 64 := by
    have hdiv : format.recordsOffset =
      (headerBytes + format.recordCount * checksumBytes + 4095) / 4096 * 4096 := rfl
    omega
  have halign : alignUp (headerBytes + format.recordCount * checksumBytes) 4096 =
      .ok format.recordsOffset := alignUp_ok hround
  have hsum := checked_add (show headerBytes + format.recordCount * checksumBytes < 2 ^ 64 by omega)
  have hend := checked_add (show format.recordsOffset + format.recordCount * format.recordBytes < 2 ^ 64
    by omega)
  unfold expectedHeader
  rw [checked_mul (show format.recordCount * checksumBytes < 2 ^ 64 by omega),
    checked_mul (show format.recordCount * format.recordBytes < 2 ^ 64 by omega)]
  simp only [bind, Except.bind, hsum, halign]
  rw [hend]
  rfl

theorem validateHeader_complete (complete : Bool) (committed : Nat) :
    validateHeader format (format.header fingerprint true format.recordCount)
      (format.header fingerprint complete committed) true = .ok () := by
  unfold validateHeader
  rw [if_neg (by simp [Format.header])]

/-- A build resumes from headers that are not complete, and only from these. -/
theorem validateHeader_building {complete complete' : Bool} {committed committed' : Nat}
    (h : committed ≤ format.recordCount) :
    validateHeader format (format.header fingerprint complete committed)
        (format.header fingerprint complete' committed') false =
      if complete then
        .error (.invalid (format.title ++ " metadata does not match this checkpoint or build"))
      else .ok () := by
  have hcount : UInt64.ofNat committed ≤ UInt64.ofNat format.recordCount := by
    have hlt := format.recordCount_lt
    rw [UInt64.le_iff_toNat_le, UInt64.toNat_ofNat_of_lt' (Nat.lt_of_le_of_lt h hlt), UInt64.toNat_ofNat_of_lt' hlt]
    exact h
  unfold validateHeader
  cases complete with
  | true => simp [Format.header]
  | false => simp [Format.header, hcount]

end Expected

end Spark.Sidecar
