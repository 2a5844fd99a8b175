import Spark.Lib.Pack
import Spark.Ple.Index

/-!
# The PLE index file

`ple_index.py` writes the index, `PleIndex::decode` of `storage.rs` reads it: a header of 64 bytes with a
checksum in its last word, a record of 40 bytes for each shard, and the paths of the shards in a row.

* **`PleIndex.encode`** — the Python side.
* **`PleIndex.decode`** — the Rust side, with the slices that could panic.
* **`PleIndex.Accepted`** — what an index that was read promises.
-/

namespace Spark.Ple

open Pack

def pleIndexMagic : List UInt8 := [0x53, 0x53, 0x50, 0x4c, 0x45, 0x49, 0x44, 0x58]

def pleIndexVersion : Nat := 1

def pleIndexHeaderBytes : Nat := 64

def pleIndexRecordBytes : Nat := 40

def pleDtypeFp8E4m3 : Nat := 1

/-! ## Checksums and paths -/

/-- One of the eight rounds of a byte. -/
def crc32Round (crc : UInt32) : UInt32 := (crc >>> 1) ^^^ (0xedb88320 &&& (0 - (crc &&& 1)))

def crc32 (payload : List UInt8) : UInt32 :=
  ~~~ payload.foldl (fun crc byte => crc32Round^[8] (crc ^^^ byte.toUInt32)) (~~~ 0)

/-- `std::path::Component` on Unix. -/
inductive Component where
  | rootDir
  | curDir
  | parentDir
  | normal (name : List Char)
  deriving DecidableEq, Repr

/-- A part between separators; an empty one and a `.` are not components. -/
def component (part : List Char) : Option Component :=
  if part = [] ∨ part = ['.'] then none
  else if part = ['.', '.'] then some .parentDir
  else some (.normal part)

/-- `Path::components`: a `.` is a component only in front of a relative path. -/
def components (path : List Char) : List Component :=
  match path.splitOn '/' with
  | [] => []
  | first :: rest =>
    let lead : Option Component :=
      if first = [] ∧ rest ≠ [] then some .rootDir
      else if first = ['.'] then some .curDir
      else component first
    lead.toList ++ rest.filterMap component

/-- `matches!(component, Component::Normal(_) | Component::CurDir)`. -/
def Component.allowed : Component → Bool
  | .normal _ | .curDir => true
  | .rootDir | .parentDir => false

def safeRelativePath (value : String) : Bool :=
  value.toList ≠ [] && (components value.toList).all Component.allowed

/-- `std::str::from_utf8`. -/
def fromUtf8 (bytes : List UInt8) : Option String := String.fromUTF8? bytes.toByteArray

/-- `str.encode("utf-8")`. -/
def utf8Bytes (value : String) : List UInt8 := value.toByteArray.data.toList

/-! ## The encoder -/

inductive EncodeError where
  /-- `PleFormatError`. -/
  | format (message : String)
  /-- `struct.error`: a value that does not fit its field. -/
  | struct
  deriving DecidableEq, Repr

/-- `Struct.pack`. -/
def structPack (fields : List (Nat × Nat)) : Except EncodeError (List UInt8) :=
  if ∀ field ∈ fields, field.2 < 256 ^ field.1 then .ok (pack fields) else .error .struct

/-- `_RECORD`: `<QQQQII`. -/
def recordFields (shard : PleShard) (pathOffset pathLen : Nat) : List (Nat × Nat) :=
  [(8, shard.globalRowStart), (8, shard.rowCount), (8, shard.dataOffset), (8, shard.dataBytes),
    (4, pathOffset), (4, pathLen)]

/-- `_HEADER` behind the magic: `<8sIIIIIIQIIIQI`. -/
def headerFields (index : PleIndex) (recordsBytes pathsBytes : Nat) : List (Nat × Nat) :=
  [(4, pleIndexVersion), (4, pleIndexHeaderBytes), (4, index.pageBytes), (4, index.rowBytes), (4, index.dtype),
    (4, index.shards.length), (8, index.totalRows), (4, index.scaleBf16Bits), (4, recordsBytes),
    (4, pathsBytes), (8, 0), (4, 0)]

/-- The loop variables of `encode`. -/
structure Tables where
  paths : List UInt8 := []
  records : List UInt8 := []
  expectedRow : Nat := 0

def encodeShard (rowBytes : Nat) (tables : Tables) (shard : PleShard) : Except EncodeError Tables := do
  if shard.globalRowStart ≠ tables.expectedRow then
    throw (.format "PLE shard rows are not contiguous")
  if shard.dataBytes ≠ shard.rowCount * rowBytes then
    throw (.format "PLE shard byte length does not match its shape")
  let path := utf8Bytes shard.relativePath
  if path = [] ∨ 0 ∈ path then
    throw (.format "PLE source path is invalid")
  let record ← structPack (recordFields shard tables.paths.length path.length)
  return {
    paths := tables.paths ++ path
    records := tables.records ++ record
    expectedRow := shard.globalRowStart + shard.rowCount }

namespace PleIndex

/-- `PleIndex.encode`. -/
def encode (index : PleIndex) : Except EncodeError (List UInt8) := do
  if index.shards = [] then
    throw (.format "PLE index has no shards")
  let tables ← index.shards.foldlM (encodeShard index.rowBytes) {}
  if tables.expectedRow ≠ index.totalRows then
    throw (.format "PLE total row count does not match its shards")
  let header ← structPack (headerFields index tables.records.length tables.paths.length)
  let payload := pleIndexMagic ++ (header ++ (tables.records ++ tables.paths))
  return patch payload (pleIndexHeaderBytes - 4) (leBytes 4 (crc32 payload).toNat)

end PleIndex

/-! ## The decoder -/

/-- How a decode that does not succeed ends: with an error, or in a slice out of range. -/
inductive Fault where
  | error (e : PleIndexError)
  | panic
  deriving DecidableEq, Repr

/-- `payload[offset..offset + count]`. -/
def sliceAt (payload : List UInt8) (offset count : Nat) : Except Fault (List UInt8) :=
  match slice payload offset count with
  | some bytes => .ok bytes
  | none => .error .panic

/-- `payload.get(offset..offset + count)`, read as a word. -/
def readWord (count : Nat) (payload : List UInt8) (offset : Nat) : Except Fault Nat :=
  match word payload offset count with
  | some value => .ok value
  | none => .error (.error .truncated)

def readU32 (payload : List UInt8) (offset : Nat) : Except Fault Nat := readWord 4 payload offset

def readU64 (payload : List UInt8) (offset : Nat) : Except Fault Nat := readWord 8 payload offset

/-- `value.ok_or(PleIndexError::IntegerOverflow)?`. -/
def inRange (value : Option Nat) : Except Fault Nat :=
  match value with
  | some value => .ok value
  | none => .error (.error .integerOverflow)

/-- `std::str::from_utf8(raw_path).map_err(|_| PleIndexError::Path)?.to_owned()`. -/
def pathFromUtf8 (rawPath : List UInt8) : Except Fault String :=
  match fromUtf8 rawPath with
  | some relativePath => .ok relativePath
  | none => .error (.error .path)

/-- `if bad { return Err(e); }`. -/
def reject (bad : Prop) [Decidable bad] (e : PleIndexError) : Except Fault Unit :=
  if bad then .error (.error e) else .ok ()

/-- The words of the header, as `decode` reads them. -/
structure Header where
  version : Nat
  headerBytes : Nat
  pageBytes : Nat
  rowBytes : Nat
  dtype : Nat
  shardCount : Nat
  totalRows : Nat
  scaleBf16Bits : Nat
  recordsBytes : Nat
  stringsBytes : Nat
  storedCrc : Nat

def readHeader (payload : List UInt8) : Except Fault Header := do
  reject (payload.length < pleIndexHeaderBytes) .truncated
  let magic ← sliceAt payload 0 8
  reject (magic ≠ pleIndexMagic) .magic
  let version ← readU32 payload 8
  let headerBytes ← readU32 payload 12
  let pageBytes ← readU32 payload 16
  let rowBytes ← readU32 payload 20
  let dtype ← readU32 payload 24
  let shardCount ← readU32 payload 28
  let totalRows ← readU64 payload 32
  let scaleBf16Bits ← readU32 payload 40
  let recordsBytes ← readU32 payload 44
  let stringsBytes ← readU32 payload 48
  let storedCrc ← readU32 payload 60
  return {
    version := version
    headerBytes := headerBytes
    pageBytes := pageBytes
    rowBytes := rowBytes
    dtype := dtype
    shardCount := shardCount
    totalRows := totalRows
    scaleBf16Bits := scaleBf16Bits
    recordsBytes := recordsBytes
    stringsBytes := stringsBytes
    storedCrc := storedCrc }

/-- `checked[60..64].fill(0)`. -/
def clearChecksum (payload : List UInt8) : Except Fault (List UInt8) := do
  let stored ← sliceAt payload 60 4
  return patch payload 60 (List.replicate stored.length 0)

def checkHeader (payload : List UInt8) (header : Header) : Except Fault Unit := do
  reject (header.version ≠ pleIndexVersion ∨ header.headerBytes ≠ pleIndexHeaderBytes) (.version header.version)
  reject (header.dtype ≠ pleDtypeFp8E4m3) (.dataType header.dtype)
  reject (header.pageBytes = 0 ∨ ¬ header.pageBytes.isPowerOfTwo ∨ header.rowBytes = 0) .layout
  reject (header.scaleBf16Bits > 65535) .layout
  let expectedRecords ← inRange (Word.checkedMul 64 header.shardCount pleIndexRecordBytes)
  reject (header.recordsBytes ≠ expectedRecords) .recordTable
  let expectedSize ← inRange ((Word.checkedAdd 64 header.headerBytes header.recordsBytes).bind fun value =>
    Word.checkedAdd 64 value header.stringsBytes)
  reject (payload.length ≠ expectedSize) .truncated
  let checked ← clearChecksum payload
  reject ((crc32 checked).toNat ≠ header.storedCrc) .checksum

/-- The body of the loop over the records, up to the shard it pushes. -/
def decodeRecord (payload : List UInt8) (header : Header) (ordinal expectedRow : Nat) : Except Fault PleShard := do
  let offset := header.headerBytes + ordinal * pleIndexRecordBytes
  let globalRowStart ← readU64 payload offset
  let rowCount ← readU64 payload (offset + 8)
  let dataOffset ← readU64 payload (offset + 16)
  let dataBytes ← readU64 payload (offset + 24)
  let pathOffset ← readU32 payload (offset + 32)
  let pathLen ← readU32 payload (offset + 36)
  reject (globalRowStart ≠ expectedRow ∨ rowCount = 0) .rowRange
  let expectedBytes ← inRange (Word.checkedMul 64 rowCount header.rowBytes)
  reject (dataBytes ≠ expectedBytes) .layout
  let pathEnd ← inRange (Word.checkedAdd 64 pathOffset pathLen)
  reject (pathEnd > header.stringsBytes) .path
  let stringsStart := header.headerBytes + header.recordsBytes
  let rawPath ← sliceAt payload (stringsStart + pathOffset) pathLen
  let relativePath ← pathFromUtf8 rawPath
  reject (safeRelativePath relativePath = false) .path
  return {
    globalRowStart := globalRowStart
    rowCount := rowCount
    dataOffset := dataOffset
    dataBytes := dataBytes
    relativePath := relativePath }

/-- The loop from `ordinal`, for `count` more records: their shards, and the row they end at. -/
def decodeShards (payload : List UInt8) (header : Header) :
    (count ordinal expectedRow : Nat) → Except Fault (List PleShard × Nat)
  | 0, _, expectedRow => .ok ([], expectedRow)
  | count + 1, ordinal, expectedRow => do
    let shard ← decodeRecord payload header ordinal expectedRow
    let rowEnd ← inRange (Word.checkedAdd 64 shard.globalRowStart shard.rowCount)
    let (shards, last) ← decodeShards payload header count (ordinal + 1) rowEnd
    return (shard :: shards, last)

/-- `PleIndex::decode`. -/
def PleIndex.decode (payload : List UInt8) : Except Fault PleIndex := do
  let header ← readHeader payload
  checkHeader payload header
  let (shards, expectedRow) ← decodeShards payload header header.shardCount 0 0
  reject (expectedRow ≠ header.totalRows ∨ shards = []) .rowRange
  return {
    pageBytes := header.pageBytes
    rowBytes := header.rowBytes
    dtype := header.dtype
    totalRows := header.totalRows
    scaleBf16Bits := header.scaleBf16Bits
    shards }

/-! ## What an index promises -/

/-- Shards one behind the other from row `start` to row `stop`, none of them empty. -/
inductive Tiles : List PleShard → Nat → Nat → Prop where
  | nil {row} : Tiles [] row row
  | cons {shard rest stop} (hrows : 0 < shard.rowCount)
      (hrest : Tiles rest (shard.globalRowStart + shard.rowCount) stop) :
      Tiles (shard :: rest) shard.globalRowStart stop

/-- A path that stays below the directory it is taken from. -/
def SafeRelative (path : String) : Prop :=
  path.toList ≠ [] ∧ path.toList.head? ≠ some '/' ∧ ['.', '.'] ∉ path.toList.splitOn '/'

/-- The invariants of the decoder. -/
structure PleIndex.Accepted (index : PleIndex) : Prop where
  pageBytes : 0 < index.pageBytes ∧ index.pageBytes.isPowerOfTwo
  rowBytes : 0 < index.rowBytes
  dtype : index.dtype = pleDtypeFp8E4m3
  scale : index.scaleBf16Bits < 2 ^ 16
  shards : index.shards ≠ []
  tiles : Tiles index.shards 0 index.totalRows
  dataBytes : ∀ shard ∈ index.shards, shard.dataBytes = shard.rowCount * index.rowBytes
  paths : ∀ shard ∈ index.shards, SafeRelative shard.relativePath

/-- The widths of the fields an index is written in. -/
structure PleIndex.Fits (index : PleIndex) : Prop where
  pageBytes : index.pageBytes < 2 ^ 32
  rowBytes : index.rowBytes < 2 ^ 32
  totalRows : index.totalRows < 2 ^ 64
  records : index.shards.length * pleIndexRecordBytes < 2 ^ 32
  paths : (index.shards.map fun shard => (utf8Bytes shard.relativePath).length).sum < 2 ^ 32
  shards : ∀ shard ∈ index.shards, shard.dataOffset < 2 ^ 64 ∧ shard.dataBytes < 2 ^ 64

end Spark.Ple
