import Spark.Lib.LittleEndian

/-!
# Loading a GGUF file

`model_open` maps a model file and reads its header, its metadata and its tensor directory through a cursor, with
64-bit counts, lengths, dimensions and offsets that come from the file. Strings and values stay in the mapping; what is
recorded are positions.

* **`Cursor`** — where the parser stands, and everywhere it has been.
* **`skipValue`** — one metadata value of any shape, `tensorNbytes` the size of a tensor.
* **`modelOpen`** — the header, `parse_metadata` and `parse_tensors`.
-/

namespace Spark.Gguf

/-- `UINT64_MAX`. -/
def uint64Max : Nat := 2 ^ 64 - 1

/-! ## The cursor -/

/-- `ds4_cursor`: the position, and all the positions it was moved to. -/
structure Cursor where
  pos : Nat
  trail : List Nat := []
  deriving DecidableEq, Repr

/-- `ds4_die`: the message the process ends with, and where the cursor has been. -/
structure Die where
  message : String
  trail : List Nat
  deriving DecidableEq, Repr

def Cursor.die (c : Cursor) (message : String) : Die := ⟨message, c.trail⟩

/-- `cursor_error`, of which the first one is the message. -/
def cursorError (c : Cursor) (message : String) : Die := c.die (message ++ " at byte " ++ toString c.pos)

def Cursor.move (c : Cursor) (n : Nat) : Cursor :=
  let pos := (c.pos + n) % 2 ^ 64
  { pos, trail := c.trail ++ [pos] }

variable (file : List UInt8)

def cursorHas (c : Cursor) (n : Nat) : Bool := !(n > file.length || c.pos > file.length - n)

def cursorSkip (c : Cursor) (n : Nat) : Except Die Cursor :=
  if cursorHas file c n then .ok (c.move n) else .error (cursorError c "truncated GGUF file")

/-- The little-endian word at a position. -/
def word (pos width : Nat) : Nat := leNat ((file.drop pos).take width)

def cursorRead (c : Cursor) (width : Nat) : Except Die (Nat × Cursor) :=
  (cursorSkip file c width).map fun later => (word file c.pos width, later)

def cursorU32 (c : Cursor) : Except Die (Nat × Cursor) := cursorRead file c 4

def cursorU64 (c : Cursor) : Except Die (Nat × Cursor) := cursorRead file c 8

/-- `ds4_str`: a string of the mapping. -/
structure Str where
  ptr : Nat
  len : Nat
  deriving DecidableEq, Repr

def cursorString (c : Cursor) : Except Die (Str × Cursor) := do
  let (len, c) ← cursorU64 file c
  let later ← cursorSkip file c len
  return (⟨c.pos, len⟩, later)

def Str.bytes (s : Str) : List UInt8 := (file.drop s.ptr).take s.len

/-- `ds4_streq`. -/
def streq (s : Str) (z : String) : Bool := s.bytes file = z.toUTF8.toList

def alignUp (value alignment : Nat) : Nat :=
  let rem := value % alignment
  if rem = 0 then value else ((value + alignment) % 2 ^ 64 + (2 ^ 64 - rem)) % 2 ^ 64

/-! ## Metadata values -/

def ggufValueUint32 : Nat := 4

def ggufValueString : Nat := 8

def ggufValueArray : Nat := 9

def scalarValueSize (type : Nat) : Nat :=
  match type with
  -- `UINT8`, `INT8`, `BOOL`
  | 0 | 1 | 7 => 1
  -- `UINT16`, `INT16`
  | 2 | 3 => 2
  -- `UINT32`, `INT32`, `FLOAT32`
  | 4 | 5 | 6 => 4
  -- `UINT64`, `INT64`, `FLOAT64`
  | 10 | 11 | 12 => 8
  | _ => 0

/-- The loop over the items of an array in `skip_value`. -/
def skipItems (skip : Cursor → Except Die Cursor) : Nat → Cursor → Except Die Cursor
  | 0, c => .ok c
  | n + 1, c => do
    let c ← skip c
    skipItems skip n c

/-- `skip_value` at depth `9 - left`. -/
def skipValue : Nat → Nat → Cursor → Except Die Cursor
  | 0, _, c => .error (cursorError c "metadata array nesting is too deep")
  | left + 1, type, c =>
    let scalar := scalarValueSize type
    if scalar ≠ 0 then cursorSkip file c scalar
    else if type = ggufValueString then do
      let (_, c) ← cursorString file c
      return c
    else if type = ggufValueArray then do
      let (itemType, c) ← cursorU32 file c
      let (len, c) ← cursorU64 file c
      let itemSize := scalarValueSize itemType
      if itemSize ≠ 0 then
        if len > uint64Max / itemSize then .error (cursorError c "metadata array is too large")
        else cursorSkip file c (len * itemSize % 2 ^ 64)
      else skipItems (skipValue left itemType) len c
    else .error (cursorError c "unknown GGUF metadata type")

/-- `ds4_kv`. -/
structure Kv where
  key : Str
  type : Nat
  valuePos : Nat
  deriving DecidableEq, Repr

/-- One round of `parse_metadata`, with the alignment so far. -/
def parseKv (alignment : Nat) (c : Cursor) : Except Die ((Kv × Nat) × Cursor) := do
  let (key, c) ← cursorString file c
  let (type, c) ← cursorU32 file c
  let valuePos := c.pos
  let (alignment, c) :=
    if streq file key "general.alignment" && type = ggufValueUint32 then
      -- the word is read with a cursor of its own
      match cursorU32 file { pos := valuePos } with
      | .ok (word, tmp) =>
        (if word ≠ 0 then word else alignment, { c with trail := c.trail ++ tmp.trail })
      | .error _ => (alignment, c)
    else (alignment, c)
  let c ← skipValue file 9 type c
  return ((⟨key, type, valuePos⟩, alignment), c)

def parseKvs : Nat → Nat → Cursor → Except Die ((List Kv × Nat) × Cursor)
  | 0, alignment, c => .ok (([], alignment), c)
  | n + 1, alignment, c => do
    let ((kv, alignment), c) ← parseKv file alignment c
    let ((kvs, alignment), c) ← parseKvs n alignment c
    return ((kv :: kvs, alignment), c)

/-- `parse_metadata`: the table and the alignment. `alloc` says whether a table of so many entries fits in memory. -/
def parseMetadata (alloc : Nat → Bool) (nKv : Nat) (c : Cursor) : Except Die ((List Kv × Nat) × Cursor) :=
  if nKv > file.length - c.pos then .error (c.die "GGUF metadata count exceeds file size")
  else if !alloc nKv then .error (c.die "out of memory while allocating metadata table")
  else parseKvs file nKv 32 c

/-! ## Tensors -/

/-- `gguf_type_info`. -/
structure TypeInfo where
  blockElems : Nat
  blockBytes : Nat
  deriving DecidableEq, Repr

/-- `tensor_type`, with the entries of `gguf_types` that have a name. -/
def tensorType (type : Nat) : Option TypeInfo :=
  match type with
  | 0 => some ⟨1, 4⟩
  | 1 => some ⟨1, 2⟩
  | 2 => some ⟨32, 18⟩
  | 3 => some ⟨32, 20⟩
  | 6 => some ⟨32, 22⟩
  | 7 => some ⟨32, 24⟩
  | 8 => some ⟨32, 34⟩
  | 9 => some ⟨32, 40⟩
  | 10 => some ⟨256, 84⟩
  | 11 => some ⟨256, 110⟩
  | 12 => some ⟨256, 144⟩
  | 13 => some ⟨256, 176⟩
  | 14 => some ⟨256, 210⟩
  | 15 => some ⟨256, 292⟩
  | 16 => some ⟨256, 66⟩
  | 17 => some ⟨256, 74⟩
  | 18 => some ⟨256, 98⟩
  | 19 => some ⟨256, 110⟩
  | 20 => some ⟨256, 50⟩
  | 21 => some ⟨256, 110⟩
  | 22 => some ⟨256, 82⟩
  | 23 => some ⟨256, 136⟩
  | 24 => some ⟨1, 1⟩
  | 25 => some ⟨1, 2⟩
  | 26 => some ⟨1, 4⟩
  | 27 => some ⟨1, 8⟩
  | 28 => some ⟨1, 8⟩
  | 29 => some ⟨256, 56⟩
  | 30 => some ⟨1, 2⟩
  | 39 => some ⟨32, 17⟩
  | _ => none

/-- `tensor_nbytes`; none where it returns false. -/
def tensorNbytes (type elements : Nat) : Option Nat :=
  match tensorType type with
  | none => none
  | some info =>
    if info.blockElems = 0 then none
    else
      -- `elements + block_elems - 1` in 64 bits
      let blocks := (elements + info.blockElems + uint64Max) % 2 ^ 64 / info.blockElems
      if blocks > uint64Max / info.blockBytes then none else some (blocks * info.blockBytes % 2 ^ 64)

def maxDims : Nat := 8

/-- `ds4_tensor`; `ndim` is the number of dimensions. -/
structure Tensor where
  name : Str
  dim : List Nat
  type : Nat
  relOffset : Nat
  absOffset : Nat
  elements : Nat
  bytes : Nat
  deriving DecidableEq, Repr

/-- The loop over the dimensions in `parse_tensors`. -/
def parseDims : Nat → Nat → Cursor → Except Die ((List Nat × Nat) × Cursor)
  | 0, elements, c => .ok (([], elements), c)
  | n + 1, elements, c => do
    let (dim, c) ← cursorU64 file c
    if dim ≠ 0 ∧ elements > uint64Max / dim then .error (c.die "tensor element count overflow")
    else
      let ((dims, elements), c) ← parseDims n (elements * dim % 2 ^ 64) c
      return ((dim :: dims, elements), c)

/-- One round of the first loop of `parse_tensors`. A tensor without a size keeps the zero of `calloc`. -/
def parseTensor (c : Cursor) : Except Die (Tensor × Cursor) := do
  let (name, c) ← cursorString file c
  let (ndim, c) ← cursorU32 file c
  if ndim = 0 ∨ ndim > maxDims then .error (c.die "tensor has an unsupported number of dimensions")
  else
    let ((dim, elements), c) ← parseDims file ndim 1 c
    let (type, c) ← cursorU32 file c
    let (relOffset, c) ← cursorU64 file c
    let bytes := (tensorNbytes type elements).getD 0
    return ({ name, dim, type, relOffset, absOffset := 0, elements, bytes }, c)

def parseDirectory : Nat → Cursor → Except Die (List Tensor × Cursor)
  | 0, c => .ok ([], c)
  | n + 1, c => do
    let (t, c) ← parseTensor file c
    let (ts, c) ← parseDirectory n c
    return (t :: ts, c)

/-- One round of the second loop of `parse_tensors`. -/
def placeTensor (c : Cursor) (tensorDataPos : Nat) (t : Tensor) : Except Die Tensor :=
  if t.relOffset > uint64Max - tensorDataPos then .error (c.die "tensor offset overflow")
  else
    let absOffset := (tensorDataPos + t.relOffset) % 2 ^ 64
    if t.bytes ≠ 0 ∧ (absOffset > file.length ∨ t.bytes > file.length - absOffset) then
      .error (c.die "tensor points outside GGUF file")
    else .ok { t with absOffset }

/-- What `parse_tensors` records: the tensors, where their data begins, and the longest of them. -/
structure Tensors where
  tensors : List Tensor
  tensorDataPos : Nat
  maxTensorBytes : Nat
  deriving DecidableEq, Repr

/-- `parse_tensors`. -/
def parseTensors (alloc : Nat → Bool) (nTensors alignment : Nat) (c : Cursor) : Except Die (Tensors × Cursor) :=
  if nTensors > file.length - c.pos then .error (c.die "GGUF tensor count exceeds file size")
  else if !alloc nTensors then .error (c.die "out of memory while allocating tensor table")
  else do
    let (directory, c) ← parseDirectory file nTensors c
    let tensorDataPos := alignUp c.pos alignment
    let tensors ← directory.mapM (placeTensor file c tensorDataPos)
    return (⟨tensors, tensorDataPos, (tensors.map Tensor.bytes).foldl max 0⟩, c)

/-! ## The model -/

def ggufMagic : Nat := 0x46554747

/-- `ds4_model`, and the cursor it was read with. -/
structure Model where
  version : Nat
  alignment : Nat
  kv : List Kv
  directory : Tensors
  cursor : Cursor
  deriving DecidableEq, Repr

/-- `model_open` from the size of the file on. The entries of the two tables differ in size, and so does what fits in
memory. -/
def modelOpen (allocKv allocTensors : Nat → Bool) : Except Die Model :=
  let c : Cursor := { pos := 0 }
  if file.length < 32 then .error (c.die "model file is too small to be GGUF")
  else do
    let (magic, c) ← cursorU32 file c
    if magic ≠ ggufMagic then .error (c.die "model is not a GGUF file")
    else
      let (version, c) ← cursorU32 file c
      let (nTensors, c) ← cursorU64 file c
      let (nKv, c) ← cursorU64 file c
      if version ≠ 3 then .error (c.die "only GGUF v3 is supported")
      else
        let ((kv, alignment), c) ← parseMetadata file allocKv nKv c
        let (directory, c) ← parseTensors file allocTensors nTensors alignment c
        return { version, alignment, kv, directory, cursor := c }

end Spark.Gguf
