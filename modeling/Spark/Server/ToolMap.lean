import Spark.Lib.FixedCodec
import Spark.Server.Dsml
import Spark.Server.Text
import Spark.Server.ToolMemory

/-!
# Tool maps on disk

A cached prompt is stored together with the tool calls that were sampled in it, so that a server that takes the prompt
up again can still put the sampled text back (`server.c`, `kv_tool_map_*`). The map stands behind the payload of the
file: a header with a count, and for each id the two lengths, the id and the text.

* **`findNextDsmlToolBlock`**, **`toolBlocks`** — the blocks of tool calls in a prompt.
* **`kvToolMapMeasure`**, **`kvToolMapWrite`** — the scan over the blocks, for its size and for its bytes.
* **`kvToolMapLoadFromPos`** — the calls of a file, into the memory of another server.

A write puts its bytes behind the file and does not fail; a read that finds less than it asks for is at the end of the
file.
-/

namespace Spark.Server

open FixedCodec

/-! ## Blocks -/

/-- The forms of `find_next_dsml_tool_block`, each with the string that ends it. -/
def toolBlockForms : List (List UInt8 × List UInt8) :=
  dsmlSyntaxes.flatMap fun form =>
    [(bytes "\n\n" ++ form.toolCallsStart, form.toolCallsEnd), (form.toolCallsStart, form.toolCallsEnd)]

/-- The block of one form, where it starts in front of the best one so far. -/
def betterBlock (p : List UInt8) (best : Option (Nat × Nat)) (form : List UInt8 × List UInt8) : Option (Nat × Nat) :=
  match strstr p form.1 with
  | none => best
  | some s =>
    if best.any fun found => decide (found.1 ≤ s) then best
    else
      match strstr (p.drop s) form.2 with
      | none => best
      | some e => some (s, s + e + form.2.length)

/-- `find_next_dsml_tool_block`: where the first block starts, and where it ends. -/
def findNextDsmlToolBlock (p : List UInt8) : Option (Nat × Nat) := toolBlockForms.foldl (betterBlock p) none

/-- The blocks of a text, each looked for behind the one before it. -/
def toolBlocksFrom : Nat → List UInt8 → List (List UInt8)
  | 0, _ => []
  | fuel + 1, p =>
    match findNextDsmlToolBlock p with
    | none => []
    | some (s, e) => (p.drop s).take (e - s) :: toolBlocksFrom fuel (p.drop e)

/-- No block is empty, so there are not more of them than bytes. -/
def toolBlocks (text : List UInt8) : List (List UInt8) := toolBlocksFrom (text.length + 1) text

/-! ## The scan -/

/-- The ids along a chain of entries; none where it leads through a dead pointer, or runs longer than there are
cells. -/
def ToolMemory.chainIds (m : ToolMemory) : Nat → Option Nat → Option (List (List UInt8))
  | _, none => some []
  | 0, some _ => none
  | fuel + 1, some e => (m.entryAt e).bind fun x => (m.chainIds fuel (m.blockNext e)).map fun ids => x.id :: ids

/-- The scan over the blocks of a text. A block that is remembered is visited once, with the ids of its entries; a
visit that returns none ends the scan. -/
def scanBlocks {β : Type} (visit : ToolMemoryBlock → β → List UInt8 → Option β) (scan : UInt64) :
    List (List UInt8) → ToolMemory → β → Option (ToolMemory × Option β)
  | [], m, acc => some (m, some acc)
  | text :: texts, m, acc =>
    match m.findBlock text with
    | none => scanBlocks visit scan texts m acc
    | some p =>
      (m.blockAt p).bind fun b =>
        if b.seen = scan then scanBlocks visit scan texts m acc
        else
          let m := m.setBlock p (some { b with seen := scan })
          (m.chainIds m.fresh b.entries).bind fun ids =>
            match ids.foldlM (visit b) acc with
            | none => some (m, none)
            | some acc => scanBlocks visit scan texts m acc

def kvToolMapHeader : Nat := 8

def mapUint32Max : Nat := 2 ^ 32 - 1
def mapUint64Max : Nat := 2 ^ 64 - 1

/-- An entry whose lengths do not fit its fields is not written. -/
def entryFits (idLen dsmlLen : Nat) : Bool := decide (idLen ≤ mapUint32Max) && decide (dsmlLen ≤ mapUint32Max)

/-- The count and the size behind one more entry. -/
def measureEntry (b : ToolMemoryBlock) (acc : Nat × Nat) (id : List UInt8) : Option (Nat × Nat) :=
  if ¬ entryFits id.length b.len then some acc
  else if acc.1 = mapUint32Max then none
  else if mapUint64Max - acc.2 < 8 ∨ mapUint64Max - acc.2 - 8 < id.length ∨
      mapUint64Max - acc.2 - 8 - id.length < b.len then none
  else some (acc.1 + 1, acc.2 + (8 + id.length + b.len))

/-- `kv_tool_map_measure_locked`: the count and the size, which is zero for none. -/
def kvToolMapMeasure (m : ToolMemory) (text : List UInt8) : Option (ToolMemory × Option (Nat × Nat)) :=
  let m := { m with scanClock := m.scanClock + 1 }
  (scanBlocks measureEntry m.scanClock (toolBlocks text) m (0, kvToolMapHeader)).map fun out =>
    (out.1, out.2.map fun acc => (acc.1, if acc.1 = 0 then 0 else acc.2))

/-- The lengths in front of an entry. -/
def entryLengths : FixedCodec (UInt32 × UInt32) := word32.pair word32

def entryBytesOf (id dsml : List UInt8) : List UInt8 :=
  entryLengths.enc (UInt32.ofNat id.length, UInt32.ofNat dsml.length) ++ (id ++ dsml)

/-- The file behind one more entry; none where `fwrite` finds no room for it on the disk. -/
def writeEntry (room : Nat) (b : ToolMemoryBlock) (file : List UInt8) (id : List UInt8) : Option (List UInt8) :=
  if ¬ entryFits id.length b.len then some file
  else
    let file := file ++ entryBytesOf id (b.dsml.take b.len)
    if file.length ≤ room then some file else none

/-- `KV_TOOL_MAP_MAGIC0` to `KV_TOOL_MAP_VERSION`. -/
def kvToolMapMagic : List UInt8 := bytes "KTM" ++ [1]

/-- `id_list_contains`. -/
def idListContains (ids : List (List UInt8)) (id : List UInt8) : Bool := decide (id ≠ []) && ids.contains id

namespace ToolServer

/-- Nothing is written without a text, or without replay. -/
def mapless (s : ToolServer) (text : List UInt8) : Bool := s.disableExactDsmlToolReplay || decide (cString text = [])

/-- `kv_tool_map_serialized_size`; none inside for a map that is too large. -/
def kvToolMapSerializedSize (s : ToolServer) (text : List UInt8) : Option (ToolServer × Option Nat) :=
  if s.mapless text then some (s, some 0)
  else
    (kvToolMapMeasure s.toolMem text).map fun out => ({ s with toolMem := out.1 }, out.2.map Prod.snd)

/-- `kv_tool_map_write` to a disk with so much room: the bytes it puts into the file, and how many it says there are;
none inside where it fails. -/
def kvToolMapWrite (s : ToolServer) (room : Nat) (text : List UInt8) :
    Option (ToolServer × Option (List UInt8 × Nat)) :=
  if s.mapless text then some (s, some ([], 0))
  else
    (kvToolMapMeasure s.toolMem text).bind fun measured =>
      match measured.2 with
      | none => some ({ s with toolMem := measured.1 }, none)
      | some (count, size) =>
        if count = 0 then some ({ s with toolMem := measured.1 }, some ([], 0))
        else
          let m := { measured.1 with scanClock := measured.1.scanClock + 1 }
          let header := kvToolMapMagic ++ word32.enc (UInt32.ofNat count)
          -- the scan has its number by then
          if room < header.length then some ({ s with toolMem := m }, none)
          else
            (scanBlocks (writeEntry room) m.scanClock (toolBlocks text) m header).map fun out =>
              ({ s with toolMem := out.1 }, out.2.map fun file => (file, size))

/-! ## The way back -/

/-- The entries of a file, as many as the header says, up to one that is not well formed: the server behind them, and
how many were taken. -/
def loadEntries (wanted : Option (List (List UInt8))) : Nat → ToolServer → List UInt8 → Option (ToolServer × Nat)
  | 0, s, _ => some (s, 0)
  | count + 1, s, file =>
    if file.length < entryLengths.size then some (s, 0)
    else
      let lengths := entryLengths.dec (file.take entryLengths.size)
      let idLen := lengths.1.toNat
      let dsmlLen := lengths.2.toNat
      if idLen = 0 ∨ idLen > 256 ∨ dsmlLen = 0 ∨ dsmlLen > toolMemoryMaxBytesDefault then some (s, 0)
      else
        let body := file.drop entryLengths.size
        let id := cString (body.take idLen)
        let dsml := cString ((body.drop idLen).take dsmlLen)
        if body.length < idLen + dsmlLen then some (s, 0)
        else if wanted.all fun ids => idListContains ids id then
          (s.putSource id dsml .disk).bind fun s =>
            (loadEntries wanted count s (body.drop (idLen + dsmlLen))).map fun out => (out.1, out.2 + 1)
        else loadEntries wanted count s (body.drop (idLen + dsmlLen))

/-- `kv_tool_map_load_from_pos`. -/
def kvToolMapLoadFromPos (s : ToolServer) (file : List UInt8) (wanted : Option (List (List UInt8))) :
    Option (ToolServer × Nat) :=
  if s.disableExactDsmlToolReplay then some (s, 0)
  else if file.length < kvToolMapHeader then some (s, 0)
  else if file.take 4 ≠ kvToolMapMagic then some (s, 0)
  else
    let count := (word32.dec ((file.drop 4).take 4)).toNat
    if (count : Int) > s.toolMem.limitEntries * 4 then some (s, 0)
    else loadEntries wanted count s (file.drop kvToolMapHeader)

end ToolServer

end Spark.Server
