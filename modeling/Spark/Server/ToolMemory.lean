import Spark.Lib.LinkedList
import Spark.Rax.Tree

/-!
# The tool memory

A tool call comes back from the client as JSON, and writing it out again gives other bytes than the
model sampled. The server keeps the sampled text of every tool call under the random id it gave the
call (`server.c`, `tool_memory_*`), and puts it back when a request carries the id again.

Entries and blocks are cells under addresses, with one table for each link field of the entries
(`prev` and `next` in `lru`, `block_next` in `blockNext`). The two indexes are the radix trees of
`Spark.Rax`; one that is not made yet is an empty one. `none` as an outcome stands for a read through a
dead pointer, for `die`, for a loop that runs longer than there are cells, and for a `raxRemove` that
writes behind the letters of a node. Allocation succeeds.
-/

namespace Spark.Server

open LinkedList

inductive ToolMemorySource where
  | ram
  | disk
  deriving DecidableEq, Repr

/-- `tool_memory_block`. -/
structure ToolMemoryBlock where
  dsml : List UInt8
  len : Nat
  bytes : Nat
  refs : Int
  seen : UInt64
  entries : Option Nat

/-- `tool_memory_entry`, less its links. -/
structure ToolMemoryEntry where
  id : List UInt8
  block : Nat
  bytes : Nat
  stamp : UInt64
  source : ToolMemorySource

structure ToolMemory where
  byId : Rax.Tree Nat
  byBlock : Rax.Tree Nat
  entryAt : Nat → Option ToolMemoryEntry
  blockAt : Nat → Option ToolMemoryBlock
  /-- `head`, `tail`, and the `prev` and `next` of every entry -/
  lru : Links Nat
  blockNext : Nat → Option Nat
  /-- the next address an allocation returns -/
  fresh : Nat
  entries : Int
  maxEntries : Int
  bytes : Nat
  maxBytes : Nat
  clock : UInt64
  scanClock : UInt64

/-- The zeroed struct, with the configured limits. -/
def ToolMemory.empty (maxEntries : Int) (maxBytes : Nat) : ToolMemory where
  byId := Rax.raxNew
  byBlock := Rax.raxNew
  entryAt := fun _ => none
  blockAt := fun _ => none
  lru := Links.empty
  blockNext := fun _ => none
  fresh := 0
  entries := 0
  maxEntries := maxEntries
  bytes := 0
  maxBytes := maxBytes
  clock := 0
  scanClock := 0

/-- `sizeof(tool_memory_block)` and `sizeof(tool_memory_entry)`, with 64-bit pointers. -/
def sizeofToolMemoryBlock : Nat := 48
def sizeofToolMemoryEntry : Nat := 64

def toolMemoryDefaultMaxIds : Int := 100000
def toolMemoryMaxBytesDefault : Nat := 512 * 1024 * 1024

namespace ToolMemory

/-- `tool_memory_max_entries`. -/
def limitEntries (m : ToolMemory) : Int :=
  if m.maxEntries > 0 then m.maxEntries else toolMemoryDefaultMaxIds

/-- `tool_memory_max_bytes`. -/
def limitBytes (m : ToolMemory) : Nat :=
  if m.maxBytes > 0 then m.maxBytes else toolMemoryMaxBytesDefault

def setEntry (m : ToolMemory) (e : Nat) (x : Option ToolMemoryEntry) : ToolMemory :=
  { m with entryAt := Function.update m.entryAt e x }

def setBlock (m : ToolMemory) (p : Nat) (b : Option ToolMemoryBlock) : ToolMemory :=
  { m with blockAt := Function.update m.blockAt p b }

/-- `tool_memory_touch`. -/
def touch (m : ToolMemory) (e : Nat) : Option ToolMemory := do
  let x ← m.entryAt e
  let m := { m with clock := m.clock + 1 }.setEntry e (some { x with stamp := m.clock + 1 })
  if m.lru.head = some e then
    some m
  else
    some { m with lru := (m.lru.unlink e).linkHead e }

/-- `tool_block_unlink_entry`. -/
def blockUnlinkEntry (m : ToolMemory) (p e : Nat) : Option ToolMemory := do
  let b ← m.blockAt p
  let c ← Chained.unlink e m.fresh none ⟨b.entries, m.blockNext⟩
  some ({ m with blockNext := c.next }.setBlock p (some { b with entries := c.start }))

/-- `tool_memory_find_block_locked`. -/
def findBlock (m : ToolMemory) (dsml : List UInt8) : Option Nat :=
  if dsml = [] then none else Rax.raxFind m.byBlock dsml

/-- `tool_memory_get_block_locked`. -/
def getBlock (m : ToolMemory) (dsml : List UInt8) : Option (ToolMemory × Nat) :=
  match m.findBlock dsml with
  | some p => some (m, p)
  | none =>
    let p := m.fresh
    let b : ToolMemoryBlock :=
      { dsml := dsml, len := dsml.length, bytes := dsml.length + 1 + sizeofToolMemoryBlock,
        refs := 0, seen := 0, entries := none }
    let inserted := Rax.raxInsert m.byBlock b.dsml p
    if inserted.2.2 then
      some ({ m with byBlock := inserted.1, bytes := m.bytes + b.bytes, fresh := p + 1 }.setBlock p (some b), p)
    else
      none

/-- `tool_memory_release_block_locked`: the bytes stop at zero, as `Nat` subtraction does. -/
def releaseBlock (m : ToolMemory) (p : Nat) : Option ToolMemory := do
  let b ← m.blockAt p
  let b := { b with refs := b.refs - 1 }
  if b.refs > 0 then
    some (m.setBlock p (some b))
  else do
    let removed ← Rax.raxRemove m.byBlock b.dsml
    some ({ m with byBlock := removed.1, bytes := m.bytes - b.bytes }.setBlock p none)

/-- `tool_memory_remove_entry_locked`. -/
def removeEntry (m : ToolMemory) (e : Nat) : Option ToolMemory := do
  let x ← m.entryAt e
  let removed ← Rax.raxRemove m.byId x.id
  let m := { m with byId := removed.1, lru := m.lru.unlink e }
  let m ← m.blockUnlinkEntry x.block e
  let m := { m with bytes := m.bytes - x.bytes,
                    entries := if m.entries > 0 then m.entries - 1 else m.entries }
  let m ← m.releaseBlock x.block
  some (m.setEntry e none)

def overLimits (m : ToolMemory) : Bool :=
  decide (m.entries > m.limitEntries) || decide (m.bytes > m.limitBytes)

/-- The loop of `tool_memory_prune_locked`. -/
def pruneLoop : Nat → ToolMemory → Option ToolMemory
  | 0, _ => none
  | fuel + 1, m =>
    match m.overLimits, m.lru.tail with
    | true, some e => (m.removeEntry e).bind (pruneLoop fuel)
    | _, _ => some m

/-- `tool_memory_prune_locked`; each turn frees a cell. -/
def prune (m : ToolMemory) : Option ToolMemory := pruneLoop (m.fresh + 1) m

/-- `tool_memory_find_entry_locked`. -/
def findEntry (m : ToolMemory) (id : List UInt8) : Option Nat :=
  if id = [] then none else Rax.raxFind m.byId id

/-- `tool_memory_put_locked` from `tool_memory_get_block_locked` on. -/
def insertEntry (m : ToolMemory) (id dsml : List UInt8) (source : ToolMemorySource) :
    Option ToolMemory := do
  let (m, p) ← m.getBlock dsml
  let b ← m.blockAt p
  let e := m.fresh
  let x : ToolMemoryEntry :=
    { id := id, block := p, bytes := id.length + 1 + sizeofToolMemoryEntry, stamp := m.clock + 1,
      source := source }
  let m := { m with clock := m.clock + 1, fresh := e + 1,
                    blockNext := Function.update m.blockNext e b.entries }
  let m := (m.setEntry e (some x)).setBlock p (some { b with entries := some e, refs := b.refs + 1 })
  let inserted := Rax.raxInsert m.byId x.id e
  if inserted.2.2 then
    prune { m with byId := inserted.1, lru := m.lru.linkHead e, entries := m.entries + 1,
                   bytes := m.bytes + x.bytes }
  else
    none

/-- `tool_memory_put_locked`. -/
def put (m : ToolMemory) (id dsml : List UInt8) (source : ToolMemorySource) : Option ToolMemory :=
  if id = [] ∨ dsml = [] then
    some m
  else
    match m.findEntry id with
    | none => m.insertEntry id dsml source
    | some old => do
      let x ← m.entryAt old
      let b ← m.blockAt x.block
      if b.len = dsml.length ∧ b.dsml = dsml then
        let m := if source = .ram then m.setEntry old (some { x with source := .ram }) else m
        (← m.touch old).prune
      else
        (← m.removeEntry old).insertEntry id dsml source

/-- `tool_memory_lookup_locked`: the text, the source and the block. -/
def lookup (m : ToolMemory) (id : List UInt8) :
    Option (ToolMemory × Option (List UInt8 × ToolMemorySource × Nat)) :=
  match m.findEntry id with
  | none => some (m, none)
  | some e => do
    let x ← m.entryAt e
    let b ← m.blockAt x.block
    let m ← m.touch e
    some (m, some (b.dsml, x.source, x.block))

end ToolMemory

/-! ## The server's calls -/

/-- The fields of the server that the tool memory's callers read. -/
structure ToolServer where
  toolMem : ToolMemory
  disableExactDsmlToolReplay : Bool

/-- The tool calls of a message: their ids, and the text they were sampled as, if it is known. -/
structure MessageCalls where
  ids : List (List UInt8)
  rawToolText : Option (List UInt8)
  deriving DecidableEq, Repr

/-- `tool_replay_stats`. -/
structure ToolReplayStats where
  mem : Nat
  disk : Nat
  canonical : Nat
  missingIds : Nat
  deriving DecidableEq, Repr

namespace ToolServer

/-- `tool_memory_has_id`. -/
def hasId (s : ToolServer) (id : List UInt8) : Bool := (s.toolMem.findEntry id).isSome

/-- The loop of `tool_memory_remember`. -/
def putAll (m : ToolMemory) (raw : List UInt8) : List (List UInt8) → Option ToolMemory
  | [] => some m
  | id :: ids => (m.put id raw .ram).bind fun m => putAll m raw ids

/-- `tool_memory_remember`. -/
def remember (s : ToolServer) (calls : MessageCalls) : Option ToolServer :=
  if s.disableExactDsmlToolReplay then
    some s
  else
    match calls.rawToolText with
    | none => some s
    | some raw =>
      if raw = [] then some s
      else (putAll s.toolMem raw calls.ids).map fun m => { s with toolMem := m }

/-- `tool_memory_put_source`. -/
def putSource (s : ToolServer) (id dsml : List UInt8) (source : ToolMemorySource) : Option ToolServer :=
  if s.disableExactDsmlToolReplay ∨ id = [] ∨ dsml = [] then
    some s
  else
    (s.toolMem.put id dsml source).map fun m => { s with toolMem := m }

/-- What the loop over the calls of one message carries. -/
structure Matching where
  matched : Option Nat
  matchedSource : ToolMemorySource
  exact : Bool
  missing : Nat

/-- The loop over the calls of one message in `tool_memory_attach_to_messages`. -/
def matchCalls : List (List UInt8) → ToolMemory → Matching → Option (ToolMemory × Matching)
  | [], m, a => some (m, a)
  | id :: ids, m, a => do
    let (m, found) ← m.lookup id
    match found with
    | none => matchCalls ids m { a with exact := false, missing := a.missing + 1 }
    | some (_, source, block) =>
      let a :=
        match a.matched with
        | none => { a with matched := some block, matchedSource := source }
        | some p => if p ≠ block then { a with exact := false } else a
      let a := if source = .ram then { a with matchedSource := .ram } else a
      matchCalls ids m a

/-- What a message's loop leaves behind: the text, when all its calls came from one block. -/
def attachCalls (m : ToolMemory) (calls : MessageCalls) (stats : ToolReplayStats) :
    Option (ToolMemory × MessageCalls × ToolReplayStats) := do
  if calls.ids = [] ∨ calls.rawToolText.isSome then
    some (m, calls, stats)
  else
    let (m, a) ← matchCalls calls.ids m ⟨none, .disk, true, 0⟩
    match a.exact, a.matched with
    | true, some p =>
      let b ← m.blockAt p
      let stats :=
        if a.matchedSource = .ram then { stats with mem := stats.mem + 1 }
        else { stats with disk := stats.disk + 1 }
      some (m, { calls with rawToolText := some b.dsml }, stats)
    | _, _ =>
      some (m, calls, { stats with canonical := stats.canonical + 1,
                                   missingIds := stats.missingIds + a.missing })

/-- The loop over the messages. -/
def attachLoop : List MessageCalls → ToolMemory → ToolReplayStats →
    Option (ToolMemory × List MessageCalls × ToolReplayStats)
  | [], m, stats => some (m, [], stats)
  | calls :: rest, m, stats => do
    let (m, calls, stats) ← attachCalls m calls stats
    let (m, rest, stats) ← attachLoop rest m stats
    some (m, calls :: rest, stats)

/-- The counts of a server that does not replay. -/
def countCanonical (msgs : List MessageCalls) (stats : ToolReplayStats) : ToolReplayStats :=
  msgs.foldl (fun stats calls =>
    if calls.ids = [] ∨ calls.rawToolText.isSome then stats
    else { stats with canonical := stats.canonical + 1,
                      missingIds := stats.missingIds + calls.ids.length }) stats

/-- `tool_memory_attach_to_messages`. -/
def attachToMessages (s : ToolServer) (msgs : List MessageCalls) (stats : ToolReplayStats) :
    Option (ToolServer × List MessageCalls × ToolReplayStats) :=
  if s.disableExactDsmlToolReplay then
    some (s, msgs, countCanonical msgs stats)
  else do
    let (m, msgs, stats) ← attachLoop msgs s.toolMem stats
    some ({ s with toolMem := m }, msgs, stats)

end ToolServer

end Spark.Server
