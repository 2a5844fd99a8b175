import Mathlib.Logic.Function.Basic
import Spark.Ple.Index
import Spark.Uring.Parallel

/-!
# The fixed-slab PLE page cache

`FixedPleCache` of `storage.rs`: pages of the shard files live in the slots of one
caller-owned slab, a clock hand picks victims, and `fetch_rows` returns row fragments that
point into the slab. The model threads the cache explicitly and keeps it on the error paths
too, because a failed call has already marked, evicted and zeroed.

A batch is read by the ring reader or by the parallel one, on the slab and the ring that the
calls before have left. What the kernel does is given to each call as `ReadAnswers`.
-/

namespace Spark.Ple

open Spark.Uring

structure PageKey where
  shard : Nat
  byteOffset : Nat
  deriving DecidableEq, Repr

/-- `StoreError`, as far as the fixed cache raises it. -/
inductive StoreError where
  | index (error : PleIndexError)
  | io (error : IoError)
  | invalidCache
  | invalidPageSource
  | pageSizeMismatch
  | integerOverflow
  | shardOutOfRange (shard : Nat)
  | pageOutOfRange (key : PageKey)
  | sourceTruncated (path : String)
  | batchExceedsCache (pages capacity : Nat)
  deriving DecidableEq, Repr

structure FixedPageSlice where
  bufferOffset : Nat
  bytes : Nat
  deriving DecidableEq, Repr

structure FixedPleRow where
  first : FixedPageSlice
  second : Option FixedPageSlice
  deriving DecidableEq, Repr

structure FixedCacheSlot where
  key : Option PageKey
  referenced : Bool
  deriving DecidableEq, Repr

inductive FixedReadPolicy where
  | uring
  | hybrid (parallelThresholdPages parallelWorkers : Nat)
  deriving DecidableEq, Repr

structure CacheStats where
  pageHits : Nat := 0
  pageMisses : Nat := 0
  pageReads : Nat := 0
  bytesRead : Nat := 0
  evictions : Nat := 0
  uringPageReads : Nat := 0
  parallelPreadPageReads : Nat := 0
  deriving DecidableEq, Repr

/-- The slab lent to the cache. A slice never exceeds `isize::MAX` bytes. -/
structure Slab where
  bytes : Mem UInt8
  len : Nat
  len_lt : len < 2 ^ 63

/-- `FixedPleCache`. The recorded `file_sizes` are the sizes of `files`, whose contents do
not change. -/
structure FixedPleCache where
  files : List OpenFile
  pageBytes : Nat
  slots : List FixedCacheSlot
  index : PageKey → Option Nat
  hand : Nat
  config : ReaderConfig
  reader : Reader
  readPolicy : FixedReadPolicy
  stats : CacheStats

/-- What the kernel does during one call and since the call before: its steps before anything is
read, its answers to the batches of the ring, and to the threads of a parallel read. -/
structure ReadAnswers where
  before : List KernelStep
  batches : Nat → BatchAnswers
  schedule : Nat → Nat × Except Int Nat

/-! ## Opening the cache -/

/-- One round of the loop of `open_with_device_base` over the shard table: open the file and
check that the tensor lies inside it. -/
def openShard (modelRoot : String → Except IoError OpenFile) (shard : PleShard) :
    Except StoreError OpenFile :=
  match modelRoot shard.relativePath with
  | .error e => .error (.io e)
  | .ok file =>
    match Word.checkedAdd 64 shard.dataOffset shard.dataBytes with
    | none => .error .integerOverflow
    | some tensorEnd =>
      if tensorEnd > file.size then .error (.sourceTruncated shard.relativePath) else .ok file

def FixedReadPolicy.invalid : FixedReadPolicy → Bool
  | .uring => false
  | .hybrid threshold workers => threshold == 0 || workers == 0

def FixedReadPolicy.workers : FixedReadPolicy → Nat
  | .uring => 0
  | .hybrid _ workers => workers

/-- `FixedBufferReader::new`; `ring` is what the kernel answers to the creation of the ring and the
registration of the slab. -/
def fixedBufferReaderNew (bufferLen queueDepth maxBatch : Nat) (ring : Except Int Unit) :
    Except IoError ReaderConfig :=
  if h : bufferLen = 0 ∨ queueDepth = 0 ∨ maxBatch = 0 then
    .error (.invalidInput "fixed buffer, queue depth, and max batch must be non-zero")
  else if queueDepth > 2 ^ 32 - 1 then .error (.invalidInput "queue depth exceeds u32")
  else
    match ring with
    | .error code => .error (.rawOs code)
    | .ok () => .ok ⟨bufferLen, queueDepth, maxBatch, by omega⟩

/-- `FixedPleCache::open_with_device_base`. -/
def FixedPleCache.openWithDeviceBase (index : PleIndex)
    (modelRoot : String → Except IoError OpenFile) (slab : Slab) (queueDepth : Nat)
    (ring : Except Int Unit) (readPolicy : FixedReadPolicy) : Except StoreError FixedPleCache :=
  if index.pageBytes = 0 ∨ ¬ index.pageBytes.isPowerOfTwo ∨ slab.len = 0 ∨
      slab.len % index.pageBytes ≠ 0 then
    .error .invalidCache
  else if readPolicy.invalid then .error .invalidCache
  else
    match index.shards.mapM (openShard modelRoot) with
    | .error e => .error e
    | .ok files =>
      match fixedBufferReaderNew slab.len queueDepth (slab.len / index.pageBytes) ring with
      | .error e => .error (.io e)
      | .ok config =>
        .ok { files, pageBytes := index.pageBytes
              slots := List.replicate (slab.len / index.pageBytes) ⟨none, false⟩
              index := fun _ => none, hand := 0, config, reader := ⟨.idle, slab.bytes, []⟩
              readPolicy, stats := {} }

namespace FixedPleCache

/-- The slab. -/
def buffer (cache : FixedPleCache) : Mem UInt8 := cache.reader.slab

/-! ## Reserving slots -/

/-- `self.slots[slot]`. -/
def slotAt (cache : FixedPleCache) (slot : Nat) : FixedCacheSlot :=
  cache.slots.getD slot ⟨none, false⟩

def setReferenced (cache : FixedPleCache) (slot : Nat) (referenced : Bool) : FixedPleCache :=
  { cache with slots := cache.slots.modify slot fun state => { state with referenced } }

/-- The first slot that is vacant and not yet reserved by this batch. -/
def vacantSlot (cache : FixedPleCache) (selected : List Nat) : Option Nat :=
  (List.range cache.slots.length).find? fun slot =>
    (cache.slotAt slot).key.isNone && !selected.contains slot

/-- The slot cannot be a victim: it is reserved already or holds a page of the request. -/
def pinned (cache : FixedPleCache) (protectedKeys : List PageKey) (selected : List Nat)
    (slot : Nat) : Bool :=
  selected.contains slot ||
    match (cache.slotAt slot).key with
    | some key => protectedKeys.contains key
    | none => false

/-- The clock scan of `reserve_fixed_slot`, for at most `limit` steps of the hand. -/
def clockScan (protectedKeys : List PageKey) (selected : List Nat) :
    (limit : Nat) → FixedPleCache → FixedPleCache × Option Nat
  | 0, cache => (cache, none)
  | limit + 1, cache =>
    let slot := cache.hand
    let moved := { cache with hand := (cache.hand + 1) % cache.slots.length }
    if moved.pinned protectedKeys selected slot then clockScan protectedKeys selected limit moved
    else if (moved.slotAt slot).referenced then
      clockScan protectedKeys selected limit (moved.setReferenced slot false)
    else (moved, some slot)

/-- `reserve_fixed_slot`. -/
def reserveFixedSlot (cache : FixedPleCache) (protectedKeys : List PageKey)
    (selected : List Nat) : FixedPleCache × Except StoreError Nat :=
  match cache.vacantSlot selected with
  | some slot => (cache, .ok slot)
  | none =>
    match (Word.checkedMul 64 cache.slots.length 2).bind (Word.checkedAdd 64 · 1) with
    | none => (cache, .error .integerOverflow)
    | some scanLimit =>
      match clockScan protectedKeys selected scanLimit cache with
      | (cache, some slot) => (cache, .ok slot)
      | (cache, none) =>
        (cache, .error (.batchExceedsCache protectedKeys.length cache.slots.length))

/-- Take the victim's key out of a reserved slot and out of the index. -/
def vacate (cache : FixedPleCache) (slot : Nat) : FixedPleCache :=
  let cleared := { cache with slots := cache.slots.set slot ⟨none, false⟩ }
  match (cache.slotAt slot).key with
  | some victim =>
    { cleared with
      index := Function.update cache.index victim none
      stats := { cache.stats with evictions := Word.saturatingAdd 64 cache.stats.evictions 1 } }
  | none => cleared

/-- The reservation loop of `ensure_fixed_pages`: one slot per missing key. -/
def reserveAll (protectedKeys : List PageKey) :
    (misses : List PageKey) → (selected : List Nat) → FixedPleCache →
      FixedPleCache × Except StoreError (List (PageKey × Nat))
  | [], _, cache => (cache, .ok [])
  | key :: misses, selected, cache =>
    match cache.reserveFixedSlot protectedKeys selected with
    | (cache, .error e) => (cache, .error e)
    | (cache, .ok slot) =>
      match reserveAll protectedKeys misses (slot :: selected) (cache.vacate slot) with
      | (cache, .error e) => (cache, .error e)
      | (cache, .ok destinations) => (cache, .ok ((key, slot) :: destinations))

/-! ## Loading pages -/

/-- The hit loop of `ensure_fixed_pages`: mark resident pages, collect the missing ones. -/
def markHits : List PageKey → FixedPleCache → FixedPleCache × List PageKey
  | [], cache => (cache, [])
  | key :: keys, cache =>
    match cache.index key with
    | some slot =>
      let stats :=
        { cache.stats with pageHits := Word.saturatingAdd 64 cache.stats.pageHits 1 }
      markHits keys { cache.setReferenced slot true with stats }
    | none =>
      let stats :=
        { cache.stats with pageMisses := Word.saturatingAdd 64 cache.stats.pageMisses 1 }
      let (cache, misses) := markHits keys { cache with stats }
      (cache, key :: misses)

def zeroFill (cache : FixedPleCache) (destinations : List (PageKey × Nat)) : FixedPleCache :=
  { cache with
    reader := { cache.reader with
      slab := destinations.foldl
        (fun buffer destination =>
          buffer.fill (destination.2 * cache.pageBytes) cache.pageBytes 0) cache.buffer } }

/-- The read of one missing page: up to `page_bytes`, cut at end of file. -/
def pageRead (cache : FixedPleCache) (destination : PageKey × Nat) :
    Except StoreError FixedRead :=
  match cache.files[destination.1.shard]? with
  | none => .error (.shardOutOfRange destination.1.shard)
  | some file =>
    if destination.1.byteOffset ≥ file.size then .error (.pageOutOfRange destination.1)
    else .ok
      { file
        fileOffset := destination.1.byteOffset
        bufferOffset := destination.2 * cache.pageBytes
        bytes := min (file.size - destination.1.byteOffset) cache.pageBytes }

/-- Make the loaded pages visible. -/
def publish (cache : FixedPleCache) (destinations : List (PageKey × Nat)) : FixedPleCache :=
  destinations.foldl
    (fun cache destination =>
      { cache with
        slots := cache.slots.set destination.2 ⟨some destination.1, true⟩
        index := Function.update cache.index destination.1 (some destination.2) })
    cache

def parallelRead (policy : FixedReadPolicy) (operations : Nat) : Bool :=
  match policy with
  | .uring => false
  | .hybrid threshold _ => decide (operations ≥ threshold)

/-- The read of a batch. The parallel reader works on the slab alone and leaves the ring as it is. -/
def readPages (cache : FixedPleCache) (reads : List FixedRead) (answers : ReadAnswers) :
    FixedPleCache × Except IoError FixedReadStats :=
  if parallelRead cache.readPolicy reads.length then
    let read :=
      readParallel cache.config reads cache.readPolicy.workers answers.schedule cache.buffer
    ({ cache with reader := { cache.reader with slab := read.1 } }, read.2)
  else
    let read := Uring.read cache.config 0 reads answers.batches cache.reader
    ({ cache with reader := read.1 }, read.2)

/-- The counters after a successful batch, charged to the path that read it. -/
def countReads (cache : FixedPleCache) (parallel : Bool) (read : FixedReadStats) : FixedPleCache :=
  let stats := cache.stats
  let stats := { stats with pageReads := Word.saturatingAdd 64 stats.pageReads read.operations }
  let stats :=
    if parallel then
      { stats with
        parallelPreadPageReads := Word.saturatingAdd 64 stats.parallelPreadPageReads read.operations }
    else
      { stats with uringPageReads := Word.saturatingAdd 64 stats.uringPageReads read.operations }
  { cache with stats := { stats with bytesRead := Word.saturatingAdd 64 stats.bytesRead read.bytes } }

/-- The read, publish and count phase of `ensure_fixed_pages`, after slots are reserved. -/
def loadPages (cache : FixedPleCache) (destinations : List (PageKey × Nat))
    (answers : ReadAnswers) : FixedPleCache × Except StoreError Unit :=
  let cache := cache.zeroFill destinations
  match destinations.mapM cache.pageRead with
  | .error e => (cache, .error e)
  | .ok reads =>
    match cache.readPages reads answers with
    | (cache, .error error) =>
      -- partial DMA writes: the slots stay invalid and absent from the index
      (cache, .error (.io error))
    | (cache, .ok stats) =>
      ((cache.publish destinations).countReads (parallelRead cache.readPolicy reads.length) stats,
        .ok ())

/-- `ensure_fixed_pages`; `protected` is the set of the requested keys themselves. -/
def ensureFixedPages (cache : FixedPleCache) (keys : List PageKey) (answers : ReadAnswers) :
    FixedPleCache × Except StoreError Unit :=
  match markHits keys cache with
  | (cache, []) => (cache, .ok ())
  | (cache, misses) =>
    match reserveAll keys misses [] cache with
    | (cache, .error e) => (cache, .error e)
    | (cache, .ok destinations) => cache.loadPages destinations answers

/-! ## Fetching rows -/

/-- `address.byte_offset & !(page_bytes - 1)`. -/
def pageOffset (pageBytes : Nat) (address : RowAddress) : Nat :=
  Word.alignDown 64 address.byteOffset pageBytes

def firstKey (pageBytes : Nat) (address : RowAddress) : PageKey :=
  ⟨address.shard, pageOffset pageBytes address⟩

def secondKey (pageBytes : Nat) (address : RowAddress) : PageKey :=
  ⟨address.shard, Word.wrappingAdd 64 (pageOffset pageBytes address) pageBytes⟩

/-- The row runs past the end of its first page. -/
def crossesPage (pageBytes : Nat) (address : RowAddress) : Bool :=
  decide (Word.wrappingAdd 64 address.byteOffset address.byteLen >
    Word.wrappingAdd 64 (pageOffset pageBytes address) pageBytes)

/-- `if unique.insert(key) { keys.push(key) }`: `keys` lists the members of `unique` in the
order they were first inserted. -/
def insertUnique (keys : List PageKey) (key : PageKey) : List PageKey :=
  if keys.contains key then keys else keys ++ [key]

/-- The pages of one row, added to the request. -/
def addRowKeys (pageBytes : Nat) (keys : List PageKey) (address : RowAddress) : List PageKey :=
  let keys := insertUnique keys (firstKey pageBytes address)
  if crossesPage pageBytes address then insertUnique keys (secondKey pageBytes address) else keys

/-- The fragment of one row: a slice of its first page and, when the row is split, a slice of
the next. -/
def fragment (cache : FixedPleCache) (rowBytes : Nat) (address : RowAddress) :
    Except StoreError FixedPleRow :=
  let offset := pageOffset cache.pageBytes address
  let within := address.byteOffset - offset
  match cache.index (firstKey cache.pageBytes address) with
  | none => .error .invalidPageSource
  | some firstSlot =>
    let firstBytes := min rowBytes (cache.pageBytes - within)
    let first := ⟨firstSlot * cache.pageBytes + within, firstBytes⟩
    if firstBytes < rowBytes then
      match cache.index (secondKey cache.pageBytes address) with
      | none => .error .invalidPageSource
      | some secondSlot =>
        .ok ⟨first, some ⟨secondSlot * cache.pageBytes, rowBytes - firstBytes⟩⟩
    else .ok ⟨first, none⟩

/-- The cache after some steps of the kernel. -/
def kernelSteps (cache : FixedPleCache) (steps : List KernelStep) : FixedPleCache :=
  { cache with reader := cache.reader.kernelSteps steps }

/-- `fetch_rows`, on the cache as the kernel has left it. -/
def fetchRows (cache : FixedPleCache) (index : PleIndex) (rows : List Nat)
    (answers : ReadAnswers) : FixedPleCache × Except StoreError (List FixedPleRow) :=
  let cache := cache.kernelSteps answers.before
  if index.pageBytes ≠ cache.pageBytes then (cache, .error .pageSizeMismatch)
  else
    match rows.mapM index.address with
    | .error e => (cache, .error (.index e))
    | .ok addresses =>
      let keys := addresses.foldl (addRowKeys cache.pageBytes) []
      if keys.length > cache.slots.length then
        (cache, .error (.batchExceedsCache keys.length cache.slots.length))
      else
        match cache.ensureFixedPages keys answers with
        | (cache, .error e) => (cache, .error e)
        | (cache, .ok ()) => (cache, addresses.mapM (cache.fragment index.rowBytes))

/-- The bytes one row's fragments point at. -/
def rowBytesAt (buffer : Mem UInt8) (row : FixedPleRow) : List UInt8 :=
  buffer.slice row.first.bufferOffset row.first.bytes ++
    match row.second with
    | some second => buffer.slice second.bufferOffset second.bytes
    | none => []

/-- `FixedPleBatch::materialize`. -/
def materialize (cache : FixedPleCache) (rows : List FixedPleRow) : List UInt8 :=
  rows.flatMap (rowBytesAt cache.buffer)

end FixedPleCache

/-! ## Runs -/

/-- One call of `fetch_rows` on the cache, with what the kernel does. -/
structure FetchCall where
  index : PleIndex
  rows : List Nat
  answers : ReadAnswers

/-- The cache after a sequence of calls, successful or not. -/
def FixedPleCache.run (cache : FixedPleCache) (calls : List FetchCall) : FixedPleCache :=
  calls.foldl (fun cache call => (cache.fetchRows call.index call.rows call.answers).1) cache

end Spark.Ple
