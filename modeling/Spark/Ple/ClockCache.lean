import Spark.Lib.Outcome
import Spark.Ple.RowPages

/-!
# The clock page cache

`ClockPageCache` of `storage.rs`: pages in slots of their own, filled one after the other until the capacity is
reached and then by the hand of a clock. A batch marks its hits, reads its missing pages from the source in one go,
and inserts them one by one; then the bytes of the rows are copied out of the slots.

A failed call keeps what it has done to the cache. The loop of `insert` has no bound in the source. Here it is given
a number of rounds, and a call that used them up `diverges`.
-/

namespace Spark.Ple

open Spark.Uring Spark.Outcome

structure CacheSlot where
  key : PageKey
  page : List UInt8
  referenced : Bool
  deriving DecidableEq, Repr

structure ClockPageCache where
  pageBytes : Nat
  capacityPages : Nat
  slots : List CacheSlot
  index : PageKey → Option Nat
  hand : Nat
  stats : CacheStats

/-- How a call ends that neither returns nor panics. -/
inductive ClockStop where
  | store (error : StoreError)
  | diverges
  deriving DecidableEq, Repr

abbrev ClockFault := Outcome.Fault ClockStop

/-- `PageSource::read_pages`, the answer to one call. -/
abbrev PageSource := List PageKey → (pageBytes : Nat) → Except StoreError (List (List UInt8))

def storeError (error : StoreError) : ClockFault := .error (.store error)

namespace ClockPageCache

/-- `ClockPageCache::new`. -/
def new (pageBytes capacityPages : Nat) : Except StoreError ClockPageCache :=
  if pageBytes = 0 ∨ ¬ pageBytes.isPowerOfTwo ∨ capacityPages = 0 then .error .invalidCache
  else .ok { pageBytes, capacityPages, slots := [], index := fun _ => none, hand := 0, stats := {} }

/-! ## Inserting pages -/

/-- The `loop` of `insert`, for at most `fuel` rounds. -/
def insertLoop (key : PageKey) (page : List UInt8) : (fuel : Nat) → ClockPageCache → Except ClockFault ClockPageCache
  | 0, _ => .error (.error .diverges)
  | fuel + 1, cache => do
    let slot ← readAt cache.slots cache.hand
    let hand := (cache.hand + 1) % cache.capacityPages
    if slot.referenced then
      let slots := cache.slots.set cache.hand { slot with referenced := false }
      insertLoop key page fuel { cache with slots, hand }
    else
      let victim := slot.key
      let index := Function.update cache.index victim none
      let slots := cache.slots.set cache.hand { key, page, referenced := true }
      let index := Function.update index key (some cache.hand)
      let stats := { cache.stats with evictions := Word.wrappingAdd 64 cache.stats.evictions 1 }
      .ok { cache with slots, index, hand, stats }

/-- `insert`. A round either ends the loop or clears a reference bit, so that one more than the slots is enough. -/
def insert (cache : ClockPageCache) (key : PageKey) (page : List UInt8) : Except ClockFault ClockPageCache :=
  if cache.slots.length < cache.capacityPages then
    let slot := cache.slots.length
    .ok { cache with
      slots := cache.slots ++ [{ key, page, referenced := true }]
      index := Function.update cache.index key (some slot) }
  else insertLoop key page (cache.capacityPages + 1) cache

/-- The loop of `ensure_pages` over the pages that were read. -/
def insertPages : List (PageKey × List UInt8) → ClockPageCache → ClockPageCache × Except ClockFault Unit
  | [], cache => (cache, .ok ())
  | (key, page) :: rest, cache =>
    let cache := { cache with stats.pageReads := Word.wrappingAdd 64 cache.stats.pageReads 1 }
    match Word.checkedAdd 64 cache.stats.bytesRead page.length with
    | none => (cache, .error (storeError .integerOverflow))
    | some bytesRead =>
      let cache := { cache with stats.bytesRead := bytesRead }
      match cache.insert key page with
      | .error fault => (cache, .error fault)
      | .ok cache => insertPages rest cache

/-! ## The pages of a batch -/

def setReferenced (cache : ClockPageCache) (slot : Nat) : ClockPageCache :=
  { cache with slots := cache.slots.modify slot fun state => { state with referenced := true } }

/-- The hit loop of `ensure_pages`: mark resident pages, collect the missing ones. -/
def markHits : List PageKey → ClockPageCache → ClockPageCache × List PageKey
  | [], cache => (cache, [])
  | key :: keys, cache =>
    match cache.index key with
    | some slot =>
      let cache := cache.setReferenced slot
      markHits keys { cache with stats.pageHits := Word.wrappingAdd 64 cache.stats.pageHits 1 }
    | none =>
      let (cache, misses) :=
        markHits keys { cache with stats.pageMisses := Word.wrappingAdd 64 cache.stats.pageMisses 1 }
      (cache, key :: misses)

/-- `ensure_pages`. -/
def ensurePages (cache : ClockPageCache) (keys : List PageKey) (source : PageSource) :
    ClockPageCache × Except ClockFault Unit :=
  match markHits keys cache with
  | (cache, misses) =>
    match source misses cache.pageBytes with
    | .error e => (cache, .error (storeError e))
    | .ok pages =>
      if pages.length ≠ misses.length ∨ pages.any (fun page => page.length ≠ cache.pageBytes) then
        (cache, .error (storeError .invalidPageSource))
      else insertPages (misses.zip pages) cache

/-! ## Copying the rows -/

/-- `output[start..start + bytes.len()].copy_from_slice(bytes)`. -/
def copyInto (output : List UInt8) (start : Nat) (bytes : List UInt8) : Except ClockFault (List UInt8) :=
  if start + bytes.length ≤ output.length then
    .ok (output.take start ++ bytes ++ output.drop (start + bytes.length))
  else .error .panic

/-- One round of the loop of `fetch_rows` over the addresses. -/
def copyRow (cache : ClockPageCache) (rowBytes ordinal : Nat) (address : RowAddress) (output : List UInt8) :
    Except ClockFault (List UInt8) := do
  let within := address.byteOffset - FixedPleCache.pageOffset cache.pageBytes address
  let firstSlot ← okOr (cache.index (FixedPleCache.firstKey cache.pageBytes address)) (storeError .invalidPageSource)
  let first ← readAt cache.slots firstSlot
  let firstLen := min rowBytes (cache.pageBytes - within)
  let outputStart := ordinal * rowBytes
  let bytes ← Outcome.sliceAt first.page within (within + firstLen)
  let output ← copyInto output outputStart bytes
  if firstLen < rowBytes then
    let secondSlot ←
      okOr (cache.index (FixedPleCache.secondKey cache.pageBytes address)) (storeError .invalidPageSource)
    let remaining := rowBytes - firstLen
    let second ← readAt cache.slots secondSlot
    let bytes ← Outcome.sliceAt second.page 0 remaining
    copyInto output (outputStart + firstLen) bytes
  else .ok output

/-- The copy phase of `fetch_rows`. A `Vec` of more than `isize::MAX` bytes is a panic. -/
def copyRows (cache : ClockPageCache) (rowCount rowBytes : Nat) (addresses : List RowAddress) :
    Except ClockFault (List UInt8) := do
  let outputLen ← okOr (Word.checkedMul 64 rowCount rowBytes) (storeError .integerOverflow)
  if outputLen ≥ 2 ^ 63 then .error .panic
  else forEach (copyRow cache rowBytes) addresses 0 (List.replicate outputLen 0)

/-- `fetch_rows`. -/
def fetchRows (cache : ClockPageCache) (index : PleIndex) (rows : List Nat) (source : PageSource) :
    ClockPageCache × Except ClockFault (List UInt8) :=
  if index.pageBytes ≠ cache.pageBytes then (cache, .error (storeError .pageSizeMismatch))
  else
    match rows.mapM index.address with
    | .error e => (cache, .error (storeError (.index e)))
    | .ok addresses =>
      let keys := requestKeys cache.pageBytes addresses
      if keys.length > cache.capacityPages then
        (cache, .error (storeError (.batchExceedsCache keys.length cache.capacityPages)))
      else
        match cache.ensurePages keys source with
        | (cache, .error fault) => (cache, .error fault)
        | (cache, .ok ()) => (cache, cache.copyRows rows.length index.rowBytes addresses)

end ClockPageCache

/-! ## Runs -/

/-- One call of `fetch_rows`, with what the source answers. -/
structure ClockCall where
  index : PleIndex
  rows : List Nat
  source : PageSource

/-- The cache after a sequence of calls, successful or not. -/
def ClockPageCache.run (cache : ClockPageCache) (calls : List ClockCall) : ClockPageCache :=
  calls.foldl (fun cache call => (cache.fetchRows call.index call.rows call.source).1) cache

end Spark.Ple
