import Mathlib.Data.List.Perm.Basic
import Spark.Kv.Sha1
import Spark.Lib.LittleEndian

/-!
# The disk cache of KV checkpoints

`kv_store.c` of the GLM engine over one directory: the header of a checkpoint file, which files are entries,
the eviction pass, and storing, finding, loading and touching an entry. Creating, writing, renaming and
removing a file succeed; what is logged is left out.
-/

namespace Spark.Kv

open Server

/-! ## The header -/

def kvstoreFixedHeader : Nat := 48

/-- `DS4_KVSTORE_FIXED_HEADER + 4ull`: the header and the length of the text. -/
def fixedBytes : Nat := kvstoreFixedHeader + 4

def uint64Max : Nat := 2 ^ 64 - 1

def int64Max : Nat := 2 ^ 63 - 1

def kvCacheVersion : UInt8 := 1
def kvCachePayloadAbi : UInt8 := 2

def reasonUnknown : UInt8 := 0
def reasonCold : UInt8 := 1
def reasonContinued : UInt8 := 2
def reasonEvict : UInt8 := 3
def reasonShutdown : UInt8 := 4
def reasonAgentSystem : UInt8 := 5
def reasonAgentSession : UInt8 := 6

def kvStoreReasonCode : Option String → UInt8
  | some "cold" => reasonCold
  | some "continued" => reasonContinued
  | some "evict" => reasonEvict
  | some "shutdown" => reasonShutdown
  | some "agent-system" => reasonAgentSystem
  | some "agent-session" => reasonAgentSession
  | _ => reasonUnknown

/-- What stands in front of the text of an entry. -/
@[ext] structure Header where
  quantBits : UInt8
  modelId : UInt8
  reason : UInt8
  tokens : UInt32
  hits : UInt32
  ctxSize : UInt32
  extFlags : UInt8
  createdAt : UInt64
  lastUsed : UInt64
  payloadBytes : UInt64
  textBytes : UInt32
  deriving DecidableEq, Repr

/-- `kv_store_fill_header`; the length of the text is written behind it. -/
def kvStoreFillHeader (h : Header) : List UInt8 :=
  [0x4b, 0x56, 0x43, kvCacheVersion, h.quantBits, h.reason, h.extFlags, h.modelId] ++
    (leBytes 4 h.tokens.toNat ++ (leBytes 4 h.hits.toNat ++ (leBytes 4 h.ctxSize.toNat ++
      ([kvCachePayloadAbi, 0, 0, 0] ++ (leBytes 8 h.createdAt.toNat ++ (leBytes 8 h.lastUsed.toNat ++
        leBytes 8 h.payloadBytes.toNat))))))

def leGet32 (file : List UInt8) (at' : Nat) : UInt32 := UInt32.ofNat (leNat ((file.drop at').take 4))

def leGet64 (file : List UInt8) (at' : Nat) : UInt64 := UInt64.ofNat (leNat ((file.drop at').take 8))

/-- The fields of a header, as they stand. -/
def headerAt (file : List UInt8) : Header where
  quantBits := file.getD 4 0
  reason := if file.getD 5 0 ≤ reasonAgentSession then file.getD 5 0 else reasonUnknown
  extFlags := file.getD 6 0
  modelId := file.getD 7 0
  tokens := leGet32 file 8
  hits := leGet32 file 12
  ctxSize := leGet32 file 16
  createdAt := leGet64 file 24
  lastUsed := leGet64 file 32
  payloadBytes := leGet64 file 40
  textBytes := leGet32 file 48

def kvStoreReadHeader (file : List UInt8) : Option Header :=
  if file.length < kvstoreFixedHeader then none
  else if file.take 4 ≠ [0x4b, 0x56, 0x43, kvCacheVersion] then none
  else if file.getD 20 0 ≠ kvCachePayloadAbi then none
  else if file.length < fixedBytes then none
  else if (headerAt file).tokens ≠ 0 ∧ ((headerAt file).quantBits = 2 ∨ (headerAt file).quantBits = 4) then
    some (headerAt file)
  else none

/-! ## The directory -/

/-- The files of the directory under their names. -/
structure Directory where
  files : List (List UInt8 × List UInt8)
  distinct : (files.map Prod.fst).Nodup

namespace Directory

def lookup (dir : Directory) (name : List UInt8) : Option (List UInt8) := dir.files.lookup name

def unlink (dir : Directory) (name : List UInt8) : Directory where
  files := dir.files.filter fun file => file.1 ≠ name
  distinct := dir.distinct.sublist (List.filter_sublist.map Prod.fst)

/-- A file under a name, in place of the one that was there. -/
def write (dir : Directory) (name file : List UInt8) : Directory where
  files := (name, file) :: (dir.unlink name).files
  distinct := by
    rw [List.map_cons, List.nodup_cons]
    refine ⟨fun hmem => ?_, (dir.unlink name).distinct⟩
    obtain ⟨entry, hentry, hname⟩ := List.mem_map.mp hmem
    simp [unlink, hname] at hentry

end Directory

/-- An order in which `readdir` lists the files. -/
structure Listing where
  order : List (List UInt8 × List UInt8) → List (List UInt8 × List UInt8)
  perm : ∀ files, (order files).Perm files

/-! ## Entries -/

/-- `kv_store_entry`; the path is the name in the directory. -/
structure Entry extends Header where
  sha : List UInt8
  name : List UInt8
  fileSize : Nat
  deriving DecidableEq, Repr

def isxdigit (b : UInt8) : Bool := (0x30 ≤ b && b ≤ 0x39) || (0x61 ≤ b && b ≤ 0x66) || (0x41 ≤ b && b ≤ 0x46)

def tolower (b : UInt8) : UInt8 := if 0x41 ≤ b && b ≤ 0x5a then b + 0x20 else b

def kvStoreShaHexName (name : List UInt8) : Option (List UInt8) :=
  if name.length ≠ 43 ∨ name.drop 40 ≠ bytes ".kv" then none
  else if (name.take 40).all isxdigit then some ((name.take 40).map tolower)
  else none

/-- `kv_store_path_for_sha`. -/
def kvStorePathForSha (sha : List UInt8) : List UInt8 := sha ++ bytes ".kv"

def kvStoreReadEntryFile (name sha file : List UInt8) : Option Entry :=
  if file.length < fixedBytes then none
  else
    match kvStoreReadHeader file with
    | none => none
    | some h =>
      if uint64Max - fixedBytes < h.textBytes.toNat ∨
          uint64Max - fixedBytes - h.textBytes.toNat < h.payloadBytes.toNat then none
      else if file.length < fixedBytes + h.textBytes.toNat + h.payloadBytes.toNat then none
      else some { h with sha := sha, name := name, fileSize := file.length }

/-- The entry a file of the directory is. -/
def entryOf (file : List UInt8 × List UInt8) : Option Entry :=
  (kvStoreShaHexName file.1).bind fun sha => kvStoreReadEntryFile file.1 sha file.2

structure KvStoreOptions where
  minTokens : Int
  deriving DecidableEq, Repr

/-- `kv_store`. The entries are read anew wherever they are used. -/
structure KvStore where
  enabled : Bool
  budgetBytes : Nat
  rejectDifferentQuant : Bool
  opt : KvStoreOptions
  continuedLastStoreTokens : Int
  deriving DecidableEq, Repr

def kvCacheRefresh (kc : KvStore) (listing : Listing) (dir : Directory) : List Entry :=
  if kc.enabled then (listing.order dir.files).filterMap entryOf else []

def kvStoreTouchFile (dir : Directory) (name : List UInt8) (hits : UInt32) (now : UInt64) : Bool × Directory :=
  match dir.lookup name with
  | none => (false, dir)
  | some file =>
    match kvStoreReadHeader file with
    | none => (false, dir)
    | some h =>
      (true, dir.write name (kvStoreFillHeader { h with hits := hits, lastUsed := now } ++
        file.drop kvstoreFixedHeader))

/-! ## Eviction -/

/-- `kv_store_eviction_context`: the checkpoint that is about to be stored. -/
structure EvictionContext where
  text : List UInt8
  modelId : UInt8
  quantBits : UInt8
  ctxSize : UInt32
  rejectDifferentQuant : Bool

def kvCacheIncomingSupersedesContinued (e : Entry) : Option EvictionContext → Bool
  | none => false
  | some incoming =>
    if e.reason ≠ reasonContinued then false
    else if e.textBytes = 0 then false
    else if incoming.text.length ≤ e.textBytes.toNat then false
    else if e.modelId ≠ incoming.modelId then false
    else if incoming.rejectDifferentQuant ∧ e.quantBits ≠ incoming.quantBits then false
    else if e.ctxSize < incoming.ctxSize then false
    else kvStoreSha1BytesHex (incoming.text.take e.textBytes.toNat) = e.sha

def kvCacheReasonIsAnchor (reason : UInt8) : Bool :=
  reason = reasonCold || reason = reasonEvict || reason = reasonShutdown

def hitHalfLifeSeconds : Float := 21600

def kvStoreEntryEvictionScore (now : UInt64) (incoming : Option EvictionContext) (e : Entry) : Float :=
  if e.fileSize = 0 then 0
  else
    let usedAt := if e.lastUsed ≠ 0 then e.lastUsed else e.createdAt
    let hits := e.hits.toUInt64.toFloat
    let effectiveHits : Float :=
      if usedAt = 0 then 0
      else if now > usedAt then
        let aged := hits * (-((now - usedAt).toFloat) / hitHalfLifeSeconds).exp2
        if aged < 0.01 then 0 else aged
      else hits
    let score := (effectiveHits + 1) * e.tokens.toUInt64.toFloat / (UInt64.ofNat e.fileSize).toFloat
    let score := if kvCacheReasonIsAnchor e.reason then score * 2 else score
    if kvCacheIncomingSupersedesContinued e incoming then
      let h : Float := if effectiveHits > 0 then effectiveHits / (effectiveHits + 1) else 0
      score * (0.05 + 0.45 * h)
    else score

/-- The entry to go, by its place: of the lowest score, and of these the one not used for longest. -/
def victimOf (score : Entry → Float) (first : Entry) (rest : List Entry) : Nat :=
  (rest.zipIdx 1).foldl (fun (victim : Nat × Entry) (e : Entry × Nat) =>
    if score e.1 < score victim.2 ∨ (score e.1 == score victim.2 ∧ e.1.lastUsed < victim.2.lastUsed) then (e.2, e.1)
    else victim) (0, first) |>.1

/-- The loop of `kv_store_evict`; none where it goes on for longer than the fuel. -/
def evictLoop (score : Entry → Float) (target : Nat) : Nat → Nat → List Entry → Directory → Option Directory
  | 0, _, _, _ => none
  | _ + 1, _, [], dir => some dir
  | fuel + 1, total, first :: rest, dir =>
    if total > target then
      let victim := victimOf score first rest
      let e := (first :: rest).getD victim first
      evictLoop score target fuel (if total ≥ e.fileSize then total - e.fileSize else 0)
        ((first :: rest).eraseIdx victim) (dir.unlink e.name)
    else some dir

def totalBytes (entries : List Entry) : Nat := entries.foldl (fun total e => (total + e.fileSize) % 2 ^ 64) 0

def kvStoreEvict (kc : KvStore) (listing : Listing) (now : UInt64) (extraBytes : Nat)
    (incoming : Option EvictionContext) (dir : Directory) : Option Directory :=
  if ¬ kc.enabled ∨ kc.budgetBytes = 0 then some dir
  else if extraBytes > kc.budgetBytes then some dir
  else
    let entries := kvCacheRefresh kc listing dir
    evictLoop (kvStoreEntryEvictionScore now incoming) (kc.budgetBytes - extraBytes) (entries.length + 1)
      (totalBytes entries) entries dir

/-! ## Opening -/

def kvstoreDefaultMb : UInt64 := 4096

/-- `kv_store_open` for a directory that is there or can be made. -/
def kvStoreOpen (budgetMb : UInt64) (rejectDifferentQuant : Bool) (opt : KvStoreOptions) (listing : Listing)
    (now : UInt64) (dir : Directory) : Option (KvStore × Directory) :=
  let budgetMb := if budgetMb = 0 then kvstoreDefaultMb else budgetMb
  let kc : KvStore := ⟨true, (budgetMb * 1024 * 1024).toNat, rejectDifferentQuant, opt, 0⟩
  (kvStoreEvict kc listing now 0 none dir).map fun dir => (kc, dir)

/-! ## Sizes -/

def kvCacheFileSizeBytes (textBytes payloadBytes trailerBytes : Nat) : Option Nat :=
  if uint64Max - fixedBytes < textBytes ∨ uint64Max - fixedBytes - textBytes < payloadBytes ∨
      uint64Max - fixedBytes - textBytes - payloadBytes < trailerBytes then none
  else some (fixedBytes + textBytes + payloadBytes + trailerBytes)

/-- One percent more than the file has. -/
def kvCacheBudgetRequired (fileBytes : Nat) : Option Nat :=
  let slack := fileBytes / 100 + if fileBytes % 100 ≠ 0 then 1 else 0
  if uint64Max - fileBytes < slack then none else some (fileBytes + slack)

/-- `kv_store_file_size_fits`; the size of the file where it does. -/
def kvStoreFileSizeFits (kc : KvStore) (textBytes payloadBytes trailerBytes : Nat) : Option Nat :=
  match kvCacheFileSizeBytes textBytes payloadBytes trailerBytes with
  | none => none
  | some fileBytes =>
    if kc.budgetBytes = 0 then some fileBytes
    else
      match kvCacheBudgetRequired fileBytes with
      | none => none
      | some required => if required ≤ kc.budgetBytes then some fileBytes else none

/-! ## Storing -/

def kvCacheFileTextMatches (file sha text : List UInt8) : Bool :=
  if text.length > 2 ^ 32 - 1 then false
  else
    match kvStoreReadHeader file with
    | none => false
    | some h =>
      let stored := (file.drop fixedBytes).take h.textBytes.toNat
      h.textBytes.toNat = text.length && stored.length = h.textBytes.toNat &&
        kvStoreSha1BytesHex stored = sha && stored = text

/-- A checkpoint that is to be stored: what the engine and its session say, and what the caller passes.
The trailer is none where its size overflows, and empty where there are no hooks. -/
structure StoreRequest where
  quantBits : Int
  modelId : Int
  ctx : Int
  tokenText : Int → List UInt8
  liveTokens : Option (List Int)
  payload : Option (List UInt8)
  tokens : Option (List Int)
  storeLen : Int
  reason : Option String
  cacheTextOverride : Option (List UInt8)
  cacheTextExt : UInt8
  trailer : Option (List UInt8)
  extFlag : UInt8
  listing : Listing
  evictNow : UInt64
  now : UInt64
  pid : Nat

def toByte (v : Int) : UInt8 := UInt8.ofNat (v % 2 ^ 8).toNat

def toWord (v : Int) : UInt32 := UInt32.ofNat (v % 2 ^ 32).toNat

/-- `kv_store_tokens_copy_prefix`. -/
def kvStoreTokensCopyPrefix (tokens : List Int) (n : Int) : List Int := tokens.take n.toNat

/-- The text a checkpoint is stored under. -/
def StoreRequest.text (req : StoreRequest) (storeTokens : List Int) : List UInt8 :=
  match req.cacheTextOverride with
  | some override => if cString override ≠ [] then cString override else storeTokens.flatMap req.tokenText
  | none => storeTokens.flatMap req.tokenText

def StoreRequest.textOverride (req : StoreRequest) : Bool :=
  match req.cacheTextOverride with
  | some override => cString override ≠ []
  | none => false

/-- Whether the file of an entry can stay, in `kv_cache_existing_compatible`. -/
def compatible (kc : KvStore) (req : StoreRequest) (sha text file : List UInt8) (e : Entry) : Bool :=
  e.modelId = toByte req.modelId && (!kc.rejectDifferentQuant || e.quantBits = toByte req.quantBits) &&
    e.ctxSize ≤ toWord req.ctx && kvCacheFileTextMatches file sha text

/-- `kv_cache_existing_compatible`: an entry that cannot stay is removed. -/
def kvCacheExistingCompatible (kc : KvStore) (req : StoreRequest) (path sha text : List UInt8) (dir : Directory) :
    Bool × Directory :=
  match dir.lookup path with
  | none => (false, dir)
  | some file =>
    match kvStoreReadEntryFile path sha file with
    | none => (false, dir)
    | some e => if compatible kc req sha text file e then (true, dir) else (false, dir.unlink path)

/-- `kv_cache_rewrite_trailer`. -/
def kvCacheRewriteTrailer (path trailer : List UInt8) (extFlag : UInt8) (now : UInt64) (dir : Directory) : Directory :=
  if trailer = [] then dir
  else
    match dir.lookup path with
    | none => dir
    | some file =>
      match kvStoreReadHeader file with
      | none => dir
      | some h =>
        let finish := fixedBytes + h.textBytes.toNat + h.payloadBytes.toNat
        if finish ≤ int64Max then
          dir.write path (kvStoreFillHeader { h with extFlags := h.extFlags ||| extFlag, lastUsed := now } ++
            ((file.take finish).drop kvstoreFixedHeader ++ trailer))
        else dir

/-- The file of a new checkpoint. -/
def newFile (h : Header) (text payload trailer : List UInt8) : List UInt8 :=
  kvStoreFillHeader h ++ (leBytes 4 h.textBytes.toNat ++ (text ++ (payload ++ trailer)))

def tmpName (path : List UInt8) (pid : Nat) : List UInt8 := path ++ bytes ".tmp." ++ bytes (toString pid)

/-- What is stored where no entry can stay. -/
def storeFresh (kc : KvStore) (req : StoreRequest) (storeTokens : List Int) (path text trailer : List UInt8)
    (dir : Directory) : Option (Bool × Directory) :=
  match req.payload with
  | none => some (false, dir)
  | some payload =>
    match kvStoreFileSizeFits kc text.length payload.length trailer.length with
    | none => some (false, dir)
    | some estFileBytes =>
      let incoming : EvictionContext :=
        ⟨text, toByte req.modelId, toByte req.quantBits, toWord req.ctx, kc.rejectDifferentQuant⟩
      (kvStoreEvict kc req.listing req.evictNow estFileBytes (some incoming) dir).map fun dir =>
        let extFlags := (if trailer ≠ [] then req.extFlag else 0) ||| (if req.textOverride then req.cacheTextExt else 0)
        let h : Header := {
          quantBits := toByte req.quantBits
          modelId := toByte req.modelId
          reason := kvStoreReasonCode req.reason
          tokens := toWord storeTokens.length
          hits := 0
          ctxSize := toWord req.ctx
          extFlags := extFlags
          createdAt := req.now
          lastUsed := req.now
          payloadBytes := UInt64.ofNat payload.length
          textBytes := UInt32.ofNat text.length }
        let tmp := tmpName path req.pid
        let file := newFile h text payload trailer
        let dir := dir.write tmp file
        match kvStoreFileSizeFits kc text.length payload.length trailer.length with
        | none => (false, dir.unlink tmp)
        | some _ => (true, (dir.unlink tmp).write path file)

/-- `kv_store_store_live_prefix_text`. -/
def kvStoreStoreLivePrefixText (kc : KvStore) (req : StoreRequest) (dir : Directory) : Option (Bool × Directory) :=
  if ¬ kc.enabled then some (false, dir)
  else
    match req.tokens with
    | none => some (false, dir)
    | some tokens =>
      if req.storeLen < kc.opt.minTokens then some (false, dir)
      else
        let storeTokens := kvStoreTokensCopyPrefix tokens req.storeLen
        if req.quantBits ≠ 2 ∧ req.quantBits ≠ 4 then some (false, dir)
        else if req.liveTokens ≠ some storeTokens then some (false, dir)
        else
          let text := req.text storeTokens
          if text.length > 2 ^ 32 - 1 then some (false, dir)
          else
            match req.trailer with
            | none => some (false, dir)
            | some trailer =>
              let sha := kvStoreSha1BytesHex text
              let path := kvStorePathForSha sha
              match kvCacheExistingCompatible kc req path sha text dir with
              | (true, dir) => some (true, kvCacheRewriteTrailer path trailer req.extFlag req.now dir)
              | (false, dir) => storeFresh kc req storeTokens path text trailer dir

/-! ## Finding and loading -/

/-- Whether an entry may be looked at, by all but its name. -/
def eligible (kc : KvStore) (modelId quantBits ctxSize : Int) (prompt : List UInt8) (e : Entry) : Bool :=
  e.textBytes.toNat ≤ prompt.length && kc.opt.minTokens ≤ e.tokens.toInt32.toInt && e.modelId = toByte modelId &&
    e.ctxSize ≤ toWord ctxSize && (!kc.rejectDifferentQuant || e.quantBits = toByte quantBits)

/-- Whether an entry comes before the best one so far. -/
def better (e b : Entry) : Bool := b.textBytes < e.textBytes || (e.textBytes = b.textBytes && b.tokens < e.tokens)

/-- `kv_store_find_text_prefix`: the entry it finds, and none for -1. -/
def kvStoreFindTextPrefix (kc : KvStore) (listing : Listing) (prompt : List UInt8) (modelId quantBits ctxSize : Int)
    (dir : Directory) : Option Entry :=
  (kvCacheRefresh kc listing dir).foldl (fun best e =>
    if eligible kc modelId quantBits ctxSize prompt e && (best.all fun b => better e b) &&
        kvStoreSha1BytesHex (prompt.take e.textBytes.toNat) = e.sha then some e
    else best) none

/-- What a load is asked for, and what the session makes of a payload: how many tokens it then has. -/
structure LoadRequest where
  quantBits : Int
  modelId : Int
  ctx : Int
  promptText : Option (List UInt8)
  loadPayload : List UInt8 → UInt64 → Option Nat
  listing : Listing
  now : UInt64

/-- `kv_store_try_load_text`: the tokens that were loaded. -/
def kvStoreTryLoadText (kc : KvStore) (req : LoadRequest) (dir : Directory) : Int × KvStore × Directory :=
  match req.promptText with
  | none => (0, kc, dir)
  | some buffer =>
    let prompt := cString buffer
    if ¬ kc.enabled then (0, kc, dir)
    else if req.quantBits ≠ 2 ∧ req.quantBits ≠ 4 then (0, kc, dir)
    else
      match kvStoreFindTextPrefix kc req.listing prompt req.modelId req.quantBits req.ctx dir with
      | none => (0, kc, dir)
      | some e =>
        match dir.lookup e.name with
        | none => (0, kc, dir)
        | some file =>
          match kvStoreReadHeader file with
          | none => (0, kc, dir)
          | some hdr =>
            let cached := (file.drop fixedBytes).take hdr.textBytes.toNat
            if hdr.modelId = toByte req.modelId ∧ hdr.textBytes.toNat ≤ prompt.length ∧
                cached.length = hdr.textBytes.toNat ∧ kvStoreSha1BytesHex cached = e.sha ∧ cached <+: prompt then
              match req.loadPayload (file.drop (fixedBytes + hdr.textBytes.toNat)) hdr.payloadBytes with
              | none => (0, kc, dir)
              | some loaded =>
                if (loaded : Int) = hdr.tokens.toInt32.toInt then
                  if 0 < hdr.tokens.toInt32.toInt then
                    (loaded, { kc with continuedLastStoreTokens := loaded },
                      (kvStoreTouchFile dir e.name (hdr.hits + 1) req.now).2)
                  else (loaded, kc, dir)
                else (0, kc, dir.unlink e.name)
            else (0, kc, dir)

end Spark.Kv
