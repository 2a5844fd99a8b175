import Spark.Lib.FileSystem
import Spark.Lib.Script
import Spark.Sidecar.Source

/-!
# The sidecar builders

`build_expert_sidecar` and `build_expert_sidecar_v2` on a file system that may lose power. Every
system call that changes the file system is one step of a script; what the builders only read is a
function of what the file shows. A call that fails ends the run where it stands, as a cut does.

* **`packBatches`** — the loop of the first builder, 64 records between barriers.
* **`packLayers`** — the loop of the second, one streamed layer between barriers.
* **`buildSidecar`** — what the builders share: reuse, open or create, resume, publish.
* **`verifySidecar`** — the scan of a published file.
-/

namespace Spark.Sidecar

/-- The two names a build works on. -/
inductive Entry where
  | output
  | partialFile
  deriving DecidableEq, Repr

abbrev Fs := FileSystem Entry

abbrev Job := Script Fs SidecarError

structure OutputPath where
  parent : String
  fileName : Option String

namespace OutputPath

variable (path : OutputPath)

def display : String := path.parent ++ path.fileName.getD ""

def partialPath (noun : String) : Except SidecarError String :=
  match path.fileName with
  | none => .error (.invalid (noun ++ " output needs a file name"))
  | some fileName => .ok (path.parent ++ fileName ++ ".partial")

end OutputPath

/-! ## System calls -/

def fail {α : Type} (error : SidecarError) : Job α := .lift (.error error)

def fileExists (entry : Entry) : Job Bool := .ask fun fs => .ok (fs.lookup entry).isSome

def openFile (entry : Entry) : Job Inode :=
  .ask fun fs =>
    match fs.lookup entry with
    | some inode => .ok inode
    | none => .error .io

/-- `create_new`: an entry that exists is an error. -/
def createNew (entry : Entry) : Job Inode := do
  let inode ← .ask fun fs => if (fs.lookup entry).isSome then .error .io else .ok fs.next
  .act fun fs => fs.create entry
  return inode

def setLen (inode : Inode) (size : Nat) : Job Unit := .act fun fs => fs.update inode (.setLen size)

def writeAllAt (inode : Inode) (bytes : List UInt8) (offset : Nat) : Job Unit :=
  .act fun fs => fs.update inode (.write offset bytes)

/-- `sync_data` and `sync_all`. -/
def syncFile (inode : Inode) : Job Unit := .act fun fs => fs.sync inode

def fileLen (inode : Inode) : Job Nat := .ask fun fs => .ok (fs.image inode).size

def renameFile (source target : Entry) : Job Unit := do
  let inode ← openFile source
  .act fun fs => fs.rename source target inode

def syncParent : Job Unit := .act fun fs => fs.syncDir

/-! ## Reading a sidecar -/

def readExactAt (image : Image) (offset bytes : Nat) : Except SidecarError (List UInt8) :=
  match image.read? offset bytes with
  | some bytes => .ok bytes
  | none => .error .io

def readHeaderFrom (format : Format) (image : Image) : Except SidecarError Header := do
  let block ← readExactAt image 0 headerBytes
  parseHeader format block

def recordOffset (header : Header) (index : Nat) : Except SidecarError Nat := do
  let scaled ← checked (Word.checkedMul 64 index header.recordBytes.toNat)
  checked (Word.checkedAdd 64 header.recordsOffset.toNat scaled)

def checksumOffset (header : Header) (index : Nat) : Except SidecarError Nat := do
  let scaled ← checked (Word.checkedMul 64 index checksumBytes)
  checked (Word.checkedAdd 64 header.checksumsOffset.toNat scaled)

def readRecord (image : Image) (header : Header) (index : Nat) : Except SidecarError (List UInt8) := do
  readExactAt image (← recordOffset header index) header.recordBytes.toNat

def readChecksum (image : Image) (header : Header) (index : Nat) : Except SidecarError UInt64 := do
  let bytes ← readExactAt image (← checksumOffset header index) checksumBytes
  return UInt64.ofNat (leNat bytes)

/-- How the first builder recomputes a checksum: from the whole record. -/
def recordSum (image : Image) (header : Header) (index : Nat) : Except SidecarError UInt64 := do
  return crc64Ecma (← readRecord image header index)

def checksumBuffer : Nat := 8 * 1024 * 1024

/-- The loop of `checksum_range`. -/
def checksumLoop (image : Image) (crc : UInt64) (offset bytes : Nat) : Except SidecarError UInt64 :=
  if bytes = 0 then .ok crc
  else do
    let take := min bytes checksumBuffer
    let chunk ← readExactAt image offset take
    let next ← checked (Word.checkedAdd 64 offset take)
    checksumLoop image (crc64Update crc chunk) next (bytes - take)
termination_by bytes
decreasing_by
  unfold checksumBuffer
  omega

def checksumRange (image : Image) (offset bytes : Nat) : Except SidecarError UInt64 :=
  checksumLoop image 0 offset bytes

/-- How the second builder does: 8 MiB at a time. -/
def layerSum (image : Image) (header : Header) (layer : Nat) : Except SidecarError UInt64 := do
  checksumRange image (← recordOffset header layer) header.recordBytes.toNat

/-! ## Filling the partial file -/

def Header.withCommitted (header : Header) (committed : UInt64) : Header := { header with committed }

def Header.completed (header : Header) : Header := { header with stateComplete := true }

def writeHeader (format : Format) (inode : Inode) (header : Header) : Job Unit :=
  writeAllAt inode (serializeHeader format header) 0

def writeChecksum (inode : Inode) (header : Header) (index : Nat) (checksum : UInt64) : Job Unit := do
  let offset ← .lift (checksumOffset header index)
  writeAllAt inode (leBytes 8 checksum.toNat) offset

/-- `recover_last_committed_record` and `recover_last_committed_layer`. -/
def recoverLastCommitted (format : Format) (sum : Image → Header → Nat → Except SidecarError UInt64)
    (inode : Inode) (header : Header) : Job Header :=
  if header.committed = 0 then pure header
  else do
    let index := header.committed.toNat - 1
    let actual ← .ask fun fs => sum (fs.image inode) header index
    let stored ← .ask fun fs => readChecksum (fs.image inode) header index
    if actual ≠ stored then do
      writeHeader format inode (header.withCommitted (UInt64.ofNat index))
      syncFile inode
      return header.withCommitted (UInt64.ofNat index)
    else return header

/-- How both loops publish what they have written: the payload is on the device before the header
that claims it. -/
def commitHeader (format : Format) (inode : Inode) (header : Header) : Job Unit := do
  syncFile inode
  writeHeader format inode header
  syncFile inode

def syncRecords : Nat := 64

section Fill

variable (format : Format) (inode : Inode)

section Records

variable (record : Nat → Except SidecarError (List UInt8))

/-- The `count` records of a batch from `index` on. -/
def writeRecords (header : Header) : (index count : Nat) → Job Unit
  | _, 0 => pure ()
  | index, count + 1 => do
    let bytes ← .lift (record index)
    let offset ← .lift (recordOffset header index)
    writeAllAt inode bytes offset
    writeChecksum inode header index (crc64Ecma bytes)
    writeRecords header (index + 1) count

def packBatches (header : Header) (committed : Nat) : Job Header :=
  if committed < header.recordCount.toNat then do
    let batchEnd := min header.recordCount.toNat (Word.saturatingAdd 64 committed syncRecords)
    writeRecords inode record header committed (batchEnd - committed)
    commitHeader format inode (header.withCommitted (UInt64.ofNat batchEnd))
    packBatches (header.withCommitted (UInt64.ofNat batchEnd)) batchEnd
  else pure header
termination_by header.recordCount.toNat - committed
decreasing_by
  have hlt := header.recordCount.toNat_lt
  simp only [Word.saturatingAdd, syncRecords, Header.withCommitted]
  omega

end Records

section Layers

variable (pieces : Nat → List (Except SidecarError (List UInt8)))

/-- The streaming of `pack_layer`: write a piece, move the cursor, extend the checksum. -/
def packPieces : List (Except SidecarError (List UInt8)) → Nat → UInt64 → Job (Nat × UInt64)
  | [], cursor, crc => pure (cursor, crc)
  | piece :: pieces, cursor, crc => do
    let bytes ← .lift piece
    writeAllAt inode bytes cursor
    let next ← .lift (checked (Word.checkedAdd 64 cursor bytes.length))
    packPieces pieces next (crc64Update crc bytes)

def packLayer (layerOffset layer : Nat) : Job UInt64 := do
  let (cursor, crc) ← packPieces inode (pieces layer) layerOffset 0
  if cursor - layerOffset ≠ format.recordBytes then fail .integerOverflow
  else return crc

def layerFileOffset (header : Header) (layer : Nat) : Except SidecarError Nat :=
  if format.layers.toNat ≤ layer then
    .error (.invalid ("Qwen SoA-v2 layer " ++ toString layer ++ " is out of range"))
  else recordOffset header layer

/-- The loop runs once for each of the `remaining` layers that are not committed. -/
def packLayers : (header : Header) → (remaining : Nat) → Job Header
  | header, 0 => pure header
  | header, remaining + 1 => do
    let layerOffset ← .lift (layerFileOffset format header header.committed.toNat)
    let checksum ← packLayer format inode pieces layerOffset header.committed.toNat
    writeChecksum inode header header.committed.toNat checksum
    commitHeader format inode (header.withCommitted (header.committed + 1))
    packLayers (header.withCommitted (header.committed + 1)) remaining

end Layers

end Fill

/-! ## Building -/

structure BuildReport where
  records : UInt64
  bytes : UInt64
  resumedRecords : UInt64
  alreadyComplete : Bool
  sourceFingerprint : Vector UInt8 32
  deriving DecidableEq

def report (header : Header) (resumedRecords : UInt64) (alreadyComplete : Bool) : BuildReport where
  records := header.recordCount
  bytes := header.totalBytes
  resumedRecords := resumedRecords
  alreadyComplete := alreadyComplete
  sourceFingerprint := header.sourceFingerprint

def validateCheckpointGeometry (format : Format) (checkpoint : Checkpoint) : Except SidecarError Unit :=
  if checkpoint.layers ≠ format.layers.toNat ∨ checkpoint.experts ≠ format.expertsPerLayer.toNat then
    .error (.invalid (format.noun ++ " requires " ++ toString format.layers ++ " layers x " ++
      toString format.expertsPerLayer ++ " experts, checkpoint has " ++ toString checkpoint.layers ++
      " x " ++ toString checkpoint.experts))
  else .ok ()

section Build

variable (format : Format) (path : OutputPath)

/-- What a file of the wrong size is refused with. -/
def sizeError (name : String) (actual : Nat) (expected : UInt64) : SidecarError :=
  .invalid (name ++ " has " ++ toString actual ++ " bytes, expected " ++ toString expected)

/-- The answer when the output exists. -/
def reuseOutput (expected : Header) : Job BuildReport := do
  let inode ← openFile .output
  let header ← .ask fun fs => readHeaderFrom format (fs.image inode)
  .lift (validateHeader format header expected true)
  let actualBytes ← fileLen inode
  if actualBytes ≠ header.totalBytes.toNat then
    fail (sizeError (format.noun ++ " " ++ path.display) actualBytes header.totalBytes)
  else return report header header.recordCount true

def createPartial (expected : Header) : Job Inode := do
  let created ← createNew .partialFile
  setLen created expected.totalBytes.toNat
  writeHeader format created expected
  syncFile created
  return created

def openPartial (expected : Header) : Job Inode := do
  if ← fileExists .partialFile then openFile .partialFile else createPartial format expected

/-- From the complete header to the published name. -/
def publish (inode : Inode) (header : Header) : Job Unit := do
  writeHeader format inode header.completed
  syncFile inode
  if ← fileExists .output then
    fail (.invalid ("refusing to replace " ++ format.noun ++ " created concurrently: " ++ path.display))
  else do
    renameFile .partialFile .output
    syncParent

variable (sum : Image → Header → Nat → Except SidecarError UInt64)

/-- The header a build resumes from. -/
def resumeHeader (expected : Header) (partialName : String) (inode : Inode) : Job Header := do
  let length ← fileLen inode
  if length ≠ expected.totalBytes.toNat then
    fail (sizeError ("partial " ++ format.noun ++ " " ++ partialName) length expected.totalBytes)
  else do
    let header ← .ask fun fs => readHeaderFrom format (fs.image inode)
    .lift (validateHeader format header expected false)
    recoverLastCommitted format sum inode header

/-- The build when the output does not exist: `fill` takes the header to one with every record
committed. -/
def buildPartial (expected : Header) (fill : Inode → Header → Job Header) : Job BuildReport := do
  let partialName ← .lift (path.partialPath format.noun)
  let inode ← openPartial format expected
  let resumed ← resumeHeader format sum expected partialName inode
  let header ← fill inode resumed
  publish format path inode header
  return report header resumed.committed false

/-- The builders up to their loops. -/
def buildSidecar (checkpoint : Checkpoint) (fill : Inode → Header → Job Header) : Job BuildReport := do
  .lift (validateCheckpointGeometry format checkpoint)
  let fingerprint ← .lift checkpoint.fingerprint
  let expected ← .lift (expectedHeader format fingerprint false 0)
  if ← fileExists .output then reuseOutput format path expected
  else buildPartial format path sum expected fill

def buildExpertSidecar (checkpoint : Checkpoint) : Job BuildReport :=
  buildSidecar formatV1 path recordSum checkpoint fun inode header =>
    packBatches formatV1 inode (fun index => packRecord checkpoint (index / 512) (index % 512)) header
      header.committed.toNat

def buildExpertSidecarV2 (checkpoint : Checkpoint) : Job BuildReport :=
  buildSidecar formatV2 path layerSum checkpoint fun inode header =>
    packLayers formatV2 inode (layerPieces checkpoint) header
      (header.recordCount.toNat - header.committed.toNat)

/-! ## Verifying -/

/-- The checksums of `count` records from `index` on. -/
def verifyRecords (image : Image) (header : Header) : (index count : Nat) → Except SidecarError Unit
  | _, 0 => .ok ()
  | index, count + 1 => do
    let actual ← sum image header index
    let expected ← readChecksum image header index
    if actual ≠ expected then throw (.checksum index expected actual)
    verifyRecords image header (index + 1) count

/-- The verifiers; `name` is how the message about a wrong size names the file. -/
def verifySidecar (name : String) (checkpoint : Checkpoint) : Job BuildReport := do
  .lift (validateCheckpointGeometry format checkpoint)
  let fingerprint ← .lift checkpoint.fingerprint
  let expected ← .lift (expectedHeader format fingerprint true format.recordCount)
  let inode ← openFile .output
  let header ← .ask fun fs => readHeaderFrom format (fs.image inode)
  .lift (validateHeader format header expected true)
  let actualBytes ← fileLen inode
  if actualBytes ≠ header.totalBytes.toNat then fail (sizeError name actualBytes header.totalBytes)
  else do
    .ask fun fs => verifyRecords sum (fs.image inode) header 0 header.recordCount.toNat
    return report header header.recordCount true

def verifyExpertSidecar (checkpoint : Checkpoint) : Job BuildReport :=
  verifySidecar formatV1 recordSum "sidecar" checkpoint

def verifyExpertSidecarV2 (checkpoint : Checkpoint) : Job BuildReport :=
  verifySidecar formatV2 layerSum ("SoA-v2 sidecar " ++ path.display) checkpoint

end Build

end Spark.Sidecar
