import Spark.Sidecar.Resume

/-!
# Published sidecars

Any number of runs of a builder, each cut anywhere, with a power loss at any time: a file that
shows up under the output name is the finished sidecar of the checkpoint, and `verify` accepts it.

* **`buildSidecar_spec`** — one run, from any state with the invariant.
* **`Reachable`** — the states that runs, cuts and power losses lead to.
* **`published_sidecars_sound`** — both builders.
-/

namespace Spark.Sidecar

namespace Plan

variable {format : Format} {plan : Plan format} {ready : Prop} {fs : Fs} {inode : Inode}

/-! ## Publishing -/

/-- Once the complete header is synced, the file is complete whatever happens. -/
theorem complete_of_synced (h : plan.Building inode format.recordCount fs)
    (hheader : parseHeader format ((fs.image inode).cells.slice 0 headerBytes) =
      .ok (plan.header true format.recordCount)) :
    (fs.sync inode).Always (TornHeader format) plan.Complete inode := by
  obtain ⟨mark, hmark, hcount, halways⟩ := h.marked
  have hcomplete : plan.Complete (fs.image inode) :=
    ⟨h.identified, h.size, hheader, fun index hindex => halways.current.holds index (by omega)⟩
  have hsync : WriteBack.Always Image.apply (TornHeader format) plan.Complete
      ((fs.inodes inode).sync Image.apply) := WriteBack.always_sync hcomplete
  simpa [FileSystem.Always, FileSystem.sync] using hsync

theorem lookup_open {entry : Entry} (h : fs.lookup entry = some inode) :
    (match fs.lookup entry with
      | some inode => Except.ok inode
      | none => Except.error SidecarError.io) = Except.ok inode := by
  rw [h]

/-- The rename shows a complete file, or nothing new. -/
theorem publish_spec {path : OutputPath} :
    plan.Does ready (plan.Building inode format.recordCount)
      (publish format path inode (plan.header false format.recordCount))
      (fun _ fs => plan.FsInv fs ∧ fs.lookup .output = some inode) := by
  unfold publish
  refine Script.triple_bind
    (fun _ fs => plan.Building inode format.recordCount fs ∧
      parseHeader format ((fs.image inode).cells.slice 0 headerBytes) =
        .ok (plan.header true format.recordCount))
    (Script.triple_act fun fs hfs => ?_) fun _ => ?_
  · have hafter := hfs.write_header (show true = true → format.recordCount = format.recordCount from fun _ => rfl)
    exact ⟨hafter.inv, hafter, parse_written_header⟩
  refine Script.triple_bind
    (fun _ fs => plan.Building inode format.recordCount fs ∧
      fs.Always (TornHeader format) plan.Complete inode)
    (Script.triple_act ?_) fun _ => ?_
  · rintro fs ⟨hfs, hheader⟩
    exact ⟨hfs.sync.inv, hfs.sync, complete_of_synced hfs hheader⟩
  refine Script.triple_bind _ (fileExists_spec .output) fun found => ?_
  cases found with
  | true =>
    refine Script.triple_lift nofun ?_
    rintro fs e ⟨hfound, hfs, -⟩ -
    rw [hfs.output] at hfound
    cases hfound
  | false =>
    unfold renameFile
    refine Script.triple_bind (fun _ fs => plan.FsInv fs ∧ fs.lookup .output = some inode) ?_ fun _ => ?_
    · refine Script.triple_answer inode (fun fs hfs => lookup_open hfs.2.1.shown) (Script.triple_act ?_)
      rintro fs ⟨-, hfs, hcomplete⟩
      refine ⟨hfs.inv.rename hcomplete, hfs.inv.rename hcomplete, ?_⟩
      rw [FileSystem.lookup_rename, Function.update_self]
    · refine Script.triple_act ?_
      rintro fs ⟨hinv, hshown⟩
      exact ⟨hinv.syncDir, hinv.syncDir, hshown⟩

/-! ## One run -/

theorem FsInv.complete (h : plan.FsInv fs) (hshown : fs.lookup .output = some inode) :
    plan.Complete (fs.image inode) :=
  (h.published.current inode hshown).current

theorem Complete.readHeader {image : Image} (h : plan.Complete image) :
    readHeaderFrom format image = .ok (plan.header true format.recordCount) :=
  (readHeaderFrom_eq h.size).trans h.header

variable (plan) in
/-- A finished sidecar is shown. -/
def Shows (inode : Inode) (fs : Fs) : Prop := plan.FsInv fs ∧ fs.lookup .output = some inode

theorem reuseOutput_spec {path : OutputPath} :
    plan.Does ready (plan.Shows inode) (reuseOutput format path (plan.header false 0))
      (fun _ => plan.Shows inode) := by
  unfold reuseOutput
  refine Script.triple_answer inode (fun fs hfs => lookup_open hfs.2) ?_
  refine Script.triple_answer _ (fun fs hfs => (hfs.1.complete hfs.2).readHeader) ?_
  refine Script.triple_answer () (fun _ _ => validateHeader_complete format plan.fingerprint false 0) ?_
  refine Script.triple_answer format.totalBytes (fun fs hfs => congrArg _ (hfs.1.complete hfs.2).size) ?_
  rw [toNat_totalBytes, if_neg (fun h => h rfl)]
  exact Script.triple_pure fun _ hfs => hfs

variable (plan) in
/-- Nothing keeps a build from succeeding. -/
structure Ready (path : OutputPath) (fs : Fs) : Prop where
  identified : plan.Identified
  named : path.fileName.isSome
  records : ∀ index < format.recordCount, ∃ bytes, plan.record index = .ok bytes
  resumable : fs.lookup .output = none → plan.Resumable fs

variable (plan) in
/-- The plan is under the fingerprint of its checkpoint. -/
def Fingerprinted : Prop :=
  ∀ fingerprint, plan.checkpoint.fingerprint = .ok fingerprint → plan.fingerprint = fingerprint

/-- Filling and publishing a partial file, from any state a cut leaves. -/
theorem buildPartial_spec {path : OutputPath} {fill : Inode → Header → Job Header}
    {sum : Image → Header → Nat → Except SidecarError UInt64} (hsum : plan.SumSpec sum)
    (hnamed : ready → path.fileName.isSome) (hfill : plan.FillSpec ready fill) :
    plan.Does ready (fun fs => plan.Startable fs ∧ (ready → plan.Resumable fs))
      (buildPartial format path sum (plan.header false 0) fill) (fun _ fs => ∃ inode, plan.Shows inode fs) := by
  unfold buildPartial
  refine Script.triple_bind (fun _ fs => plan.Startable fs ∧ (ready → plan.Resumable fs))
    (Script.triple_lift (fun _ _ hfs _ => hfs) fun fs e hfs he => ?_) fun partialName => ?_
  · refine ⟨hfs.1.inv, fun h => ?_⟩
    obtain ⟨fileName, hname⟩ := Option.isSome_iff_exists.mp (hnamed h)
    rw [OutputPath.partialPath, hname] at he
    cases he
  refine Script.triple_bind _ openPartial_spec fun inode => ?_
  refine Script.triple_bind _ (resumeHeader_spec hsum) fun resumed => ?_
  refine Script.triple_exists fun committed => Script.triple_of_fact fun hcommitted =>
    Script.triple_of_fact ?_
  rintro rfl
  refine Script.triple_bind _ (hfill inode committed hcommitted) fun header => Script.triple_of_fact ?_
  rintro rfl
  refine Script.triple_bind _ publish_spec fun _ => ?_
  exact Script.triple_pure fun fs hfs => ⟨inode, hfs⟩

/-- One run of a builder, whichever file it finds. -/
theorem buildSidecar_spec {path : OutputPath} {fill : Inode → Header → Job Header}
    {sum : Image → Header → Nat → Except SidecarError UInt64} (hfingerprinted : plan.Fingerprinted)
    (hsum : plan.SumSpec sum) (start : Fs) (hfill : plan.FillSpec (plan.Ready path start) fill) :
    plan.Does (plan.Ready path start) (fun fs => fs = start ∧ plan.FsInv fs)
      (buildSidecar format path sum plan.checkpoint fill) (fun _ fs => ∃ inode, plan.Shows inode fs) := by
  unfold buildSidecar
  refine Script.triple_bind
    (fun _ fs => validateCheckpointGeometry format plan.checkpoint = .ok () ∧ fs = start ∧ plan.FsInv fs)
    (Script.triple_lift (fun _ _ hfs h => ⟨h, hfs⟩) fun fs e hfs he => ?_)
    fun _ => Script.triple_of_fact fun hgeometry => ?_
  · exact ⟨hfs.2, fun h => by rw [h.identified.geometry] at he; cases he⟩
  refine Script.triple_bind
    (fun fingerprint fs => plan.checkpoint.fingerprint = .ok fingerprint ∧ fs = start ∧ plan.FsInv fs)
    (Script.triple_lift (fun _ _ hfs h => ⟨h, hfs⟩) fun fs e hfs he => ?_)
    fun fingerprint => Script.triple_of_fact fun hfingerprint => ?_
  · exact ⟨hfs.2, fun h => by rw [h.identified.fingerprint] at he; cases he⟩
  obtain rfl := hfingerprinted fingerprint hfingerprint
  have hidentified : plan.Identified := ⟨hgeometry, hfingerprint⟩
  refine Script.triple_answer (plan.header false 0)
    (fun _ _ => expectedHeader_ok format plan.fingerprint false 0) ?_
  refine Script.triple_bind _ (fileExists_spec .output) fun found => ?_
  cases found with
  | true =>
    have hreuse : plan.Does (plan.Ready path start) (fun fs => ∃ inode, plan.Shows inode fs)
        (reuseOutput format path (plan.header false 0)) (fun _ fs => ∃ inode, plan.Shows inode fs) :=
      Script.triple_exists fun inode => reuseOutput_spec.weaken (fun _ hfs => hfs) fun _ _ hfs => ⟨inode, hfs⟩
    refine hreuse.weaken ?_ fun _ _ hfs => hfs
    rintro fs ⟨hfound, -, hinv⟩
    obtain ⟨inode, hshown⟩ := Option.isSome_iff_exists.mp hfound
    exact ⟨inode, hinv, hshown⟩
  | false =>
    refine (buildPartial_spec hsum (fun h => h.named) hfill).weaken ?_ fun _ _ hfs => hfs
    rintro fs ⟨hfound, rfl, hinv⟩
    have hnone : FileSystem.lookup fs .output = none := by simpa using hfound
    exact ⟨⟨hinv, hidentified, hnone⟩, fun h => h.resumable hnone⟩

/-! ## Verifying -/

theorem verifyRecords_ok {sum : Image → Header → Nat → Except SidecarError UInt64}
    (hsum : plan.SumSpec sum) {image : Image} (h : plan.Complete image) {index count : Nat}
    (hcount : index + count ≤ format.recordCount) :
    verifyRecords sum image (plan.header true format.recordCount) index count = .ok () := by
  induction count generalizing index with
  | zero => rfl
  | succ count ih =>
    have hindex : index < format.recordCount := by omega
    obtain ⟨whole, -, hslice, hchecksum⟩ := h.holds index hindex
    rw [verifyRecords, hsum image true _ index h.size hindex, ok_bind,
      readChecksum_eq plan h.size hindex, ok_bind, hchecksum, hslice, leNat_word64,
      if_neg (fun hne => hne rfl)]
    exact ih (by omega)

/-- A complete file is verified, and nothing is written. -/
theorem verifySidecar_spec {sum : Image → Header → Nat → Except SidecarError UInt64} {name : String}
    (hsum : plan.SumSpec sum) :
    plan.Does True (plan.Shows inode) (verifySidecar format sum name plan.checkpoint)
      (fun answer _ => answer = report (plan.header true format.recordCount)
        (UInt64.ofNat format.recordCount) true) := by
  unfold verifySidecar
  refine Script.triple_answer () (fun fs hfs => (hfs.1.complete hfs.2).identified.geometry) ?_
  refine Script.triple_answer _ (fun fs hfs => (hfs.1.complete hfs.2).identified.fingerprint) ?_
  refine Script.triple_answer _ (fun _ _ => expectedHeader_ok format plan.fingerprint true _) ?_
  refine Script.triple_answer inode (fun fs hfs => lookup_open hfs.2) ?_
  refine Script.triple_answer _ (fun fs hfs => (hfs.1.complete hfs.2).readHeader) ?_
  refine Script.triple_answer () (fun _ _ => validateHeader_complete format plan.fingerprint true _) ?_
  refine Script.triple_answer format.totalBytes (fun fs hfs => congrArg _ (hfs.1.complete hfs.2).size) ?_
  rw [toNat_totalBytes, if_neg (fun h => h rfl), toNat_recordCount]
  refine Script.triple_answer ()
    (fun fs hfs => verifyRecords_ok hsum (hfs.1.complete hfs.2) (Nat.le_of_eq (Nat.zero_add _))) ?_
  exact Script.triple_pure fun _ _ => rfl

theorem Does.answers {α : Type} {pre : Fs → Prop} {x : Job α} {post : α → Fs → Prop} (hready : ready)
    (h : plan.Does ready pre x post) (hfs : pre fs) :
    ∃ a, (x.run fs).result = .ok a ∧ post a (x.run fs).final := by
  obtain ⟨-, hend⟩ := h fs hfs
  cases hresult : (x.run fs).result with
  | error e =>
    rw [hresult] at hend
    exact absurd hready hend.2
  | ok a =>
    rw [hresult] at hend
    exact ⟨a, rfl, hend⟩

theorem verifySidecar_ok {sum : Image → Header → Nat → Except SidecarError UInt64}
    (hsum : plan.SumSpec sum) (name : String) (h : plan.Shows inode fs) :
    ∃ answer, ((verifySidecar format sum name plan.checkpoint).run fs).result = .ok answer := by
  obtain ⟨answer, hanswer, -⟩ := Does.answers trivial (verifySidecar_spec hsum) h
  exact ⟨answer, hanswer⟩

end Plan

/-! ## All runs -/

/-- What any number of runs leads to: each may be cut after any step, and the power may fail between
any two. -/
inductive Reachable (format : Format) (build : Job BuildReport) : Fs → Prop
  | fresh : Reachable format build .empty
  | ended {fs : Fs} : Reachable format build fs → Reachable format build (build.run fs).final
  | cut {fs fs' : Fs} : Reachable format build fs → fs' ∈ (build.run fs).states →
      Reachable format build fs'
  | crash {fs fs' : Fs} : Reachable format build fs → fs.Crash (TornHeader format) fs' →
      Reachable format build fs'

/-- The invariant holds in every state that runs, cuts and losses of power reach. -/
theorem Plan.reachable_inv {format : Format} {plan : Plan format} {build : Job BuildReport}
    (hbuild : ∀ start, ∃ ready, plan.Does ready (fun fs => fs = start ∧ plan.FsInv fs) build
      (fun _ fs => ∃ inode, plan.Shows inode fs)) {fs : Fs} (h : Reachable format build fs) :
    plan.FsInv fs := by
  induction h with
  | fresh => exact fsInv_empty
  | @ended fs _ ih =>
    obtain ⟨ready, hspec⟩ := hbuild fs
    obtain ⟨-, hend⟩ := hspec fs ⟨rfl, ih⟩
    cases hresult : (build.run fs).result with
    | error e => rw [hresult] at hend; exact hend.1
    | ok a => rw [hresult] at hend; exact hend.choose_spec.1
  | @cut fs fs' _ hcut ih =>
    obtain ⟨ready, hspec⟩ := hbuild fs
    exact (hspec fs ⟨rfl, ih⟩).1 fs' hcut
  | crash _ hcrash ih => exact ih.crash hcrash

/-- A sidecar of the checkpoint: a complete header under its fingerprint, and every record with its
checksum. -/
def Sound (format : Format) (checkpoint : Checkpoint)
    (record : Nat → Except SidecarError (List UInt8)) (image : Image) : Prop :=
  ∃ fingerprint header, checkpoint.fingerprint = .ok fingerprint ∧
    expectedHeader format fingerprint true format.recordCount = .ok header ∧
    readHeaderFrom format image = .ok header ∧
    ∀ index < format.recordCount, ∃ bytes, record index = .ok bytes ∧
      readRecord image header index = .ok bytes ∧
      readChecksum image header index = .ok (crc64Ecma bytes)

/-- A complete file has the records of the checkpoint. -/
theorem Plan.Complete.sound {format : Format} {plan : Plan format} {image : Image}
    (h : plan.Complete image) : Sound format plan.checkpoint plan.record image := by
  refine ⟨plan.fingerprint, plan.header true format.recordCount, h.identified.fingerprint,
    expectedHeader_ok format plan.fingerprint true _, h.readHeader, fun index hindex => ?_⟩
  obtain ⟨bytes, hok, hslice, hchecksum⟩ := h.holds index hindex
  refine ⟨bytes, hok, ?_, ?_⟩
  · rw [readRecord_eq plan h.size hindex, hslice]
  · rw [readChecksum_eq plan h.size hindex, hchecksum, leNat_word64]

/-! ## The two builders -/

section Builders

variable (checkpoint : Checkpoint) (path : OutputPath)

/-- The fingerprint of a checkpoint that has one. -/
def Checkpoint.identity : Vector UInt8 32 :=
  match checkpoint.fingerprint with
  | .ok fingerprint => fingerprint
  | .error _ => Vector.replicate 32 0

theorem identity_eq {fingerprint : Vector UInt8 32} (h : checkpoint.fingerprint = .ok fingerprint) :
    checkpoint.identity = fingerprint := by
  rw [Checkpoint.identity, h]

theorem streams_layers : Plan.Streams (planV2 checkpoint checkpoint.identity) (layerPieces checkpoint) where
  record _ := rfl
  sized := sized_layerPieces
  layers := by decide

/-- The builder of one expert a record. -/
theorem buildExpertSidecar_spec (start : Fs) :
    (planV1 checkpoint checkpoint.identity).Does
      ((planV1 checkpoint checkpoint.identity).Ready path start)
      (fun fs => fs = start ∧ (planV1 checkpoint checkpoint.identity).FsInv fs)
      (buildExpertSidecar path checkpoint)
      (fun _ fs => ∃ inode, (planV1 checkpoint checkpoint.identity).Shows inode fs) := by
  refine Plan.buildSidecar_spec (fun _ => identity_eq checkpoint) (Plan.recordSum_spec _) start ?_
  intro inode committed hcommitted
  beta_reduce
  rw [Plan.toNat_committed _ hcommitted]
  exact Plan.packBatches_spec (fun h => h.records) hcommitted

/-- The builder of one layer a record. -/
theorem buildExpertSidecarV2_spec (start : Fs) :
    (planV2 checkpoint checkpoint.identity).Does
      ((planV2 checkpoint checkpoint.identity).Ready path start)
      (fun fs => fs = start ∧ (planV2 checkpoint checkpoint.identity).FsInv fs)
      (buildExpertSidecarV2 path checkpoint)
      (fun _ fs => ∃ inode, (planV2 checkpoint checkpoint.identity).Shows inode fs) := by
  refine Plan.buildSidecar_spec (fun _ => identity_eq checkpoint) (Plan.layerSum_spec _) start ?_
  intro inode committed hcommitted
  beta_reduce
  rw [Plan.toNat_committed _ hcommitted, Plan.toNat_recordCount]
  exact Plan.packLayers_spec (streams_layers checkpoint) (fun h => h.records) (by omega)

/-- **Publication is crash safe.** Whatever interrupted runs of a builder and power losses lead to, a
file under the output name is the sidecar of the checkpoint, and `verify` accepts it. -/
theorem published_sidecars_sound :
    (∀ fs inode, Reachable formatV1 (buildExpertSidecar path checkpoint) fs →
      fs.lookup .output = some inode →
      Sound formatV1 checkpoint (fun index => packRecord checkpoint (index / 512) (index % 512))
        (fs.image inode) ∧
      ∃ answer, ((verifyExpertSidecar checkpoint).run fs).result = .ok answer) ∧
    (∀ fs inode, Reachable formatV2 (buildExpertSidecarV2 path checkpoint) fs →
      fs.lookup .output = some inode →
      Sound formatV2 checkpoint (packedLayer checkpoint) (fs.image inode) ∧
      ∃ answer, ((verifyExpertSidecarV2 path checkpoint).run fs).result = .ok answer) := by
  constructor
  · intro fs inode hreachable hshown
    have hinv : (planV1 checkpoint checkpoint.identity).FsInv fs :=
      Plan.reachable_inv (fun start => ⟨_, buildExpertSidecar_spec checkpoint path start⟩) hreachable
    exact ⟨(hinv.complete hshown).sound, Plan.verifySidecar_ok (Plan.recordSum_spec _) _ ⟨hinv, hshown⟩⟩
  · intro fs inode hreachable hshown
    have hinv : (planV2 checkpoint checkpoint.identity).FsInv fs :=
      Plan.reachable_inv (fun start => ⟨_, buildExpertSidecarV2_spec checkpoint path start⟩) hreachable
    exact ⟨(hinv.complete hshown).sound, Plan.verifySidecar_ok (Plan.layerSum_spec _) _ ⟨hinv, hshown⟩⟩

end Builders

/-! ### A checkpoint that packs -/

def endsWith (name : List Char) (ending : String) : Bool := ending.toList.isSuffixOf name

/-- A tensor of the type and shape its name calls for. -/
def sampleTensor (name : List Char) : SafetensorLocation :=
  if endsWith name "input_scale" || endsWith name "weight_scale_2" then ⟨"shard", 0, 4, "F32", []⟩
  else if endsWith name "down_proj.weight_scale" then ⟨"shard", 0, 102400, "F8_E4M3", [2560, 40]⟩
  else if endsWith name "weight_scale" then ⟨"shard", 0, 102400, "F8_E4M3", [640, 160]⟩
  else if endsWith name "down_proj.weight" then ⟨"shard", 0, 819200, "U8", [2560, 320]⟩
  else ⟨"shard", 0, 819200, "U8", [640, 1280]⟩

@[irreducible] def sampleShard : List UInt8 := List.replicate 819200 0

theorem length_sampleShard : sampleShard.length = 819200 := by
  rw [sampleShard, List.length_replicate]

def sampleCheckpoint : Checkpoint where
  layers := 48
  experts := 512
  tensors name := some (sampleTensor name.toList)
  files _ := some sampleShard
  fingerprint := .ok (Vector.replicate 32 7)

theorem endsWith_append (front : List Char) (name ending : String) :
    endsWith (front ++ name.toList) ending =
      ending.toList.reverse.isPrefixOf (name.toList.reverse ++ front.reverse) := by
  rw [endsWith, List.isSuffixOf, List.reverse_append]

theorem toList_tensorName (layer expert : Nat) (name : String) :
    ∃ front, (tensorName layer expert name).toList = front ++ name.toList :=
  ⟨_, String.toList_append⟩

theorem tensor_sample (name : String) :
    sampleCheckpoint.tensor name = .ok (sampleTensor name.toList) := rfl

theorem readExactAt_ok {checkpoint : Checkpoint} {file : String} {offset bytes : Nat} {contents : List UInt8}
    (hfile : checkpoint.files file = some contents) (hend : offset + bytes ≤ contents.length) :
    ∃ out, checkpoint.readExactAt file offset bytes = .ok out := by
  rw [Checkpoint.readExactAt, hfile]
  exact ⟨_, if_pos hend⟩

theorem readTensor_sample {layer expert bytes : Nat} {name dtype : String} {shape : List Nat}
    (h : ∀ front, sampleTensor (front ++ name.toList) = ⟨"shard", 0, bytes, dtype, shape⟩)
    (hbytes : bytes ≤ 819200) :
    ∃ out, readTensor sampleCheckpoint (tensorName layer expert name) dtype shape bytes = .ok out := by
  have htensor : sampleCheckpoint.tensor (tensorName layer expert name) =
      .ok ⟨"shard", 0, bytes, dtype, shape⟩ := by
    obtain ⟨front, hfront⟩ := toList_tensorName layer expert name
    rw [tensor_sample, hfront, h]
  have hvalid : validateLocation (tensorName layer expert name) ⟨"shard", 0, bytes, dtype, shape⟩ dtype
      shape bytes = .ok () := by
    rw [validateLocation, if_neg (by simp)]
  have hread : ∃ out, sampleCheckpoint.readExactAt "shard" 0 bytes = .ok out :=
    readExactAt_ok rfl (by rw [length_sampleShard]; omega)
  obtain ⟨out, hout⟩ := hread
  exact ⟨out, by rw [readTensor, htensor, ok_bind, hvalid, ok_bind, hout]⟩

theorem readScale_sample {layer expert rows columns : Nat} {name : String}
    (h : ∀ front, sampleTensor (front ++ name.toList) =
      ⟨"shard", 0, rows * columns, "F8_E4M3", [rows, columns]⟩) (hbytes : rows * columns ≤ 819200) :
    ∃ out, readInterleavedScale sampleCheckpoint (tensorName layer expert name) rows columns = .ok out := by
  have ⟨scale, hscale⟩ := @readTensor_sample layer expert _ name _ _ h hbytes
  exact ⟨_, by rw [readInterleavedScale, hscale, ok_bind]; rfl⟩

theorem readF32_sample {layer expert : Nat} {name : String}
    (h : ∀ front, sampleTensor (front ++ name.toList) = ⟨"shard", 0, 4, "F32", []⟩) :
    ∃ out, readF32 sampleCheckpoint (tensorName layer expert name) = .ok out := by
  have ⟨bits, hbits⟩ := @readTensor_sample layer expert 4 name _ _ h (by decide)
  exact ⟨_, by rw [readF32, hbits, ok_bind]; rfl⟩

theorem sampleTensor_weight (front : List Char) :
    sampleTensor (front ++ "gate_proj.weight".toList) = ⟨"shard", 0, 819200, "U8", [640, 1280]⟩ ∧
    sampleTensor (front ++ "up_proj.weight".toList) = ⟨"shard", 0, 819200, "U8", [640, 1280]⟩ ∧
    sampleTensor (front ++ "down_proj.weight".toList) = ⟨"shard", 0, 819200, "U8", [2560, 320]⟩ := by
  simp only [sampleTensor, endsWith_append]
  exact ⟨rfl, rfl, rfl⟩

theorem sampleTensor_scale (front : List Char) :
    sampleTensor (front ++ "gate_proj.weight_scale".toList) =
      ⟨"shard", 0, 640 * 160, "F8_E4M3", [640, 160]⟩ ∧
    sampleTensor (front ++ "up_proj.weight_scale".toList) =
      ⟨"shard", 0, 640 * 160, "F8_E4M3", [640, 160]⟩ ∧
    sampleTensor (front ++ "down_proj.weight_scale".toList) =
      ⟨"shard", 0, 2560 * 40, "F8_E4M3", [2560, 40]⟩ := by
  simp only [sampleTensor, endsWith_append]
  exact ⟨rfl, rfl, rfl⟩

theorem sampleTensor_factor (front : List Char) :
    sampleTensor (front ++ "gate_proj.input_scale".toList) = ⟨"shard", 0, 4, "F32", []⟩ ∧
    sampleTensor (front ++ "gate_proj.weight_scale_2".toList) = ⟨"shard", 0, 4, "F32", []⟩ ∧
    sampleTensor (front ++ "down_proj.input_scale".toList) = ⟨"shard", 0, 4, "F32", []⟩ ∧
    sampleTensor (front ++ "down_proj.weight_scale_2".toList) = ⟨"shard", 0, 4, "F32", []⟩ := by
  simp only [sampleTensor, endsWith_append]
  exact ⟨rfl, rfl, rfl, rfl⟩

theorem packRecord_sample (layer expert : Nat) :
    ∃ bytes, packRecord sampleCheckpoint layer expert = .ok bytes := by
  have ⟨gateWeight, hgateWeight⟩ := @readTensor_sample layer expert _ _ _ _
    (fun front => (sampleTensor_weight front).1) (by decide)
  have ⟨upWeight, hupWeight⟩ := @readTensor_sample layer expert _ _ _ _
    (fun front => (sampleTensor_weight front).2.1) (by decide)
  have ⟨downWeight, hdownWeight⟩ := @readTensor_sample layer expert _ _ _ _
    (fun front => (sampleTensor_weight front).2.2) (by decide)
  have ⟨gateScale, hgateScale⟩ := @readScale_sample layer expert _ _ _
    (fun front => (sampleTensor_scale front).1) (by decide)
  have ⟨upScale, hupScale⟩ := @readScale_sample layer expert _ _ _
    (fun front => (sampleTensor_scale front).2.1) (by decide)
  have ⟨downScale, hdownScale⟩ := @readScale_sample layer expert _ _ _
    (fun front => (sampleTensor_scale front).2.2) (by decide)
  have ⟨gateInput, hgateInput⟩ := @readF32_sample layer expert _ fun front => (sampleTensor_factor front).1
  have ⟨gateFactor, hgateFactor⟩ :=
    @readF32_sample layer expert _ fun front => (sampleTensor_factor front).2.1
  have ⟨downInput, hdownInput⟩ :=
    @readF32_sample layer expert _ fun front => (sampleTensor_factor front).2.2.1
  have ⟨downFactor, hdownFactor⟩ :=
    @readF32_sample layer expert _ fun front => (sampleTensor_factor front).2.2.2
  rw [packRecord]
  simp only [hgateWeight, hupWeight, hdownWeight, hgateScale, hupScale, hdownScale, hgateInput,
    hgateFactor, hdownInput, hdownFactor, ok_bind]
  exact ⟨_, rfl⟩

/-- Every piece of a list can be read. -/
def Readable (pieces : List (Except SidecarError (List UInt8))) : Prop :=
  ∀ piece ∈ pieces, ∃ bytes, piece = .ok bytes

theorem mapM_of_all {pieces : List (Except SidecarError (List UInt8))}
    (h : Readable pieces) : ∃ parts, pieces.mapM id = .ok parts := by
  induction pieces with
  | nil => exact ⟨[], rfl⟩
  | cons piece pieces ih =>
    obtain ⟨bytes, rfl⟩ := h piece (List.mem_cons_self ..)
    obtain ⟨parts, hparts⟩ := ih fun later hlater => h later (List.mem_cons_of_mem _ hlater)
    exact ⟨bytes :: parts, Plan.mapM_cons_ok.mpr ⟨parts, hparts, rfl⟩⟩

theorem scalarPiece_sample {layer expert : Nat} {projection input factor : String}
    {reciprocalInput : Bool} (hnames : projection ++ ".input_scale" = input ∧
      projection ++ ".weight_scale_2" = factor)
    (hinput : ∀ front, sampleTensor (front ++ input.toList) = ⟨"shard", 0, 4, "F32", []⟩)
    (hfactor : ∀ front, sampleTensor (front ++ factor.toList) = ⟨"shard", 0, 4, "F32", []⟩) :
    ∃ bytes, scalarPiece sampleCheckpoint layer expert projection reciprocalInput = .ok bytes := by
  obtain ⟨rfl, rfl⟩ := hnames
  have ⟨input, hinput⟩ := @readF32_sample layer expert _ hinput
  have ⟨factor, hfactor⟩ := @readF32_sample layer expert _ hfactor
  rw [scalarPiece, hinput, ok_bind, hfactor, ok_bind]
  cases reciprocalInput with
  | true => exact ⟨_, rfl⟩
  | false => exact ⟨_, rfl⟩

theorem Readable.append {front back : List (Except SidecarError (List UInt8))} (hfront : Readable front)
    (hback : Readable back) : Readable (front ++ back) :=
  fun piece hpiece => (List.mem_append.mp hpiece).elim (hfront piece) (hback piece)

theorem readable_plane (experts : List Nat) {piece : Nat → Except SidecarError (List UInt8)}
    (h : ∀ expert, ∃ bytes, piece expert = .ok bytes) : Readable (experts.map piece) := by
  intro p hp
  obtain ⟨expert, -, rfl⟩ := List.mem_map.mp hp
  exact h expert

theorem readable_pairs (experts : List Nat) {up gate : Nat → Except SidecarError (List UInt8)}
    (hup : ∀ expert, ∃ bytes, up expert = .ok bytes) (hgate : ∀ expert, ∃ bytes, gate expert = .ok bytes) :
    Readable (experts.flatMap fun expert => [up expert, gate expert]) := by
  intro p hp
  obtain ⟨expert, -, hp⟩ := List.mem_flatMap.mp hp
  rcases List.mem_pair.mp hp with rfl | rfl
  · exact hup expert
  · exact hgate expert

theorem layerPieces_sample (layer : Nat) : Readable (layerPieces sampleCheckpoint layer) := by
  have hweights := readable_pairs (List.range expertsPerLayerV2)
    (fun expert => @readTensor_sample layer expert _ _ _ _
      (fun front => (sampleTensor_weight front).2.1) (by decide))
    (fun expert => @readTensor_sample layer expert _ _ _ _
      (fun front => (sampleTensor_weight front).1) (by decide))
  have hdown := readable_plane (List.range expertsPerLayerV2)
    (fun expert => @readTensor_sample layer expert _ _ _ _
      (fun front => (sampleTensor_weight front).2.2) (by decide))
  have hscales := readable_pairs (List.range expertsPerLayerV2)
    (fun expert => @readScale_sample layer expert _ _ _
      (fun front => (sampleTensor_scale front).2.1) (by decide))
    (fun expert => @readScale_sample layer expert _ _ _
      (fun front => (sampleTensor_scale front).1) (by decide))
  have hdownScales := readable_plane (List.range expertsPerLayerV2)
    (fun expert => @readScale_sample layer expert _ _ _
      (fun front => (sampleTensor_scale front).2.2) (by decide))
  have hgate (reciprocalInput : Bool) := readable_plane (List.range expertsPerLayerV2)
    (fun expert => @scalarPiece_sample layer expert "gate_proj" _ _ reciprocalInput (by decide)
      (fun front => (sampleTensor_factor front).1) fun front => (sampleTensor_factor front).2.1)
  have hscalars (reciprocalInput : Bool) := readable_plane (List.range expertsPerLayerV2)
    (fun expert => @scalarPiece_sample layer expert "down_proj" _ _ reciprocalInput (by decide)
      (fun front => (sampleTensor_factor front).2.2.1) fun front => (sampleTensor_factor front).2.2.2)
  exact ((((((hweights.append hdown).append hscales).append hdownScales).append
    (hgate true)).append (hgate false)).append (hscalars true)).append (hscalars false)

theorem packedLayer_sample (layer : Nat) : ∃ bytes, packedLayer sampleCheckpoint layer = .ok bytes := by
  obtain ⟨parts, hparts⟩ := mapM_of_all (layerPieces_sample layer)
  exact ⟨parts.flatten, by rw [packedLayer, hparts, ok_bind]; rfl⟩

def samplePath : OutputPath := ⟨"", some "experts"⟩

theorem geometry_sample {format : Format} (hlayers : format.layers = 48)
    (hexperts : format.expertsPerLayer = 512) :
    validateCheckpointGeometry format sampleCheckpoint = .ok () := by
  rw [validateCheckpointGeometry, hlayers, hexperts]
  exact if_neg (by decide)

/-! ## Behind a first header -/

/-- A step of the opening of the partial file is one of the build. -/
theorem openPartial_mem_states {format : Format} {path : OutputPath} {fill : Inode → Header → Job Header}
    {sum : Image → Header → Nat → Except SidecarError UInt64} {checkpoint : Checkpoint}
    {fingerprint : Vector UInt8 32} {fileName : String} {fs : Fs}
    (hgeometry : validateCheckpointGeometry format checkpoint = .ok ())
    (hfingerprint : checkpoint.fingerprint = .ok fingerprint) (hname : path.fileName = some fileName)
    (hfs : fs ∈ ((openPartial format (format.header fingerprint false 0)).run FileSystem.empty).states) :
    fs ∈ ((buildSidecar format path sum checkpoint fill).run .empty).states := by
  have hpartial : path.partialPath format.noun = .ok (path.parent ++ fileName ++ ".partial") := by
    rw [OutputPath.partialPath, hname]
  unfold buildSidecar fileExists
  apply Script.mem_states_lift _ hgeometry
  apply Script.mem_states_lift _ hfingerprint
  apply Script.mem_states_lift _ (expectedHeader_ok format fingerprint false 0)
  refine Script.mem_states_answer false rfl ?_
  simp only [Bool.false_eq_true, if_false]
  unfold buildPartial
  apply Script.mem_states_lift _ hpartial
  exact Script.mem_states_bind hfs

/-- What a build from nothing leaves when it is cut behind its first header, and the power fails with all of that on
the device. -/
def Plan.headed {format : Format} (plan : Plan format) : Fs :=
  let fs := ((createPartial format (plan.header false 0)).run .empty).final
  ⟨fun inode => ⟨fs.image inode, []⟩, ⟨fs.lookup, []⟩, fs.next⟩

theorem Plan.headed_reachable {format : Format} (plan : Plan format) {path : OutputPath}
    {fill : Inode → Header → Job Header} {sum : Image → Header → Nat → Except SidecarError UInt64}
    {fileName : String} (hgeometry : validateCheckpointGeometry format plan.checkpoint = .ok ())
    (hfingerprint : plan.checkpoint.fingerprint = .ok plan.fingerprint) (hname : path.fileName = some fileName) :
    Reachable format (buildSidecar format path sum plan.checkpoint fill) plan.headed := by
  refine .crash (.cut .fresh (openPartial_mem_states hgeometry hfingerprint hname
    (show ((createPartial format (plan.header false 0)).run FileSystem.empty).final ∈ _ from ?_))) ?_
  · unfold openPartial fileExists
    refine Script.mem_states_answer false rfl ?_
    exact .tail _ (.tail _ (.tail _ (.head _)))
  · exact {
      entries := ⟨_, ⟨_, WriteBack.survives_refl _, rfl⟩, rfl⟩
      images := fun _ => ⟨_, ⟨_, WriteBack.survives_refl _, rfl⟩, rfl⟩
      next := rfl }

/-- And it is one that a later run goes on from. -/
theorem Plan.headed_resumable {format : Format} {plan : Plan format} (hidentified : plan.Identified) :
    plan.Resumable plan.headed := by
  obtain ⟨inode, -, hopened⟩ := Does.answers trivial (@createPartial_spec format plan True)
    ⟨⟨fsInv_empty, hidentified, rfl⟩, rfl⟩
  intro shown hshown
  obtain rfl := Option.some.inj (hopened.shown.symm.trans hshown)
  exact hopened.resumable trivial

def samplePlanV1 : Plan formatV1 := planV1 sampleCheckpoint sampleCheckpoint.identity

def samplePlanV2 : Plan formatV2 := planV2 sampleCheckpoint sampleCheckpoint.identity

theorem readyV1_sample {fs : Fs} (hresumable : samplePlanV1.Resumable fs) : samplePlanV1.Ready samplePath fs where
  identified := ⟨geometry_sample rfl rfl, rfl⟩
  named := rfl
  records index _ := packRecord_sample (index / 512) (index % 512)
  resumable _ := hresumable

theorem readyV2_sample {fs : Fs} (hresumable : samplePlanV2.Resumable fs) : samplePlanV2.Ready samplePath fs where
  identified := ⟨geometry_sample rfl rfl, rfl⟩
  named := rfl
  records index _ := packedLayer_sample index
  resumable _ := hresumable

theorem headedV1_reachable :
    Reachable formatV1 (buildExpertSidecar samplePath sampleCheckpoint) samplePlanV1.headed :=
  samplePlanV1.headed_reachable (geometry_sample rfl rfl) rfl rfl

theorem headedV2_reachable :
    Reachable formatV2 (buildExpertSidecarV2 samplePath sampleCheckpoint) samplePlanV2.headed :=
  samplePlanV2.headed_reachable (geometry_sample rfl rfl) rfl rfl

theorem headedV1_inv : samplePlanV1.FsInv samplePlanV1.headed :=
  Plan.reachable_inv (fun start => ⟨_, buildExpertSidecar_spec sampleCheckpoint samplePath start⟩)
    headedV1_reachable

theorem headedV2_inv : samplePlanV2.FsInv samplePlanV2.headed :=
  Plan.reachable_inv (fun start => ⟨_, buildExpertSidecarV2_spec sampleCheckpoint samplePath start⟩)
    headedV2_reachable

/-- Runs that are cut behind the first header, and resumed behind a power failure. -/
theorem published_sidecars_sound_sample :
    (∃ inode, ((buildExpertSidecar samplePath sampleCheckpoint).run samplePlanV1.headed).final.lookup .output =
        some inode ∧
      Sound formatV1 sampleCheckpoint
        (fun index => packRecord sampleCheckpoint (index / 512) (index % 512))
        (((buildExpertSidecar samplePath sampleCheckpoint).run samplePlanV1.headed).final.image inode)) ∧
    (∃ inode, ((buildExpertSidecarV2 samplePath sampleCheckpoint).run samplePlanV2.headed).final.lookup .output =
        some inode ∧
      Sound formatV2 sampleCheckpoint (packedLayer sampleCheckpoint)
        (((buildExpertSidecarV2 samplePath sampleCheckpoint).run samplePlanV2.headed).final.image inode)) := by
  have hreadyV1 := readyV1_sample (Plan.headed_resumable ⟨geometry_sample rfl rfl, rfl⟩)
  have hreadyV2 := readyV2_sample (Plan.headed_resumable ⟨geometry_sample rfl rfl, rfl⟩)
  have hv1 := buildExpertSidecar_spec sampleCheckpoint samplePath samplePlanV1.headed
  have hv2 := buildExpertSidecarV2_spec sampleCheckpoint samplePath samplePlanV2.headed
  obtain ⟨-, -, first, -, hfirst⟩ := hv1.answers hreadyV1 ⟨rfl, headedV1_inv⟩
  obtain ⟨-, -, second, -, hsecond⟩ := hv2.answers hreadyV2 ⟨rfl, headedV2_inv⟩
  obtain ⟨hsound, hsoundV2⟩ := published_sidecars_sound sampleCheckpoint samplePath
  exact ⟨⟨first, hfirst, (hsound _ first (.ended headedV1_reachable) hfirst).1⟩,
    second, hsecond, (hsoundV2 _ second (.ended headedV2_reachable) hsecond).1⟩

end Spark.Sidecar
