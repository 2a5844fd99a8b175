import Spark.Sidecar.Publication

/-!
# Builds, one step at a time

What each part of a builder needs, keeps and leaves, from the opening of the partial file to the
rename. Wherever a part is cut, the invariant of the file system holds; where it ends with an
error, the build was not `ready`.

* **`Building`** — a partial file with so many records committed.
* **`FillSpec`** — what a builder's loop has to do.
* **`buildSidecar_spec`** — every builder whose loop does that.
-/

namespace Spark.Sidecar

namespace Plan

variable {format : Format} (plan : Plan format)

/-- A build at work on the file `inode`, its first `committed` records on the device. -/
structure Building (inode : Inode) (committed : Nat) (fs : Fs) : Prop where
  inv : plan.FsInv fs
  identified : plan.Identified
  output : fs.lookup .output = none
  shown : fs.lookup .partialFile = some inode
  size : (fs.image inode).size = format.totalBytes
  marked : ∃ mark ≤ format.recordCount, committed ≤ mark ∧
    fs.Always (TornHeader format) (plan.Marked mark) inode

/-- The records from `first` up to `last` can be read back. -/
def Filled (inode : Inode) (first last : Nat) (fs : Fs) : Prop :=
  ∀ index, first ≤ index → index < last → plan.Holds (fs.image inode) index

variable {plan} {fs : Fs} {inode : Inode} {committed : Nat}

/-- A write behind the records that are committed leaves them whole. -/
theorem Building.update {offset : Nat} {bytes : List UInt8} (h : plan.Building inode committed fs)
    (hend : offset + bytes.length ≤ format.totalBytes)
    (hmarked : ∀ v, v = .write offset bytes ∨ TornHeader format (.write offset bytes) v →
      ∀ mark ≤ format.recordCount, committed ≤ mark → ∀ image, plan.Marked mark image →
        plan.Marked mark (image.apply v)) :
    plan.Building inode committed (fs.update inode (.write offset bytes)) := by
  obtain ⟨mark, hmark, hcommitted, halways⟩ := h.marked
  have hpush : WriteBack.Always Image.apply (TornHeader format) (plan.Marked mark)
      ((fs.inodes inode).push (.write offset bytes)) :=
    halways.push fun v hv image himage => hmarked v hv mark hmark hcommitted image himage
  refine ⟨h.inv.setFile h.output ⟨mark, hmark, hpush⟩, h.identified, h.output, h.shown, ?_,
    mark, hmark, hcommitted, ?_⟩
  · rw [FileSystem.image_update_same, Image.size_write, h.size]
    omega
  · simpa [FileSystem.Always, FileSystem.update] using hpush

/-- The barrier commits what was filled. -/
theorem Building.commit {last : Nat} (h : plan.Building inode committed fs)
    (hlast : last ≤ format.recordCount) (hfilled : plan.Filled inode committed last fs) :
    plan.Building inode last (fs.sync inode) := by
  obtain ⟨mark, hmark, hcommitted, halways⟩ := h.marked
  have hcurrent : plan.Marked mark (fs.image inode) := halways.current
  have hmax : plan.Marked (max mark last) (fs.image inode) := by
    refine ⟨fun index hindex => ?_, fun header hheader => ?_⟩
    · rcases Nat.lt_or_ge index mark with hlt | hge
      · exact hcurrent.holds index hlt
      · exact hfilled index (by omega) (by omega)
    · obtain ⟨complete, claimed, hheader, hclaimed, hcomplete⟩ := hcurrent.claims header hheader
      exact ⟨complete, claimed, hheader, by omega, hcomplete⟩
  have hsync : WriteBack.Always Image.apply (TornHeader format) (plan.Marked (max mark last))
      ((fs.inodes inode).sync Image.apply) := WriteBack.always_sync hmax
  refine ⟨h.inv.setFile h.output ⟨_, by omega, hsync⟩, h.identified, h.output, h.shown, ?_,
    max mark last, by omega, by omega, ?_⟩
  · rw [FileSystem.image_sync, h.size]
  · simpa [FileSystem.Always, FileSystem.sync] using hsync

theorem Building.sync (h : plan.Building inode committed fs) :
    plan.Building inode committed (fs.sync inode) := by
  obtain ⟨mark, hmark, hcommitted, -⟩ := h.marked
  exact h.commit (by omega) fun index hfirst hlast => absurd hlast (by omega)

theorem Building.lower {fewer : Nat} (h : plan.Building inode committed fs) (hfewer : fewer ≤ committed) :
    plan.Building inode fewer fs := by
  obtain ⟨mark, hmark, hcommitted, halways⟩ := h.marked
  exact { h with marked := ⟨mark, hmark, by omega, halways⟩ }

/-! ## Writes -/

theorem header_in_file : headerBytes ≤ format.totalBytes :=
  Nat.le_trans (header_before_record format 0) (by unfold Format.recordAt Format.totalBytes; omega)

theorem Building.write_header {complete : Bool} (h : plan.Building inode committed fs)
    (hcomplete : complete = true → committed = format.recordCount) :
    plan.Building inode committed
      (fs.update inode (.write 0 (serializeHeader format (plan.header complete committed)))) := by
  refine h.update ?_ ?_
  · rw [length_serializeHeader]
    exact header_in_file
  · rintro v (rfl | hv) mark - hmark image himage
    · exact himage.write_header hmark hcomplete
    · obtain ⟨-, scrap, rfl, hlength, hscrap⟩ := tornHeader_iff.mp hv
      exact himage.write_torn hlength hscrap

/-- Only a header can be torn. -/
theorem not_torn {offset : Nat} {bytes : List UInt8} {v : Image.Update} (hoffset : 0 < offset) :
    ¬ TornHeader format (.write offset bytes) v := by
  intro hv
  obtain ⟨hzero, -⟩ := tornHeader_iff.mp hv
  omega

theorem headerBytes_pos : 0 < headerBytes := by decide

/-- A record that is not committed may be written at any time. -/
theorem Building.write_record {index start : Nat} {bytes : List UInt8}
    (h : plan.Building inode committed fs) (hindex : index < format.recordCount)
    (hend : start + bytes.length ≤ format.recordBytes)
    (hpart : ∀ whole, plan.record index = .ok whole → (whole.drop start).take bytes.length = bytes) :
    plan.Building inode committed
      (fs.update inode (.write (format.recordAt index + start) bytes)) := by
  have hpos := header_before_record format index
  have hheader := headerBytes_pos
  have hplace := recordAt_end format hindex
  refine h.update (by omega) ?_
  rintro v (rfl | hv) mark hmark - image himage
  · exact himage.write_record hmark hend hpart
  · exact absurd hv (not_torn (by omega))

theorem Building.write_checksum {index : Nat} {whole : List UInt8}
    (h : plan.Building inode committed fs) (hindex : index < format.recordCount)
    (hok : plan.record index = .ok whole) :
    plan.Building inode committed
      (fs.update inode (.write (checksumAt index) (leBytes 8 (crc64Ecma whole).toNat))) := by
  have hend := checksumAt_end format hindex
  have hplace := recordAt_end format hindex
  have hheader := headerBytes_pos
  refine h.update ?_ ?_
  · unfold Format.recordAt at hplace
    rw [length_leBytes]
    unfold checksumBytes at hend
    omega
  · rintro v (rfl | hv) mark hmark - image himage
    · exact himage.write_checksum hindex hok
    · exact absurd hv (not_torn (by unfold checksumAt; omega))

theorem Filled.write_record {first last index start : Nat} {bytes : List UInt8}
    (h : plan.Filled inode first last fs) (hlast : last ≤ format.recordCount)
    (hend : start + bytes.length ≤ format.recordBytes)
    (hpart : ∀ whole, plan.record index = .ok whole → (whole.drop start).take bytes.length = bytes) :
    plan.Filled inode first last
      (fs.update inode (.write (format.recordAt index + start) bytes)) := by
  intro i hfirst hi
  rw [FileSystem.image_update_same]
  exact (h i hfirst hi).write_record (by omega) hend hpart

/-- The checksum adds a record to those that are filled. -/
theorem Filled.write_checksum {first index : Nat} {whole : List UInt8}
    (h : plan.Filled inode first index fs) (hindex : index < format.recordCount)
    (hok : plan.record index = .ok whole)
    (hslice : (fs.image inode).cells.slice (format.recordAt index) format.recordBytes = whole) :
    plan.Filled inode first (index + 1)
      (fs.update inode (.write (checksumAt index) (leBytes 8 (crc64Ecma whole).toNat))) := by
  intro i hfirst hi
  rw [FileSystem.image_update_same]
  by_cases hlast : i = index
  · rw [hlast]
    exact holds_of_checksum hindex hok hslice
  · exact (h i hfirst (by omega)).write_checksum hindex hok

/-! ## Reads -/

section Reads

variable {image : Image} {complete : Bool} {committed index : Nat}

theorem readExactAt_of_le {offset bytes : Nat} (h : offset + bytes ≤ image.size) :
    readExactAt image offset bytes = .ok (image.cells.slice offset bytes) := by
  rw [readExactAt, Image.read?, if_pos h]

/-- In a file of its full size the header can be read. -/
theorem readHeaderFrom_eq (hsize : image.size = format.totalBytes) :
    readHeaderFrom format image = parseHeader format (image.cells.slice 0 headerBytes) := by
  have hin : headerBytes ≤ format.totalBytes := header_in_file
  rw [readHeaderFrom, readExactAt_of_le (by omega), ok_bind]

variable (plan)

theorem toNat_totalBytes : (plan.header complete committed).totalBytes.toNat = format.totalBytes :=
  UInt64.toNat_ofNat_of_lt' format.totalBytes_lt

theorem toNat_recordCount : (plan.header complete committed).recordCount.toNat = format.recordCount :=
  UInt64.toNat_ofNat_of_lt' format.recordCount_lt

theorem toNat_recordBytes (hindex : index < format.recordCount) :
    (plan.header complete committed).recordBytes.toNat = format.recordBytes := by
  have hend := recordAt_end format hindex
  exact UInt64.toNat_ofNat_of_lt' (Nat.lt_of_le_of_lt (by omega) format.totalBytes_lt)

theorem toNat_recordsOffset : (plan.header complete committed).recordsOffset.toNat = format.recordsOffset :=
  UInt64.toNat_ofNat_of_lt' (Nat.lt_of_le_of_lt (Nat.le_add_right _ _) format.totalBytes_lt)

theorem toNat_committed (h : committed ≤ format.recordCount) :
    (plan.header complete committed).committed.toNat = committed :=
  UInt64.toNat_ofNat_of_lt' (Nat.lt_of_le_of_lt h format.recordCount_lt)

theorem recordOffset_eq (hindex : index < format.recordCount) :
    recordOffset (plan.header complete committed) index = .ok (format.recordAt index) := by
  have hend := recordAt_end format hindex
  have htotal := format.totalBytes_lt
  unfold Format.recordAt at hend
  rw [recordOffset, toNat_recordBytes plan hindex, toNat_recordsOffset, checked_mul (by omega)]
  exact checked_add (by omega)

theorem checksumOffset_eq (hindex : index < format.recordCount) :
    checksumOffset (plan.header complete committed) index = .ok (checksumAt index) := by
  have hend := checksumAt_end format hindex
  have hplace := recordAt_end format hindex
  have htotal := format.totalBytes_lt
  unfold checksumAt at hend
  unfold Format.recordAt at hplace
  rw [checksumOffset, checked_mul (by omega)]
  exact checked_add (show headerBytes + index * checksumBytes < 2 ^ 64 by omega)

theorem readChecksum_eq (hsize : image.size = format.totalBytes) (hindex : index < format.recordCount) :
    readChecksum image (plan.header complete committed) index =
      .ok (UInt64.ofNat (leNat (image.cells.slice (checksumAt index) checksumBytes))) := by
  have hend := checksumAt_end format hindex
  have hplace := recordAt_end format hindex
  unfold Format.recordAt at hplace
  rw [readChecksum, checksumOffset_eq plan hindex, ok_bind, readExactAt_of_le (by omega), ok_bind]
  rfl

theorem readRecord_eq (hsize : image.size = format.totalBytes) (hindex : index < format.recordCount) :
    readRecord image (plan.header complete committed) index =
      .ok (image.cells.slice (format.recordAt index) format.recordBytes) := by
  have hend := recordAt_end format hindex
  rw [readRecord, recordOffset_eq plan hindex, toNat_recordBytes plan hindex]
  exact readExactAt_of_le (by omega)

/-- A way to recompute checksums that agrees with the CRC of the whole record. -/
def SumSpec (sum : Image → Header → Nat → Except SidecarError UInt64) : Prop :=
  ∀ (image : Image) (complete : Bool) (committed index : Nat), image.size = format.totalBytes →
    index < format.recordCount → sum image (plan.header complete committed) index =
      .ok (crc64Ecma (image.cells.slice (format.recordAt index) format.recordBytes))

theorem recordSum_spec : plan.SumSpec recordSum := by
  intro image complete committed index hsize hindex
  rw [recordSum, readRecord_eq plan hsize hindex]
  rfl

end Reads

/-- The buffer of `checksum_range` does not change the checksum. -/
theorem checksumLoop_eq {image : Image} (crc : UInt64) (offset bytes : Nat)
    (hend : offset + bytes ≤ image.size) (hsize : image.size < 2 ^ 64) :
    checksumLoop image crc offset bytes = .ok (crc64Update crc (image.cells.slice offset bytes)) := by
  fun_induction checksumLoop image crc offset bytes with
  | case1 crc offset => rfl
  | case2 crc offset bytes hbytes take ih =>
    have htake : take ≤ bytes := Nat.min_le_left _ _
    rw [readExactAt_of_le (by omega), ok_bind, checked_add (show offset + take < 2 ^ 64 by omega),
      ok_bind, ih _ _ (by omega), ← crc64Update_append, ← Mem.slice_add]
    congr 3
    omega

theorem layerSum_spec (plan : Plan format) : plan.SumSpec layerSum := by
  intro image complete committed index hsize hindex
  have hend := recordAt_end format hindex
  have htotal := format.totalBytes_lt
  rw [layerSum, recordOffset_eq plan hindex, ok_bind, toNat_recordBytes plan hindex, checksumRange,
    checksumLoop_eq 0 _ _ (by omega) (by omega)]
  rfl

/-! ## Parts of a run -/

variable (plan) (ready : Prop)

/-- A part of a build: the invariant holds wherever it is cut, and it fails only when the build was
not ready. -/
abbrev Does {α : Type} (pre : Fs → Prop) (x : Job α) (post : α → Fs → Prop) : Prop :=
  Script.Triple plan.FsInv (fun fs => plan.FsInv fs ∧ ¬ ready) pre x post

variable {plan ready}

theorem writeHeader_spec {complete : Bool} (hcomplete : complete = true → committed = format.recordCount) :
    plan.Does ready (plan.Building inode committed)
      (writeHeader format inode (plan.header complete committed))
      (fun _ => plan.Building inode committed) :=
  Script.triple_act fun _ h => ⟨(h.write_header hcomplete).inv, h.write_header hcomplete⟩

theorem writeHeader_building : plan.Does ready (plan.Building inode committed)
    (writeHeader format inode (plan.header false committed)) (fun _ => plan.Building inode committed) :=
  writeHeader_spec fun h => Bool.noConfusion h

theorem withCommitted_header {complete : Bool} (n : Nat) :
    (plan.header complete committed).withCommitted (UInt64.ofNat n) = plan.header complete n := rfl

theorem syncFile_spec : plan.Does ready (plan.Building inode committed) (syncFile inode)
    (fun _ => plan.Building inode committed) :=
  Script.triple_act fun _ h => ⟨h.sync.inv, h.sync⟩

theorem committed_eq_zero_iff {complete : Bool} (h : committed ≤ format.recordCount) :
    (plan.header complete committed).committed = 0 ↔ committed = 0 := by
  rw [← UInt64.toNat_inj, toNat_committed plan h]
  rfl

/-- Recovery keeps the header or gives one record back. -/
theorem recoverLastCommitted_spec {sum : Image → Header → Nat → Except SidecarError UInt64}
    (hsum : plan.SumSpec sum) (h : committed ≤ format.recordCount) :
    plan.Does ready (plan.Building inode committed)
      (recoverLastCommitted format sum inode (plan.header false committed))
      (fun header fs => ∃ resumed ≤ format.recordCount, header = plan.header false resumed ∧
        plan.Building inode resumed fs) := by
  unfold recoverLastCommitted
  split
  · exact Script.triple_pure fun fs hfs => ⟨committed, h, rfl, hfs⟩
  · next hpos =>
    rw [committed_eq_zero_iff h] at hpos
    rw [toNat_committed plan h]
    have hlast : committed - 1 < format.recordCount := by omega
    refine Script.triple_bind (fun _ => plan.Building inode committed)
      (Script.triple_ask (fun _ _ hfs _ => hfs) fun fs e hfs he => ?_) fun actual => ?_
    · rw [hsum _ _ _ _ hfs.size hlast] at he
      cases he
    refine Script.triple_bind (fun _ => plan.Building inode committed)
      (Script.triple_ask (fun _ _ hfs _ => hfs) fun fs e hfs he => ?_) fun stored => ?_
    · rw [readChecksum_eq plan hfs.size hlast] at he
      cases he
    rw [withCommitted_header]
    split
    · refine Script.triple_bind (fun _ => plan.Building inode (committed - 1))
        (writeHeader_building.weaken (fun fs hfs => hfs.lower (by omega)) fun _ _ hfs => hfs)
        fun _ => ?_
      refine Script.triple_bind (fun _ => plan.Building inode (committed - 1)) syncFile_spec
        fun _ => ?_
      exact Script.triple_pure fun fs hfs => ⟨committed - 1, by omega, rfl, hfs⟩
    · exact Script.triple_pure fun fs hfs => ⟨committed, h, rfl, hfs⟩

/-! ## The loops -/

variable (plan ready) in
/-- A loop that takes a build to its last record. -/
def FillSpec (fill : Inode → Header → Job Header) : Prop :=
  ∀ inode committed, committed ≤ format.recordCount →
    plan.Does ready (plan.Building inode committed) (fill inode (plan.header false committed))
      (fun header fs => header = plan.header false format.recordCount ∧
        plan.Building inode format.recordCount fs)

/-- The checksum of a record in place makes one more record filled. -/
theorem writeChecksum_spec {index : Nat} {whole : List UInt8} {sum : UInt64}
    (hindex : index < format.recordCount) (hok : plan.record index = .ok whole)
    (hsum : sum = crc64Ecma whole) :
    plan.Does ready
      (fun fs => plan.Building inode committed fs ∧ plan.Filled inode committed index fs ∧
        (fs.image inode).cells.slice (format.recordAt index) format.recordBytes = whole)
      (writeChecksum inode (plan.header false committed) index sum)
      (fun _ fs => plan.Building inode committed fs ∧ plan.Filled inode committed (index + 1) fs) := by
  subst hsum
  unfold writeChecksum
  refine Script.triple_answer _ (fun _ _ => checksumOffset_eq plan hindex) (Script.triple_act ?_)
  rintro fs ⟨hbuilding, hfilled, hslice⟩
  have hafter := hbuilding.write_checksum hindex hok
  exact ⟨hafter.inv, hafter, hfilled.write_checksum hindex hok hslice⟩

/-- What was filled becomes what is committed. -/
theorem commitHeader_spec {last : Nat} (hlast : last ≤ format.recordCount) :
    plan.Does ready
      (fun fs => plan.Building inode committed fs ∧ plan.Filled inode committed last fs)
      (commitHeader format inode (plan.header false last))
      (fun _ => plan.Building inode last) := by
  refine Script.triple_bind (fun _ => plan.Building inode last) (Script.triple_act ?_) fun _ => ?_
  · rintro fs ⟨hbuilding, hfilled⟩
    have hafter := hbuilding.commit hlast hfilled
    exact ⟨hafter.inv, hafter⟩
  · exact Script.triple_bind (fun _ => plan.Building inode last) writeHeader_building fun _ => syncFile_spec

/-! ### Batches of records -/

section Batches

/-- One record where it belongs. -/
theorem writeRecord_spec {index : Nat} {record : List UInt8}
    (hindex : index < format.recordCount) (hok : plan.record index = .ok record) :
    plan.Does ready
      (fun fs => plan.Building inode committed fs ∧ plan.Filled inode committed index fs)
      (writeAllAt inode record (format.recordAt index))
      (fun _ fs => plan.Building inode committed fs ∧ plan.Filled inode committed index fs ∧
        (fs.image inode).cells.slice (format.recordAt index) format.recordBytes = record) := by
  have hlength := plan.length index record hok
  have hpart : ∀ whole, plan.record index = .ok whole → (whole.drop 0).take record.length = record := by
    intro whole hwhole
    obtain rfl : record = whole := Except.ok.inj (hok.symm.trans hwhole)
    rw [List.drop_zero, List.take_length]
  refine Script.triple_act ?_
  rintro fs ⟨hbuilding, hfilled⟩
  have hend : 0 + record.length ≤ format.recordBytes := by omega
  have hafter := hbuilding.write_record hindex hend hpart
  have hstill := hfilled.write_record (by omega) hend hpart
  rw [Nat.add_zero] at hafter hstill
  refine ⟨hafter.inv, hafter, hstill, ?_⟩
  rw [FileSystem.image_update_same, Image.cells_write, ← hlength]
  exact Mem.slice_write_self _ _ _

theorem writeRecords_spec
    (hready : ready → ∀ index < format.recordCount, ∃ bytes, plan.record index = .ok bytes)
    {index count : Nat} (hcount : index + count ≤ format.recordCount) :
    plan.Does ready
      (fun fs => plan.Building inode committed fs ∧ plan.Filled inode committed index fs)
      (writeRecords inode plan.record (plan.header false committed) index count)
      (fun _ fs => plan.Building inode committed fs ∧
        plan.Filled inode committed (index + count) fs) := by
  induction count generalizing index with
  | zero => exact Script.triple_pure fun fs hfs => hfs
  | succ count ih =>
    have hindex : index < format.recordCount := by omega
    unfold writeRecords
    refine Script.triple_bind (fun record fs => plan.record index = .ok record ∧ _)
      (Script.triple_lift (fun fs record hfs hrecord => ⟨hrecord, hfs⟩) fun fs e hfs he => ?_)
      fun record => Script.triple_of_fact fun hok => ?_
    · refine ⟨hfs.1.inv, fun h => ?_⟩
      obtain ⟨bytes, hbytes⟩ := hready h index hindex
      cases he.symm.trans hbytes
    refine Script.triple_answer _ (fun _ _ => recordOffset_eq plan hindex) ?_
    refine Script.triple_bind _ (writeRecord_spec hindex hok) fun _ => ?_
    refine Script.triple_bind _ (writeChecksum_spec hindex hok rfl) fun _ => ?_
    have hrest := ih (show index + 1 + count ≤ format.recordCount by omega)
    rwa [Nat.add_assoc, Nat.add_comm 1 count] at hrest

/-- The batches of records, each behind the commit of the one before. -/
theorem packBatches_spec
    (hready : ready → ∀ index < format.recordCount, ∃ bytes, plan.record index = .ok bytes)
    (h : committed ≤ format.recordCount) :
    plan.Does ready (plan.Building inode committed)
      (packBatches format inode plan.record (plan.header false committed) committed)
      (fun header fs => header = plan.header false format.recordCount ∧
        plan.Building inode format.recordCount fs) := by
  induction hleft : format.recordCount - committed using Nat.strong_induction_on generalizing committed with
  | _ left ih =>
    rw [packBatches, toNat_recordCount]
    split
    · next hmore =>
      generalize hbatch : min format.recordCount (Word.saturatingAdd 64 committed syncRecords) = batchEnd
      have hcount := format.recordCount_lt
      have hbounds : committed < batchEnd ∧ batchEnd ≤ format.recordCount := by
        unfold Word.saturatingAdd syncRecords at hbatch
        omega
      obtain ⟨hlt, hle⟩ := hbounds
      refine Script.triple_bind
        (fun _ fs => plan.Building inode committed fs ∧ plan.Filled inode committed batchEnd fs)
        ?_ fun _ => ?_
      · have hend : committed + (batchEnd - committed) = batchEnd := by omega
        refine (writeRecords_spec hready (by omega)).weaken ?_ fun _ fs hfs => ?_
        · exact fun fs hfs => ⟨hfs, fun i hfirst hi => absurd hi (by omega)⟩
        · rw [hend] at hfs
          exact hfs
      · rw [withCommitted_header]
        refine Script.triple_bind _ (commitHeader_spec hle) fun _ => ?_
        exact ih _ (by omega) hle rfl
    · next hdone =>
      have hall : committed = format.recordCount := by omega
      exact Script.triple_pure fun fs hfs => by rw [hall] at hfs ⊢; exact ⟨rfl, hfs⟩

end Batches

/-! ### Streamed layers -/

section Layers

variable {layer : Nat}

variable (plan) in
/-- Pieces that go on from `done`: whatever the layer is, it is `done` and then they. -/
def Continues (layer : Nat) (done : List UInt8) (pieces : List (Except SidecarError (List UInt8))) : Prop :=
  ∀ whole, plan.record layer = .ok whole →
    ∃ parts, pieces.mapM id = .ok parts ∧ whole = done ++ parts.flatten

variable (plan) in
/-- The layer's first bytes are in place. -/
def Streamed (inode : Inode) (layer : Nat) (done : List UInt8) (fs : Fs) : Prop :=
  plan.Building inode layer fs ∧
    (fs.image inode).cells.slice (format.recordAt layer) done.length = done

theorem mapM_cons_ok {bytes : List UInt8} {pieces : List (Except SidecarError (List UInt8))}
    {parts : List (List UInt8)} :
    (Except.ok bytes :: pieces).mapM id = .ok parts ↔
      ∃ rest, pieces.mapM id = .ok rest ∧ parts = bytes :: rest := by
  rw [List.mapM_cons, id, ok_bind]
  constructor
  · intro h
    obtain ⟨rest, hrest, h⟩ := bind_ok h
    exact ⟨rest, hrest, (Except.ok.inj h).symm⟩
  · rintro ⟨rest, hrest, rfl⟩
    rw [hrest]
    rfl

theorem Continues.tail {done bytes : List UInt8} {pieces : List (Except SidecarError (List UInt8))}
    (h : plan.Continues layer done (.ok bytes :: pieces)) :
    plan.Continues layer (done ++ bytes) pieces := by
  intro whole hwhole
  obtain ⟨parts, hparts, rfl⟩ := h whole hwhole
  obtain ⟨rest, hrest, rfl⟩ := mapM_cons_ok.mp hparts
  exact ⟨rest, hrest, by rw [List.flatten_cons, List.append_assoc]⟩

/-- The next piece is what the layer has next. -/
theorem Continues.part {done bytes : List UInt8} {pieces : List (Except SidecarError (List UInt8))}
    (h : plan.Continues layer done (.ok bytes :: pieces)) :
    ∀ whole, plan.record layer = .ok whole → (whole.drop done.length).take bytes.length = bytes := by
  intro whole hwhole
  obtain ⟨parts, -, rfl⟩ := h.tail whole hwhole
  rw [List.append_assoc, List.drop_left, List.take_left]

theorem Streamed.write {done bytes : List UInt8} {fs : Fs}
    (h : plan.Streamed inode layer done fs) (hlayer : layer < format.recordCount)
    (hend : done.length + bytes.length ≤ format.recordBytes)
    (hpart : ∀ whole, plan.record layer = .ok whole →
      (whole.drop done.length).take bytes.length = bytes) :
    plan.Streamed inode layer (done ++ bytes)
      (fs.update inode (.write (format.recordAt layer + done.length) bytes)) := by
  refine ⟨h.1.write_record hlayer hend hpart, ?_⟩
  rw [FileSystem.image_update_same, Image.cells_write, List.length_append, Mem.slice_add,
    Mem.slice_write_of_apart _ (.inl (Nat.le_refl _)), h.2, Mem.slice_write_self]

theorem packPieces_spec
    (hready : ready → ∀ index < format.recordCount, ∃ bytes, plan.record index = .ok bytes)
    (hlayer : layer < format.recordCount) {sizes : List Nat}
    {pieces : List (Except SidecarError (List UInt8))} {done : List UInt8} (hsized : Sized sizes pieces)
    (hsum : done.length + sizes.sum = format.recordBytes) (hnext : plan.Continues layer done pieces) :
    plan.Does ready (plan.Streamed inode layer done)
      (packPieces inode pieces (format.recordAt layer + done.length) (crc64Ecma done))
      (fun answer fs => ∃ parts, pieces.mapM id = .ok parts ∧
        answer = (format.recordAt layer + (done ++ parts.flatten).length,
          crc64Ecma (done ++ parts.flatten)) ∧
        plan.Streamed inode layer (done ++ parts.flatten) fs) := by
  induction hsized generalizing done with
  | nil =>
    refine Script.triple_pure fun fs hfs => ⟨[], rfl, ?_⟩
    rw [List.flatten_nil, List.append_nil]
    exact ⟨rfl, hfs⟩
  | @cons size piece sizes pieces hpiece _ ih =>
    rw [List.sum_cons] at hsum
    unfold packPieces
    refine Script.triple_bind (fun bytes fs => piece = .ok bytes ∧ plan.Streamed inode layer done fs)
      (Script.triple_lift (fun fs bytes hfs hbytes => ⟨hbytes, hfs⟩) fun fs e hfs he => ?_)
      fun bytes => Script.triple_of_fact ?_
    · -- a piece that cannot be read is a record that cannot be packed
      refine ⟨hfs.1.inv, fun h => ?_⟩
      obtain ⟨whole, hwhole⟩ := hready h layer hlayer
      obtain ⟨parts, hparts, -⟩ := hnext whole hwhole
      rw [he, List.mapM_cons] at hparts
      cases hparts
    rintro rfl
    have hlength := hpiece bytes rfl
    have hplace := recordAt_end format hlayer
    have htotal := format.totalBytes_lt
    refine Script.triple_bind (fun _ => plan.Streamed inode layer (done ++ bytes))
      (Script.triple_act fun fs hfs => ?_) fun _ => ?_
    · have hafter := hfs.write hlayer (by omega) hnext.part
      exact ⟨hafter.1.inv, hafter⟩
    refine Script.triple_answer _ (fun _ _ => checked_add (by omega)) ?_
    rw [Nat.add_assoc, ← List.length_append]
    have hcrc : crc64Update (crc64Ecma done) bytes = crc64Ecma (done ++ bytes) :=
      (crc64Update_append 0 done bytes).symm
    rw [hcrc]
    refine (ih (by rw [List.length_append]; omega) hnext.tail).weaken (fun _ hfs => hfs) ?_
    rintro answer fs ⟨rest, hrest, hanswer, hfs⟩
    refine ⟨bytes :: rest, mapM_cons_ok.mpr ⟨rest, hrest, rfl⟩, ?_⟩
    rw [List.flatten_cons, ← List.append_assoc]
    exact ⟨hanswer, hfs⟩

variable {pieces : Nat → List (Except SidecarError (List UInt8))}

/-- The second builder's records are its streamed pieces. -/
structure Streams (plan : Plan format) (pieces : Nat → List (Except SidecarError (List UInt8))) : Prop where
  record : ∀ layer, plan.record layer = (do return (← (pieces layer).mapM id).flatten)
  sized : ∀ layer, ∃ sizes, Sized sizes (pieces layer) ∧ sizes.sum = format.recordBytes
  layers : format.layers.toNat = format.recordCount

theorem packLayer_spec (hstreams : Streams plan pieces)
    (hready : ready → ∀ index < format.recordCount, ∃ bytes, plan.record index = .ok bytes)
    (hlayer : layer < format.recordCount) :
    plan.Does ready (plan.Building inode layer)
      (packLayer format inode pieces (format.recordAt layer) layer)
      (fun sum fs => ∃ whole, plan.record layer = .ok whole ∧ sum = crc64Ecma whole ∧
        plan.Building inode layer fs ∧
        (fs.image inode).cells.slice (format.recordAt layer) format.recordBytes = whole) := by
  obtain ⟨sizes, hsized, hsum⟩ := hstreams.sized layer
  have hstart : plan.Continues layer [] (pieces layer) := by
    intro whole hwhole
    rw [hstreams.record] at hwhole
    obtain ⟨parts, hparts, hwhole⟩ := bind_ok hwhole
    exact ⟨parts, hparts, (Except.ok.inj hwhole).symm⟩
  have hpieces : plan.Does ready (plan.Streamed inode layer []) _ _ :=
    packPieces_spec hready hlayer hsized (by rw [List.length_nil, hsum, Nat.zero_add]) hstart
  simp only [List.nil_append, List.length_nil, Nat.add_zero] at hpieces
  unfold packLayer
  refine Script.triple_bind _ (hpieces.weaken (fun fs hfs => ⟨hfs, rfl⟩) fun _ _ hfs => hfs) ?_
  rintro ⟨cursor, crc⟩
  refine Script.triple_exists fun parts => Script.triple_of_fact fun hparts =>
    Script.triple_of_fact fun hanswer => ?_
  obtain ⟨rfl, rfl⟩ := Prod.mk.inj hanswer
  have hwhole : plan.record layer = .ok parts.flatten := by
    rw [hstreams.record, hparts]
    rfl
  have hlength := plan.length layer _ hwhole
  simp only [hlength, Nat.add_sub_cancel_left, ne_eq, not_true_eq_false, if_false]
  refine Script.triple_pure fun fs hfs => ⟨parts.flatten, hwhole, rfl, hfs.1, ?_⟩
  rw [← hlength]
  exact hfs.2

theorem layerFileOffset_eq (hstreams : Streams plan pieces) (hlayer : layer < format.recordCount) :
    layerFileOffset format (plan.header false committed) layer = .ok (format.recordAt layer) := by
  unfold layerFileOffset
  rw [if_neg (by rw [hstreams.layers]; omega), recordOffset_eq plan hlayer]

/-- The same for the layers. -/
theorem packLayers_spec (hstreams : Streams plan pieces)
    (hready : ready → ∀ index < format.recordCount, ∃ bytes, plan.record index = .ok bytes)
    {remaining : Nat} (h : committed + remaining = format.recordCount) :
    plan.Does ready (plan.Building inode committed)
      (packLayers format inode pieces (plan.header false committed) remaining)
      (fun header fs => header = plan.header false format.recordCount ∧
        plan.Building inode format.recordCount fs) := by
  induction remaining generalizing committed with
  | zero =>
    rw [← h]
    exact Script.triple_pure fun fs hfs => ⟨rfl, hfs⟩
  | succ remaining ih =>
    have hlayer : committed < format.recordCount := by omega
    have hadd : (plan.header false committed).committed + 1 = UInt64.ofNat (committed + 1) :=
      (UInt64.ofNat_add committed 1).symm
    unfold packLayers
    rw [toNat_committed plan (by omega), hadd, withCommitted_header]
    refine Script.triple_answer _ (fun _ _ => layerFileOffset_eq hstreams hlayer) ?_
    refine Script.triple_bind _ (packLayer_spec hstreams hready hlayer) fun sum => ?_
    refine Script.triple_bind
      (fun _ fs => plan.Building inode committed fs ∧ plan.Filled inode committed (committed + 1) fs)
      ?_ fun _ => ?_
    · refine Script.triple_exists fun whole => Script.triple_of_fact fun hwhole =>
        Script.triple_of_fact fun hsum => ?_
      refine (writeChecksum_spec hlayer hwhole hsum).weaken ?_ fun _ _ hfs => hfs
      exact fun fs hfs => ⟨hfs.1, fun i hfirst hi => absurd hi (by omega), hfs.2⟩
    · refine Script.triple_bind _ (commitHeader_spec (by omega)) fun _ => ?_
      exact ih (by omega)

end Layers

/-! ## Opening -/

variable (plan) in
/-- The header that a file shows is one of a build in progress. -/
def Headed (inode : Inode) (fs : Fs) : Prop :=
  ∃ committed, parseHeader format ((fs.image inode).cells.slice 0 headerBytes) =
    .ok (plan.header false committed)

variable (plan ready) in
/-- The partial file is open; if the build was ready, it can be resumed. -/
structure Opened (inode : Inode) (fs : Fs) : Prop where
  inv : plan.FsInv fs
  identified : plan.Identified
  output : fs.lookup .output = none
  shown : fs.lookup .partialFile = some inode
  resumable : ready → (fs.image inode).size = format.totalBytes ∧ plan.Headed inode fs

theorem parse_written_header {complete : Bool} :
    parseHeader format (((fs.update inode (.write 0 (serializeHeader format
      (plan.header complete committed)))).image inode).cells.slice 0 headerBytes) =
      .ok (plan.header complete committed) := by
  rw [FileSystem.image_update_same, Image.cells_write, slice_header (length_serializeHeader _ _),
    parseHeader_serializeHeader]

/-- A new file of the right length is a build that has committed nothing. -/
theorem building_created (h : plan.FsInv fs) (hidentified : plan.Identified)
    (houtput : fs.lookup .output = none) :
    plan.Building fs.next 0
      ((fs.create .partialFile).update fs.next (.setLen format.totalBytes)) := by
  have hcreated := h.create houtput
  have hblank : (fs.create .partialFile).inodes fs.next = ⟨.blank, []⟩ := Function.update_self ..
  have hnone : (fs.create .partialFile).lookup .output = none := by
    rw [FileSystem.lookup_create, Function.update_of_ne (by decide), houtput]
  have hzero : WriteBack.Always Image.apply (TornHeader format) (plan.Marked 0)
      (((fs.create .partialFile).inodes fs.next).push (.setLen format.totalBytes)) := by
    rw [hblank]
    have hcells : WriteBack.Always Image.apply (TornHeader format) (fun image => ∀ i, image.cells i = 0)
        ⟨.blank, []⟩ := WriteBack.always_stored.mpr fun _ => rfl
    refine WriteBack.Always.mono (hcells.push ?_) fun image himage => marked_zero himage
    rintro v (rfl | hv) image himage i
    · show (if i < min format.totalBytes image.size then image.cells i else 0) = 0
      rw [himage i, ite_self]
    · cases hv
  refine ⟨hcreated.setFile hnone ⟨0, Nat.zero_le _, hzero⟩, hidentified, hnone, ?_, ?_,
    0, Nat.zero_le _, Nat.le_refl 0, ?_⟩
  · rw [FileSystem.lookup_update, FileSystem.lookup_create, Function.update_self]
  · rw [FileSystem.image_update_same]
    rfl
  · simpa [FileSystem.Always, FileSystem.update] using hzero

variable (plan) in
/-- A build may start on a new file. -/
structure Startable (fs : Fs) : Prop where
  inv : plan.FsInv fs
  identified : plan.Identified
  output : fs.lookup .output = none

theorem createNew_spec :
    plan.Does ready (fun fs => plan.Startable fs ∧ fs.lookup .partialFile = none)
      (createNew .partialFile)
      (fun created fs => ∃ before, plan.Startable before ∧ created = before.next ∧
        fs = before.create .partialFile) := by
  unfold createNew
  refine Script.triple_bind (fun created fs => plan.Startable fs ∧ created = fs.next)
    (Script.triple_ask ?_ ?_) fun created => ?_
  · rintro fs inode ⟨hstart, hnone⟩ hinode
    rw [hnone] at hinode
    exact ⟨hstart, (Except.ok.inj hinode).symm⟩
  · rintro fs e ⟨hstart, hnone⟩ he
    rw [hnone] at he
    cases he
  refine Script.triple_bind
    (fun _ fs => ∃ before, plan.Startable before ∧ created = before.next ∧
      fs = before.create .partialFile) (Script.triple_act ?_) fun _ => Script.triple_pure fun _ h => h
  rintro fs ⟨hstart, hcreated⟩
  exact ⟨hstart.inv.create hstart.output, fs, hstart, hcreated, rfl⟩

theorem createPartial_spec :
    plan.Does ready (fun fs => plan.Startable fs ∧ fs.lookup .partialFile = none)
      (createPartial format (plan.header false 0)) (plan.Opened ready) := by
  unfold createPartial
  rw [toNat_totalBytes]
  refine Script.triple_bind _ createNew_spec fun created => ?_
  refine Script.triple_bind (fun _ => plan.Building created 0) (Script.triple_act ?_) fun _ => ?_
  · rintro fs ⟨before, hstart, rfl, rfl⟩
    have hafter := building_created hstart.inv hstart.identified hstart.output
    exact ⟨hafter.inv, hafter⟩
  refine Script.triple_bind (fun _ fs => plan.Building created 0 fs ∧ plan.Headed created fs)
    (Script.triple_act fun fs hfs => ?_) fun _ => ?_
  · have hafter := hfs.write_header (show false = true → 0 = format.recordCount from nofun)
    exact ⟨hafter.inv, hafter, 0, parse_written_header⟩
  refine Script.triple_bind (fun _ fs => plan.Building created 0 fs ∧ plan.Headed created fs)
    (Script.triple_act ?_) fun _ => ?_
  · rintro fs ⟨hfs, committed, hheaded⟩
    exact ⟨hfs.sync.inv, hfs.sync, committed, by rw [FileSystem.image_sync]; exact hheaded⟩
  · refine Script.triple_pure ?_
    rintro fs ⟨hfs, hheaded⟩
    exact ⟨hfs.inv, hfs.identified, hfs.output, hfs.shown, fun _ => ⟨hfs.size, hheaded⟩⟩

variable (plan) in
/-- The partial file that is there, if any, can be resumed from. -/
def Resumable (fs : Fs) : Prop :=
  ∀ inode, fs.lookup .partialFile = some inode →
    (fs.image inode).size = format.totalBytes ∧ plan.Headed inode fs

theorem fileExists_spec {P : Fs → Prop} (entry : Entry) :
    plan.Does ready P (fileExists entry) (fun found fs => (fs.lookup entry).isSome = found ∧ P fs) :=
  Script.triple_ask (fun _ _ hfs hfound => ⟨Except.ok.inj hfound, hfs⟩) nofun

/-- A partial file is taken up where it fits the plan, and created where there is none. -/
theorem openPartial_spec :
    plan.Does ready (fun fs => plan.Startable fs ∧ (ready → plan.Resumable fs))
      (openPartial format (plan.header false 0)) (plan.Opened ready) := by
  unfold openPartial
  refine Script.triple_bind _ (fileExists_spec .partialFile) fun found => ?_
  cases found with
  | true =>
    refine Script.triple_ask ?_ ?_
    · rintro fs inode ⟨-, hstart, hresumable⟩ hopen
      split at hopen
      · next shown hshown =>
        cases hopen
        exact ⟨hstart.inv, hstart.identified, hstart.output, hshown,
          fun h => hresumable h _ hshown⟩
      · cases hopen
    · rintro fs e ⟨hfound, hstart, -⟩ hopen
      split at hopen
      · cases hopen
      · next hshown =>
        rw [hshown] at hfound
        cases hfound
  | false =>
    refine createPartial_spec.weaken ?_ fun _ _ h => h
    rintro fs ⟨hfound, hstart, -⟩
    exact ⟨hstart, by simpa using hfound⟩

/-- What a build reads of a file it has opened. -/
theorem resumeHeader_spec {sum : Image → Header → Nat → Except SidecarError UInt64}
    (hsum : plan.SumSpec sum) {partialName : String} :
    plan.Does ready (plan.Opened ready inode)
      (resumeHeader format sum (plan.header false 0) partialName inode)
      (fun header fs => ∃ resumed ≤ format.recordCount, header = plan.header false resumed ∧
        plan.Building inode resumed fs) := by
  unfold resumeHeader
  rw [toNat_totalBytes]
  refine Script.triple_bind (fun length fs => length = (fs.image inode).size ∧ plan.Opened ready inode fs)
    (Script.triple_ask (fun _ _ hfs hlength => ⟨(Except.ok.inj hlength).symm, hfs⟩) nofun) fun length => ?_
  split
  · next hlength =>
    refine Script.triple_lift nofun ?_
    rintro fs e ⟨rfl, hfs⟩ -
    exact ⟨hfs.inv, fun h => hlength (hfs.resumable h).1⟩
  · next hlength =>
    rw [Classical.not_not] at hlength
    -- what the file shows is one of its outcomes, so its header is the plan's
    refine Script.triple_bind (fun header fs => ∃ complete committed, header = plan.header complete committed ∧
        committed ≤ format.recordCount ∧ (ready → complete = false) ∧ plan.Building inode committed fs)
      (Script.triple_ask ?_ ?_) fun header => ?_
    · rintro fs header ⟨hsize, hfs⟩ hheader
      rw [hlength] at hsize
      rw [readHeaderFrom_eq hsize.symm] at hheader
      obtain ⟨mark, hmark, halways⟩ := hfs.inv.files inode
      obtain ⟨complete, committed, rfl, hcommitted, -⟩ := halways.current.claims header hheader
      refine ⟨complete, committed, rfl, by omega, fun h => ?_, hfs.inv, hfs.identified, hfs.output,
        hfs.shown, hsize.symm, mark, hmark, hcommitted, halways⟩
      obtain ⟨-, claimed, hclaimed⟩ := hfs.resumable h
      rw [hclaimed] at hheader
      exact (congrArg Header.stateComplete (Except.ok.inj hheader)).symm
    · rintro fs e ⟨hsize, hfs⟩ hheader
      rw [hlength] at hsize
      rw [readHeaderFrom_eq hsize.symm] at hheader
      refine ⟨hfs.inv, fun h => ?_⟩
      obtain ⟨-, claimed, hclaimed⟩ := hfs.resumable h
      rw [hclaimed] at hheader
      cases hheader
    · refine Script.triple_exists fun complete => Script.triple_exists fun committed =>
        Script.triple_of_fact ?_
      rintro rfl
      refine Script.triple_of_fact fun hcommitted => Script.triple_of_fact fun hbuilding => ?_
      have hvalidate : validateHeader format (plan.header complete committed) (plan.header false 0) false = _ :=
        validateHeader_building format plan.fingerprint hcommitted
      rw [hvalidate]
      cases complete with
      | true =>
        refine Script.triple_bind (fun _ _ => False) (Script.triple_lift nofun fun fs e hfs _ => ?_) nofun
        exact ⟨hfs.inv, fun h => Bool.noConfusion (hbuilding h)⟩
      | false =>
        refine Script.triple_bind (fun _ => plan.Building inode committed)
          (Script.triple_lift (fun _ _ hfs _ => hfs) nofun) fun _ => ?_
        exact recoverLastCommitted_spec hsum hcommitted

end Plan

end Spark.Sidecar
