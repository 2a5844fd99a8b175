import Spark.Sidecar.Builder

/-!
# What a power loss may leave of a sidecar

A build marks the records it has committed. However its pending writes turn out, the records below
the mark are on the device, and no header claims more than the mark.

* **`Marked`** — the property of one image.
* **`FsInv`** — the invariant of the file system over runs, cuts and power losses.
* **`Complete`** — a published image.
-/

namespace Spark.Sidecar

/-- A header that was cut short: no block that `parseHeader` accepts. -/
inductive TornHeader (format : Format) : Image.Update → Image.Update → Prop
  | torn {block scrap : List UInt8} (hlength : scrap.length = headerBytes)
      (hscrap : ∀ header, parseHeader format scrap ≠ .ok header) :
      TornHeader format (.write 0 block) (.write 0 scrap)

theorem tornHeader_iff {format : Format} {offset : Nat} {block : List UInt8} {v : Image.Update} :
    TornHeader format (.write offset block) v ↔ offset = 0 ∧ ∃ scrap, v = .write 0 scrap ∧
      scrap.length = headerBytes ∧ ∀ header, parseHeader format scrap ≠ .ok header := by
  constructor
  · rintro ⟨hlength, hscrap⟩
    exact ⟨rfl, _, rfl, hlength, hscrap⟩
  · rintro ⟨rfl, scrap, rfl, hlength, hscrap⟩
    exact .torn hlength hscrap

/-! ## Where things are -/

namespace Format

variable (format : Format)

def recordAt (index : Nat) : Nat := format.recordsOffset + index * format.recordBytes

end Format

def checksumAt (index : Nat) : Nat := headerBytes + index * checksumBytes

section Places

variable (format : Format)

theorem checksums_before_records : headerBytes + format.recordCount * checksumBytes ≤ format.recordsOffset := by
  unfold Format.recordsOffset
  omega

theorem checksumAt_end {index : Nat} (h : index < format.recordCount) :
    checksumAt index + checksumBytes ≤ format.recordsOffset := by
  have hrecords := checksums_before_records format
  unfold checksumAt checksumBytes at *
  omega

theorem recordAt_add_le {i j : Nat} (h : i < j) :
    format.recordAt i + format.recordBytes ≤ format.recordAt j := by
  have hmul : (i + 1) * format.recordBytes ≤ j * format.recordBytes := Nat.mul_le_mul_right _ h
  unfold Format.recordAt
  rw [Nat.add_mul, Nat.one_mul] at hmul
  omega

theorem recordAt_end {index : Nat} (h : index < format.recordCount) :
    format.recordAt index + format.recordBytes ≤ format.totalBytes :=
  recordAt_add_le format h

theorem header_before_record (index : Nat) : headerBytes ≤ format.recordAt index := by
  have hrecords := checksums_before_records format
  unfold Format.recordAt
  omega

end Places

/-! ## Images -/

namespace Plan

variable {format : Format} (plan : Plan format)

/-- Record `index` and its checksum are in the image. -/
def Holds (image : Image) (index : Nat) : Prop :=
  ∃ bytes, plan.record index = .ok bytes ∧
    image.cells.slice (format.recordAt index) format.recordBytes = bytes ∧
    image.cells.slice (checksumAt index) checksumBytes = leBytes 8 (crc64Ecma bytes).toNat

/-- The header of the plan with `committed` records. -/
def header (complete : Bool) (committed : Nat) : Header :=
  format.header plan.fingerprint complete committed

/-- The records below `mark` are in the image, and its header, if it has one, claims no more. -/
structure Marked (mark : Nat) (image : Image) : Prop where
  holds : ∀ index < mark, plan.Holds image index
  claims : ∀ header, parseHeader format (image.cells.slice 0 headerBytes) = .ok header →
    ∃ complete committed, header = plan.header complete committed ∧ committed ≤ mark ∧
      (complete = true → committed = format.recordCount)

variable {plan} {image : Image} {mark : Nat}

/-- A write that shows the record and its checksum as they were keeps the record. -/
theorem Holds.write {index offset : Nat} {bytes : List UInt8} (h : plan.Holds image index)
    (hrecord : (image.cells.write offset bytes).slice (format.recordAt index) format.recordBytes =
      image.cells.slice (format.recordAt index) format.recordBytes)
    (hsum : (image.cells.write offset bytes).slice (checksumAt index) checksumBytes =
      image.cells.slice (checksumAt index) checksumBytes) :
    plan.Holds (image.apply (.write offset bytes)) index := by
  obtain ⟨whole, hok, hslice, hchecksum⟩ := h
  exact ⟨whole, hok, hrecord.trans hslice, hsum.trans hchecksum⟩

/-- A write to the header area keeps every record. -/
theorem Holds.write_header {index : Nat} {block : List UInt8} (h : plan.Holds image index)
    (hblock : block.length = headerBytes) : plan.Holds (image.apply (.write 0 block)) index := by
  have hrecord := header_before_record format index
  refine h.write (Mem.slice_write_of_apart _ ?_) (Mem.slice_write_of_apart _ ?_)
  · exact .inr (by omega)
  · exact .inr (by unfold checksumAt; omega)

/-- Writing part of a record where it belongs keeps every record: those it does not touch stay, and
the one it touches already reads like that. -/
theorem Holds.write_record {i index start : Nat} {bytes : List UInt8} (h : plan.Holds image i)
    (hi : i < format.recordCount) (hend : start + bytes.length ≤ format.recordBytes)
    (hpart : ∀ whole, plan.record index = .ok whole → (whole.drop start).take bytes.length = bytes) :
    plan.Holds (image.apply (.write (format.recordAt index + start) bytes)) i := by
  have hsum : (image.cells.write (format.recordAt index + start) bytes).slice (checksumAt i)
      checksumBytes = image.cells.slice (checksumAt i) checksumBytes := by
    have hbefore := checksumAt_end format hi
    refine Mem.slice_write_of_apart _ (.inl ?_)
    unfold Format.recordAt
    omega
  rcases Nat.lt_trichotomy i index with hlt | rfl | hgt
  · have hplace := recordAt_add_le format hlt
    exact h.write (Mem.slice_write_of_apart _ (.inl (by omega))) hsum
  · have ⟨whole, hok, hslice, _⟩ := h
    have hsame : bytes = image.cells.slice (format.recordAt i + start) bytes.length := by
      rw [← Mem.take_drop_slice image.cells hend, hslice, hpart whole hok]
    refine h.write ?_ hsum
    rw [hsame, Mem.write_slice]
  · have hplace := recordAt_add_le format hgt
    exact h.write (Mem.slice_write_of_apart _ (.inr (by omega))) hsum

theorem slice_record_write_checksum {index i : Nat} (cells : Mem UInt8) (sum : UInt64)
    (hindex : index < format.recordCount) :
    (cells.write (checksumAt index) (leBytes 8 sum.toNat)).slice (format.recordAt i)
      format.recordBytes = cells.slice (format.recordAt i) format.recordBytes := by
  have hend := checksumAt_end format hindex
  refine Mem.slice_write_of_apart _ (.inr ?_)
  rw [length_leBytes]
  unfold checksumBytes at hend
  unfold Format.recordAt
  omega

/-- And so does writing the checksum of a record. -/
theorem Holds.write_checksum {i index : Nat} {whole : List UInt8} (h : plan.Holds image i)
    (hindex : index < format.recordCount) (hok : plan.record index = .ok whole) :
    plan.Holds (image.apply (.write (checksumAt index) (leBytes 8 (crc64Ecma whole).toNat))) i := by
  have hrecord := slice_record_write_checksum (i := i) image.cells (crc64Ecma whole) hindex
  by_cases hsame : i = index
  · subst hsame
    have ⟨bytes, hbytes, _, hchecksum⟩ := h
    obtain rfl : whole = bytes := Except.ok.inj (hok.symm.trans hbytes)
    refine h.write hrecord ?_
    rw [← hchecksum, Mem.write_slice]
  · refine h.write hrecord (Mem.slice_write_of_apart _ ?_)
    rw [length_leBytes]
    unfold checksumAt checksumBytes
    omega

/-- The checksum completes a record that is in place. -/
theorem holds_of_checksum {index : Nat} {whole : List UInt8} (hindex : index < format.recordCount)
    (hok : plan.record index = .ok whole)
    (hslice : image.cells.slice (format.recordAt index) format.recordBytes = whole) :
    plan.Holds (image.apply (.write (checksumAt index) (leBytes 8 (crc64Ecma whole).toNat))) index := by
  refine ⟨whole, hok, ?_, ?_⟩
  · rw [Image.cells_write, slice_record_write_checksum image.cells _ hindex, hslice]
  · have hself := Mem.slice_write_self image.cells (checksumAt index)
      (leBytes 8 (crc64Ecma whole).toNat)
    rw [length_leBytes] at hself
    exact hself

/-! ### Marks -/

theorem slice_header {cells : Mem UInt8} {block : List UInt8} (hblock : block.length = headerBytes) :
    (cells.write 0 block).slice 0 headerBytes = block := by
  rw [← hblock]
  exact Mem.slice_write_self cells 0 block

theorem Marked.write_header {complete : Bool} {committed : Nat} (h : plan.Marked mark image)
    (hmark : committed ≤ mark) (hcomplete : complete = true → committed = format.recordCount) :
    plan.Marked mark
      (image.apply (.write 0 (serializeHeader format (plan.header complete committed)))) where
  holds index hindex := (h.holds index hindex).write_header (length_serializeHeader _ _)
  claims header hheader := by
    rw [Image.cells_write, slice_header (length_serializeHeader _ _), parseHeader_serializeHeader]
      at hheader
    cases hheader
    exact ⟨complete, committed, rfl, hmark, hcomplete⟩

theorem Marked.write_torn {scrap : List UInt8} (h : plan.Marked mark image)
    (hlength : scrap.length = headerBytes) (hscrap : ∀ header, parseHeader format scrap ≠ .ok header) :
    plan.Marked mark (image.apply (.write 0 scrap)) where
  holds index hindex := (h.holds index hindex).write_header hlength
  claims header hheader := by
    rw [Image.cells_write, slice_header hlength] at hheader
    exact absurd hheader (hscrap header)

theorem Marked.write_record {index start : Nat} {bytes : List UInt8} (h : plan.Marked mark image)
    (hmark : mark ≤ format.recordCount) (hend : start + bytes.length ≤ format.recordBytes)
    (hpart : ∀ whole, plan.record index = .ok whole → (whole.drop start).take bytes.length = bytes) :
    plan.Marked mark (image.apply (.write (format.recordAt index + start) bytes)) where
  holds i hi := (h.holds i hi).write_record (Nat.lt_of_lt_of_le hi hmark) hend hpart
  claims header hheader := by
    have hbefore := header_before_record format index
    rw [Image.cells_write, Mem.slice_write_of_apart _ (.inl (by omega))] at hheader
    exact h.claims header hheader

theorem Marked.write_checksum {index : Nat} {whole : List UInt8} (h : plan.Marked mark image)
    (hindex : index < format.recordCount) (hok : plan.record index = .ok whole) :
    plan.Marked mark
      (image.apply (.write (checksumAt index) (leBytes 8 (crc64Ecma whole).toNat))) where
  holds i hi := (h.holds i hi).write_checksum hindex hok
  claims header hheader := by
    rw [Image.cells_write, Mem.slice_write_of_apart _ (.inl (by unfold checksumAt; omega))] at hheader
    exact h.claims header hheader

/-- An image of zeros has no header and needs no records. -/
theorem marked_zero (h : ∀ i, image.cells i = 0) : plan.Marked 0 image where
  holds index hindex := absurd hindex (Nat.not_lt_zero index)
  claims header hheader := by
    refine absurd hheader (parseHeader_zero format ?_)
    have hslice := Mem.take_drop_slice image.cells (a := 0) (n := headerBytes) (p := 0) (q := 16)
      (by decide)
    rw [List.drop_zero] at hslice
    rw [hslice]
    simp [Mem.slice, h]

/-! ## The file system -/

variable (plan)

/-- The checkpoint is one the builder accepts, under the fingerprint of the plan. -/
structure Identified : Prop where
  geometry : validateCheckpointGeometry format plan.checkpoint = .ok ()
  fingerprint : plan.checkpoint.fingerprint = .ok plan.fingerprint

/-- A finished sidecar. -/
structure Complete (image : Image) : Prop where
  identified : plan.Identified
  size : image.size = format.totalBytes
  header : parseHeader format (image.cells.slice 0 headerBytes) =
    .ok (plan.header true format.recordCount)
  holds : ∀ index < format.recordCount, plan.Holds image index

def FileInv (file : WriteBack Image Image.Update) : Prop :=
  ∃ mark ≤ format.recordCount, file.Always Image.apply (TornHeader format) (plan.Marked mark)

/-- Every file is marked, and only complete files can show up under the output name. -/
structure FsInv (fs : Fs) : Prop where
  files : ∀ inode, plan.FileInv (fs.inodes inode)
  published : fs.DirAlways fun entries => ∀ inode, entries .output = some inode →
    fs.Always (TornHeader format) plan.Complete inode
  hidden : fs.lookup .output = none → fs.DirAlways fun entries => entries .output = none

variable {plan} {fs fs' : Fs} {inode : Inode}

theorem fileInv_blank : plan.FileInv ⟨.blank, []⟩ :=
  ⟨0, Nat.zero_le _, WriteBack.always_stored.mpr (marked_zero fun _ => rfl)⟩

theorem fsInv_empty : plan.FsInv .empty where
  files _ := fileInv_blank
  published := WriteBack.always_stored.mpr nofun
  hidden _ := WriteBack.always_stored.mpr rfl

/-- A power loss keeps the invariant: what it leaves is one of the outcomes. -/
theorem FsInv.crash (h : plan.FsInv fs) (hcrash : fs.Crash (TornHeader format) fs') :
    plan.FsInv fs' := by
  obtain ⟨entries, houtcome, hdir⟩ := hcrash.entries
  refine ⟨?_, ?_, ?_⟩
  · intro inode
    obtain ⟨mark, hmark, halways⟩ := h.files inode
    obtain ⟨image, himage, hfile⟩ := hcrash.images inode
    rw [hfile]
    exact ⟨mark, hmark, WriteBack.always_stored.mpr (halways image himage)⟩
  · rw [FileSystem.DirAlways, hdir, WriteBack.always_stored]
    intro inode hinode
    obtain ⟨image, himage, hfile⟩ := hcrash.images inode
    rw [FileSystem.Always, hfile, WriteBack.always_stored]
    exact h.published entries houtcome inode hinode image himage
  · intro hnone
    rw [FileSystem.lookup, hdir] at hnone
    rw [FileSystem.DirAlways, hdir, WriteBack.always_stored]
    exact hnone

/-- While no output is shown, any file may change, as long as it stays marked. -/
theorem FsInv.setFile (h : plan.FsInv fs) (hnone : fs.lookup .output = none)
    {file : WriteBack Image Image.Update} (hfile : plan.FileInv file) :
    plan.FsInv { fs with inodes := Function.update fs.inodes inode file } where
  files other := by
    show plan.FileInv (Function.update fs.inodes inode file other)
    by_cases hother : other = inode
    · subst hother
      rw [Function.update_self]
      exact hfile
    · rw [Function.update_of_ne hother]
      exact h.files other
  published entries houtcome other hother := by
    rw [h.hidden hnone entries houtcome] at hother
    cases hother
  hidden := h.hidden

theorem FsInv.create (h : plan.FsInv fs) (hnone : fs.lookup .output = none) :
    plan.FsInv (fs.create .partialFile) where
  files := (h.setFile hnone fileInv_blank).files
  published := by
    refine ((h.hidden hnone).push ?_).mono fun entries hentries other hother => ?_
    · rintro v (rfl | hv) entries hentries
      · exact hentries
      · exact hv.elim
    · rw [hentries] at hother
      cases hother
  hidden _ := by
    refine (h.hidden hnone).push ?_
    rintro v (rfl | hv) entries hentries
    · exact hentries
    · exact hv.elim

theorem FsInv.rename (h : plan.FsInv fs) (hcomplete : fs.Always (TornHeader format) plan.Complete inode) :
    plan.FsInv (fs.rename .partialFile .output inode) where
  files := h.files
  published := by
    refine h.published.push ?_
    rintro v (rfl | hv) entries hentries other hother
    · have hsame : inode = other := Option.some.inj hother
      rw [← hsame]
      exact hcomplete
    · exact hv.elim
  hidden hnone := by
    rw [FileSystem.lookup_rename, Function.update_self] at hnone
    cases hnone

theorem FsInv.syncDir (h : plan.FsInv fs) : plan.FsInv fs.syncDir where
  files := h.files
  published := WriteBack.always_sync h.published.current
  hidden hnone := WriteBack.always_sync hnone

end Plan

end Spark.Sidecar
