import Spark.Lib.Traverse
import Spark.Ple.Codec

/-!
# What the PLE decoder accepts

The decoder is stated once as what it reads: each of its functions succeeds exactly when the words at its
offsets and its checks agree. From left to right this says what an accepted index promises; from right to
left it is how bytes come to be accepted.

* **`readHeader_eq_ok`**, **`checkHeader_eq_ok`**, **`decodeRecord_eq_ok`** — what is read and checked.
* **`accepted_of_decode`** — an index that was read tiles its rows.
* **`decode_ne_panic`** — no payload makes a slice go out of range.
-/

namespace Spark.Ple

open Pack

/-! ## What the decoder reads -/

theorem reject_eq_ok {bad : Prop} [Decidable bad] {e : PleIndexError} {u : Unit} :
    reject bad e = .ok u ↔ ¬ bad := by
  rw [reject]
  split <;> simp_all

theorem inRange_eq_ok {value : Option Nat} {n : Nat} : inRange value = .ok n ↔ value = some n := by
  cases value <;> simp [inRange]

theorem sliceAt_eq_ok {payload bytes : List UInt8} {offset count : Nat} :
    sliceAt payload offset count = .ok bytes ↔ slice payload offset count = some bytes := by
  rw [sliceAt]
  split <;> simp_all

theorem readWord_eq_ok {count : Nat} {payload : List UInt8} {offset value : Nat} :
    readWord count payload offset = .ok value ↔ word payload offset count = some value := by
  rw [readWord]
  split <;> simp_all

/-- The words of a header are at their offsets. -/
structure HeaderAt (payload : List UInt8) (header : Header) : Prop where
  length : pleIndexHeaderBytes ≤ payload.length
  magic : slice payload 0 8 = some pleIndexMagic
  version : word payload 8 4 = some header.version
  headerBytes : word payload 12 4 = some header.headerBytes
  pageBytes : word payload 16 4 = some header.pageBytes
  rowBytes : word payload 20 4 = some header.rowBytes
  dtype : word payload 24 4 = some header.dtype
  shardCount : word payload 28 4 = some header.shardCount
  totalRows : word payload 32 8 = some header.totalRows
  scaleBf16Bits : word payload 40 4 = some header.scaleBf16Bits
  recordsBytes : word payload 44 4 = some header.recordsBytes
  stringsBytes : word payload 48 4 = some header.stringsBytes
  storedCrc : word payload 60 4 = some header.storedCrc

theorem readHeader_eq_ok {payload : List UInt8} {header : Header} :
    readHeader payload = .ok header ↔ HeaderAt payload header := by
  simp only [readHeader, readU32, readU64, Traverse.bind_eq_ok, reject_eq_ok, sliceAt_eq_ok, readWord_eq_ok]
  constructor
  · rintro ⟨-, hlength, magic, hslice, -, hmagic, version, hversion, headerBytes, hheaderBytes, pageBytes,
      hpageBytes, rowBytes, hrowBytes, dtype, hdtype, shardCount, hshardCount, totalRows, htotalRows, scale,
      hscale, recordsBytes, hrecordsBytes, stringsBytes, hstringsBytes, storedCrc, hstoredCrc, heq⟩
    cases heq
    rw [not_not] at hmagic
    rw [hmagic] at hslice
    exact ⟨Nat.not_lt.mp hlength, hslice, hversion, hheaderBytes, hpageBytes, hrowBytes, hdtype, hshardCount,
      htotalRows, hscale, hrecordsBytes, hstringsBytes, hstoredCrc⟩
  · intro h
    exact ⟨(), Nat.not_lt.mpr h.length, _, h.magic, (), not_not.mpr rfl, _, h.version, _, h.headerBytes, _,
      h.pageBytes, _, h.rowBytes, _, h.dtype, _, h.shardCount, _, h.totalRows, _, h.scaleBf16Bits, _,
      h.recordsBytes, _, h.stringsBytes, _, h.storedCrc, rfl⟩

/-- A header that fits its payload. -/
structure Checked (payload : List UInt8) (header : Header) : Prop where
  version : header.version = pleIndexVersion
  headerBytes : header.headerBytes = pleIndexHeaderBytes
  dtype : header.dtype = pleDtypeFp8E4m3
  pageBytes : 0 < header.pageBytes ∧ header.pageBytes.isPowerOfTwo
  rowBytes : 0 < header.rowBytes
  scale : header.scaleBf16Bits ≤ 65535
  records : header.recordsBytes = header.shardCount * pleIndexRecordBytes
  length : payload.length = header.headerBytes + header.recordsBytes + header.stringsBytes
  small : payload.length < 2 ^ 64
  checksum : ∃ stored, slice payload 60 4 = some stored ∧
    (crc32 (patch payload 60 (List.replicate stored.length 0))).toNat = header.storedCrc

theorem checkHeader_eq_ok {payload : List UInt8} {header : Header} {u : Unit} :
    checkHeader payload header = .ok u ↔ Checked payload header := by
  simp only [checkHeader, clearChecksum, Traverse.bind_eq_ok, reject_eq_ok, inRange_eq_ok, sliceAt_eq_ok,
    Word.checkedMul_eq_some, Option.bind_eq_some_iff, Word.checkedAdd_eq_some]
  constructor
  · rintro ⟨-, hversion, -, hdtype, -, hlayout, -, hscale, records, ⟨-, rfl⟩, -, hrecords, size,
      ⟨_, ⟨-, rfl⟩, hsmall, rfl⟩, -, hlength, checked, ⟨stored, hstored, hcheck⟩, hcrc⟩
    cases hcheck
    simp only [not_or, not_not, not_lt] at *
    rw [← hlength] at hsmall
    exact ⟨hversion.1, hversion.2, hdtype, ⟨Nat.pos_of_ne_zero hlayout.1, hlayout.2.1⟩,
      Nat.pos_of_ne_zero hlayout.2.2, hscale, hrecords, hlength, hsmall, stored, hstored, hcrc⟩
  · intro h
    obtain ⟨stored, hstored, hcrc⟩ := h.checksum
    have hlength := h.length
    have hsmall := h.small
    have hrecords := h.records
    have hsize : header.shardCount * pleIndexRecordBytes < 2 ^ 64 := by omega
    refine ⟨(), ?_, (), ?_, (), ?_, (), ?_, _, ⟨hsize, rfl⟩, (), ?_, _, ⟨_, ⟨by omega, rfl⟩, ?_, rfl⟩, (), ?_, _,
      ⟨stored, hstored, rfl⟩, ?_⟩
    · rw [not_or, not_not, not_not]
      exact ⟨h.version, h.headerBytes⟩
    · exact not_not.mpr h.dtype
    · rw [not_or, not_or, not_not]
      exact ⟨h.pageBytes.1.ne', h.pageBytes.2, h.rowBytes.ne'⟩
    · exact Nat.not_lt.mpr h.scale
    · exact not_not.mpr hrecords
    · rwa [← hlength]
    · exact not_not.mpr hlength
    · exact not_not.mpr hcrc

/-- A record is at its place in the table and its path in the strings. -/
structure RecordAt (payload : List UInt8) (header : Header) (ordinal : Nat) (shard : PleShard) : Prop where
  globalRowStart : word payload (header.headerBytes + ordinal * pleIndexRecordBytes) 8 = some shard.globalRowStart
  rowCount : word payload (header.headerBytes + ordinal * pleIndexRecordBytes + 8) 8 = some shard.rowCount
  dataOffset : word payload (header.headerBytes + ordinal * pleIndexRecordBytes + 16) 8 = some shard.dataOffset
  dataBytes : word payload (header.headerBytes + ordinal * pleIndexRecordBytes + 24) 8 = some shard.dataBytes
  path : ∃ pathOffset pathLen rawPath,
    word payload (header.headerBytes + ordinal * pleIndexRecordBytes + 32) 4 = some pathOffset ∧
    word payload (header.headerBytes + ordinal * pleIndexRecordBytes + 36) 4 = some pathLen ∧
    pathOffset + pathLen < 2 ^ 64 ∧ pathOffset + pathLen ≤ header.stringsBytes ∧
    slice payload (header.headerBytes + header.recordsBytes + pathOffset) pathLen = some rawPath ∧
    fromUtf8 rawPath = some shard.relativePath

/-- A shard that the checks of a record let pass. -/
structure ShardOk (rowBytes expectedRow : Nat) (shard : PleShard) : Prop where
  start : shard.globalRowStart = expectedRow
  rows : 0 < shard.rowCount
  dataBytes : shard.dataBytes = shard.rowCount * rowBytes
  small : shard.dataBytes < 2 ^ 64
  path : safeRelativePath shard.relativePath = true

theorem pathFromUtf8_eq_ok {rawPath : List UInt8} {relativePath : String} :
    pathFromUtf8 rawPath = .ok relativePath ↔ fromUtf8 rawPath = some relativePath := by
  rw [pathFromUtf8]
  split <;> simp_all

theorem decodeRecord_eq_ok {payload : List UInt8} {header : Header} {ordinal expectedRow : Nat}
    {shard : PleShard} :
    decodeRecord payload header ordinal expectedRow = .ok shard ↔
      RecordAt payload header ordinal shard ∧ ShardOk header.rowBytes expectedRow shard := by
  simp only [decodeRecord, readU32, readU64, Traverse.bind_eq_ok, readWord_eq_ok, reject_eq_ok, inRange_eq_ok,
    sliceAt_eq_ok, Word.checkedMul_eq_some, Word.checkedAdd_eq_some, pathFromUtf8_eq_ok]
  constructor
  · rintro ⟨start, hstart, rows, hrows, offset, hoffset, bytes, hbytes, pathOffset, hpathOffset, pathLen,
      hpathLen, -, hrange, expected, ⟨hsmall, rfl⟩, -, hlayout, pathEnd, ⟨hend, rfl⟩, -, hstrings, rawPath,
      hraw, relativePath, hutf8, -, hsafe, heq⟩
    cases heq
    simp only [not_or, not_not, not_lt, Bool.not_eq_false] at *
    refine ⟨⟨hstart, hrows, hoffset, hbytes, pathOffset, pathLen, rawPath, hpathOffset, hpathLen, hend, hstrings,
      hraw, hutf8⟩, hrange.1, Nat.pos_of_ne_zero hrange.2, hlayout, ?_, hsafe⟩
    rwa [hlayout]
  · rintro ⟨⟨hstart, hrows, hoffset, hbytes, pathOffset, pathLen, rawPath, hpathOffset, hpathLen, hend, hstrings,
      hraw, hutf8⟩, hok⟩
    have hsmall := hok.small
    rw [hok.dataBytes] at hsmall
    refine ⟨_, hstart, _, hrows, _, hoffset, _, hbytes, _, hpathOffset, _, hpathLen, (), ?_, _, ⟨hsmall, rfl⟩, (),
      not_not.mpr hok.dataBytes, _, ⟨hend, rfl⟩, (), Nat.not_lt.mpr hstrings, _, hraw, _, hutf8, (), ?_, rfl⟩
    · rw [not_or, not_not]
      exact ⟨hok.start, hok.rows.ne'⟩
    · rw [hok.path]
      exact Bool.noConfusion

/-! ## Safe paths -/

theorem component_allowed {part : List Char} :
    (∀ c, component part = some c → c.allowed = true) ↔ part ≠ ['.', '.'] := by
  unfold component
  split
  · next hskip =>
    -- An empty part or a `.` is no component, and is not `..` either.
    refine ⟨fun _ hdots => ?_, fun _ c hc => by cases hc⟩
    rw [hdots] at hskip
    exact absurd hskip (by decide)
  · split
    · next hdots => exact ⟨fun h => absurd (h _ rfl) Bool.false_ne_true, fun h => absurd hdots h⟩
    · next hdots =>
      refine ⟨fun _ => hdots, fun _ c hc => ?_⟩
      cases hc
      rfl

theorem all_filterMap_component (parts : List (List Char)) :
    (parts.filterMap component).all Component.allowed = true ↔ ['.', '.'] ∉ parts := by
  rw [List.all_eq_true]
  constructor
  · intro h hmem
    exact component_allowed.mp (fun c hc => h c (List.mem_filterMap.mpr ⟨_, hmem, hc⟩)) rfl
  · intro h c hc
    obtain ⟨part, hpart, hcomponent⟩ := List.mem_filterMap.mp hc
    have hne : part ≠ ['.', '.'] := by
      rintro rfl
      exact h hpart
    exact component_allowed.mpr hne c hcomponent

/-- The check on components is a check on the path: it is relative and never goes up. -/
theorem safeRelativePath_iff (value : String) : safeRelativePath value = true ↔ SafeRelative value := by
  rw [safeRelativePath, SafeRelative, Bool.and_eq_true, decide_eq_true_iff]
  refine and_congr_right fun hne => ?_
  obtain ⟨c, path, hpath⟩ := List.exists_cons_of_ne_nil hne
  rw [hpath, components, List.splitOn_cons_eq_if_modifyHead]
  by_cases hslash : c = '/'
  · -- An absolute path begins with the root.
    rw [hslash]
    have hrest := List.splitOn_ne_nil '/' path
    simp [hrest, Component.allowed]
  · obtain ⟨first, rest, hsplit⟩ := List.exists_cons_of_ne_nil (List.splitOn_ne_nil '/' path)
    rw [if_neg (by simpa using hslash), hsplit]
    have hlead : ∀ lead : Option Component,
        (lead.toList ++ rest.filterMap component).all Component.allowed = true ↔
          (∀ a, lead = some a → a.allowed = true) ∧ ['.', '.'] ∉ rest := by
      intro lead
      rw [List.all_append, Bool.and_eq_true, all_filterMap_component]
      refine and_congr_left fun _ => ?_
      cases lead <;> simp
    show ((_ : Option Component).toList ++ rest.filterMap component).all Component.allowed = true ↔ _
    rw [hlead]
    simp only [List.modifyHead_cons, List.head?_cons, List.mem_cons, not_or, reduceCtorEq, false_and, if_false]
    have hfirst : (∀ a, (if c :: first = ['.'] then some Component.curDir else component (c :: first)) = some a →
        a.allowed = true) ↔ c :: first ≠ ['.', '.'] := by
      by_cases hdot : c :: first = ['.']
      · rw [if_pos hdot, hdot]
        exact ⟨fun _ => by decide, fun _ a ha => by cases ha; rfl⟩
      · rw [if_neg hdot]
        exact component_allowed
    have hroot : some c ≠ some '/' := fun h => hslash (Option.some.inj h)
    rw [hfirst, ne_comm]
    exact ⟨fun h => ⟨hroot, h⟩, fun h => h.2⟩

/-! ## The loop over the records -/

theorem Tiles.le {shards : List PleShard} {start stop : Nat} (h : Tiles shards start stop) : start ≤ stop := by
  induction h with
  | nil => exact Nat.le_refl _
  | cons _ _ ih => omega

/-- What the loop lets pass tiles the rows it walked over. -/
theorem tiles_of_decodeShards {payload : List UInt8} {header : Header} (count : Nat) :
    ∀ {ordinal expectedRow last : Nat} {shards : List PleShard},
      decodeShards payload header count ordinal expectedRow = .ok (shards, last) →
      Tiles shards expectedRow last ∧
        ∀ shard ∈ shards, shard.dataBytes = shard.rowCount * header.rowBytes ∧ SafeRelative shard.relativePath := by
  induction count with
  | zero =>
    intro ordinal expectedRow last shards h
    cases h
    exact ⟨.nil, nofun⟩
  | succ count ih =>
    intro ordinal expectedRow last shards h
    simp only [decodeShards, Traverse.bind_eq_ok, decodeRecord_eq_ok, inRange_eq_ok, Word.checkedAdd_eq_some] at h
    obtain ⟨shard, ⟨-, hok⟩, rowEnd, ⟨-, rfl⟩, ⟨rest, last'⟩, hrest, heq⟩ := h
    cases heq
    obtain ⟨htiles, hall⟩ := ih hrest
    refine ⟨?_, List.forall_mem_cons.mpr ⟨⟨hok.dataBytes, (safeRelativePath_iff _).mp hok.path⟩, hall⟩⟩
    rw [← hok.start]
    exact .cons hok.rows htiles

/-- Shards whose records are in the table come out of the loop. -/
theorem decodeShards_of_tiles {payload : List UInt8} {header : Header} {shards : List PleShard}
    {expectedRow last : Nat} (h : Tiles shards expectedRow last) (hlast : last < 2 ^ 64) :
    ∀ {ordinal : Nat},
      (∀ k shard, shards[k]? = some shard → RecordAt payload header (ordinal + k) shard) →
      (∀ shard ∈ shards, shard.dataBytes = shard.rowCount * header.rowBytes ∧ shard.dataBytes < 2 ^ 64 ∧
        SafeRelative shard.relativePath) →
      decodeShards payload header shards.length ordinal expectedRow = .ok (shards, last) := by
  induction h with
  | nil => exact fun _ _ => rfl
  | @cons shard rest stop hrows hrest ih =>
    intro ordinal hrecords hshards
    obtain ⟨⟨hbytes, hsmall, hsafe⟩, hothers⟩ := List.forall_mem_cons.mp hshards
    have hrecord : decodeRecord payload header ordinal shard.globalRowStart = .ok shard :=
      decodeRecord_eq_ok.mpr ⟨hrecords 0 shard rfl, rfl, hrows, hbytes, hsmall, (safeRelativePath_iff _).mpr hsafe⟩
    have hend : Word.checkedAdd 64 shard.globalRowStart shard.rowCount =
        some (shard.globalRowStart + shard.rowCount) :=
      Word.checkedAdd_eq_some.mpr ⟨Nat.lt_of_le_of_lt hrest.le hlast, rfl⟩
    have hloop := @ih hlast (ordinal + 1) (fun k other hother => by
      rw [Nat.add_assoc, Nat.add_comm 1]
      exact hrecords (k + 1) other hother) hothers
    simp only [decodeShards, Traverse.bind_eq_ok, inRange_eq_ok, List.length_cons]
    exact ⟨shard, hrecord, _, hend, _, hloop, rfl⟩

/-- **An index that was read keeps the invariants.** -/
theorem accepted_of_decode {payload : List UInt8} {index : PleIndex} (h : PleIndex.decode payload = .ok index) :
    index.Accepted := by
  simp only [PleIndex.decode, Traverse.bind_eq_ok, readHeader_eq_ok, checkHeader_eq_ok, reject_eq_ok] at h
  obtain ⟨header, hheader, -, hchecked, ⟨shards, last⟩, hshards, -, hcovers, heq⟩ := h
  cases heq
  obtain ⟨htiles, hall⟩ := tiles_of_decodeShards _ hshards
  rw [not_or, not_not] at hcovers
  refine ⟨hchecked.pageBytes, hchecked.rowBytes, hchecked.dtype, Nat.lt_succ_of_le hchecked.scale, hcovers.2, ?_,
    fun shard hshard => (hall shard hshard).1, fun shard hshard => (hall shard hshard).2⟩
  rw [← hcovers.1]
  exact htiles

/-! ## No slice out of range -/

/-- Anything but a panic. -/
def Calm {α : Type} (x : Except Fault α) : Prop := x ≠ .error .panic

theorem calm_ok {α : Type} (a : α) : Calm (.ok a) := fun h => by cases h

theorem Calm.bind {α β : Type} {x : Except Fault α} {f : α → Except Fault β} (hx : Calm x)
    (hf : ∀ a, x = .ok a → Calm (f a)) : Calm (x >>= f) := by
  cases x with
  | error e =>
    intro h
    cases h
    exact hx rfl
  | ok a => exact hf a rfl

theorem calm_reject (bad : Prop) [Decidable bad] (e : PleIndexError) : Calm (reject bad e) := by
  rw [reject]
  split
  · exact fun h => by cases h
  · exact calm_ok ()

theorem calm_inRange (value : Option Nat) : Calm (inRange value) := by
  cases value with
  | none => exact fun h => by cases h
  | some n => exact calm_ok n

theorem calm_readWord (count : Nat) (payload : List UInt8) (offset : Nat) :
    Calm (readWord count payload offset) := by
  rw [readWord]
  split
  · exact calm_ok _
  · exact fun h => by cases h

theorem calm_pathFromUtf8 (rawPath : List UInt8) : Calm (pathFromUtf8 rawPath) := by
  rw [pathFromUtf8]
  split
  · exact calm_ok _
  · exact fun h => by cases h

/-- A slice within the payload. -/
theorem calm_sliceAt {payload : List UInt8} {offset count : Nat} (h : offset + count ≤ payload.length) :
    Calm (sliceAt payload offset count) := by
  rw [sliceAt, slice, if_pos h]
  exact calm_ok _

theorem calm_readHeader (payload : List UInt8) : Calm (readHeader payload) := by
  refine (calm_reject _ _).bind fun _ hlength => ?_
  rw [reject_eq_ok, pleIndexHeaderBytes, Nat.not_lt] at hlength
  refine (calm_sliceAt (by omega)).bind fun _ _ => ?_
  refine (calm_reject _ _).bind fun _ _ => ?_
  -- The words are read through `get`, and nothing is left to panic.
  iterate 11 refine (calm_readWord _ _ _).bind fun _ _ => ?_
  exact calm_ok _

theorem calm_checkHeader {payload : List UInt8} (hlength : pleIndexHeaderBytes ≤ payload.length)
    (header : Header) : Calm (checkHeader payload header) := by
  iterate 4 refine (calm_reject _ _).bind fun _ _ => ?_
  refine (calm_inRange _).bind fun _ _ => ?_
  refine (calm_reject _ _).bind fun _ _ => ?_
  refine (calm_inRange _).bind fun _ _ => ?_
  refine (calm_reject _ _).bind fun _ _ => ?_
  rw [pleIndexHeaderBytes] at hlength
  have hclear : Calm (clearChecksum payload) := (calm_sliceAt (by omega)).bind fun _ _ => calm_ok _
  exact hclear.bind fun _ _ => calm_reject _ _

/-- The path of a record is in the strings, and the strings are in the payload. -/
theorem calm_decodeRecord {payload : List UInt8} {header : Header} (h : Checked payload header)
    (ordinal expectedRow : Nat) : Calm (decodeRecord payload header ordinal expectedRow) := by
  iterate 6 refine (calm_readWord _ _ _).bind fun _ _ => ?_
  refine (calm_reject _ _).bind fun _ _ => ?_
  refine (calm_inRange _).bind fun _ _ => ?_
  refine (calm_reject _ _).bind fun _ _ => ?_
  refine (calm_inRange _).bind fun pathEnd hend => ?_
  refine (calm_reject _ _).bind fun _ hstrings => ?_
  rw [inRange_eq_ok, Word.checkedAdd_eq_some] at hend
  rw [reject_eq_ok, Nat.not_lt] at hstrings
  have hlength := h.length
  refine (calm_sliceAt (by omega)).bind fun _ _ => ?_
  refine (calm_pathFromUtf8 _).bind fun _ _ => ?_
  exact (calm_reject _ _).bind fun _ _ => calm_ok _

theorem calm_decodeShards {payload : List UInt8} {header : Header} (h : Checked payload header) (count : Nat) :
    ∀ ordinal expectedRow, Calm (decodeShards payload header count ordinal expectedRow) := by
  induction count with
  | zero => exact fun _ _ => calm_ok _
  | succ count ih =>
    intro ordinal expectedRow
    refine (calm_decodeRecord h ordinal expectedRow).bind fun shard _ => ?_
    refine (calm_inRange _).bind fun rowEnd _ => ?_
    exact (ih (ordinal + 1) rowEnd).bind fun _ _ => calm_ok _

/-- **Every payload is decoded or refused.** -/
theorem decode_ne_panic (payload : List UInt8) : PleIndex.decode payload ≠ .error .panic := by
  refine (calm_readHeader payload).bind fun header hheader => ?_
  refine (calm_checkHeader (readHeader_eq_ok.mp hheader).length header).bind fun _ hchecked => ?_
  refine (calm_decodeShards (checkHeader_eq_ok.mp hchecked) _ _ _).bind fun _ _ => ?_
  exact (calm_reject _ _).bind fun _ _ => calm_ok _

end Spark.Ple
