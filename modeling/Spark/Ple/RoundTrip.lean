import Spark.Ple.Decoding

/-!
# Reading an encoded PLE index back

The encoder lays out the header, the records and the paths; the decoder finds each of them at the offset
the layout gives it.

* **`encodeShards_eq`** — the tables the encoder builds.
* **`decode_payload`** — the payload of an index is read back.
* **`index_codec_correct`** — both directions of the codec.
-/

namespace Spark.Ple

open Pack

/-! ## The tables -/

/-- The paths of the shards in a row. -/
def pathTable (shards : List PleShard) : List UInt8 := shards.flatMap fun shard => utf8Bytes shard.relativePath

/-- The records of the shards, when their paths begin at `pathOffset`. -/
def recordTable : List PleShard → Nat → List UInt8
  | [], _ => []
  | shard :: rest, pathOffset =>
    pack (recordFields shard pathOffset (utf8Bytes shard.relativePath).length) ++
      recordTable rest (pathOffset + (utf8Bytes shard.relativePath).length)

theorem pathTable_append (a b : List PleShard) : pathTable (a ++ b) = pathTable a ++ pathTable b :=
  List.flatMap_append

theorem length_pathTable (shards : List PleShard) :
    (pathTable shards).length = (shards.map fun shard => (utf8Bytes shard.relativePath).length).sum :=
  List.length_flatMap

theorem length_recordTable (shards : List PleShard) :
    ∀ pathOffset, (recordTable shards pathOffset).length = shards.length * pleIndexRecordBytes := by
  induction shards with
  | nil => exact fun _ => (Nat.zero_mul _).symm
  | cons shard rest ih =>
    intro pathOffset
    rw [recordTable, List.length_append, length_pack, ih, List.length_cons, Nat.succ_mul, Nat.add_comm]
    rfl

theorem recordTable_append (a b : List PleShard) :
    ∀ pathOffset, recordTable (a ++ b) pathOffset =
      recordTable a pathOffset ++ recordTable b (pathOffset + (pathTable a).length) := by
  induction a with
  | nil => exact fun _ => rfl
  | cons shard rest ih =>
    intro pathOffset
    rw [List.cons_append, recordTable, recordTable, ih, List.append_assoc]
    show _ = _ ++ (_ ++ recordTable b (pathOffset + (utf8Bytes shard.relativePath ++ pathTable rest).length))
    rw [List.length_append, Nat.add_assoc]

/-- A shard the encoder takes: its path is not empty and holds no NUL. -/
def Encodable (shard : PleShard) : Prop :=
  utf8Bytes shard.relativePath ≠ [] ∧ 0 ∉ utf8Bytes shard.relativePath

theorem Tiles.row_le {shards : List PleShard} {start stop : Nat} (h : Tiles shards start stop) :
    ∀ shard ∈ shards, shard.globalRowStart + shard.rowCount ≤ stop := by
  induction h with
  | nil => exact nofun
  | cons _ hrest ih => exact List.forall_mem_cons.mpr ⟨hrest.le, ih⟩

theorem structPack_recordFields {shard : PleShard} {pathOffset pathLen : Nat}
    (hrows : shard.globalRowStart + shard.rowCount < 2 ^ 64) (hoffset : shard.dataOffset < 2 ^ 64)
    (hbytes : shard.dataBytes < 2 ^ 64) (hpath : pathOffset + pathLen < 2 ^ 32) :
    structPack (recordFields shard pathOffset pathLen) = .ok (pack (recordFields shard pathOffset pathLen)) := by
  rw [structPack, if_pos]
  simp only [recordFields, List.forall_mem_cons]
  refine ⟨?_, ?_, hoffset, hbytes, ?_, ?_, nofun⟩ <;> omega

/-- The loop of the encoder over shards that tile their rows. -/
theorem encodeShards_eq {rowBytes : Nat} {shards : List PleShard} {start stop : Nat}
    (h : Tiles shards start stop) (hstop : stop < 2 ^ 64) :
    ∀ {tables : Tables}, tables.expectedRow = start →
      tables.paths.length + (pathTable shards).length < 2 ^ 32 →
      (∀ shard ∈ shards, shard.dataBytes = shard.rowCount * rowBytes ∧ shard.dataOffset < 2 ^ 64 ∧
        shard.dataBytes < 2 ^ 64 ∧ Encodable shard) →
      shards.foldlM (encodeShard rowBytes) tables = .ok
        { paths := tables.paths ++ pathTable shards
          records := tables.records ++ recordTable shards tables.paths.length
          expectedRow := stop } := by
  induction h with
  | nil =>
    intro tables hrow _ _
    rw [List.foldlM_nil, pathTable, List.flatMap_nil, recordTable, List.append_nil, List.append_nil, ← hrow]
    rfl
  | @cons shard rest stop hrows hrest ih =>
    intro tables hstart hpaths hshards
    obtain ⟨⟨hbytes, hoffset, hsmall, hne, hnul⟩, hothers⟩ := List.forall_mem_cons.mp hshards
    have hsplit : pathTable (shard :: rest) = utf8Bytes shard.relativePath ++ pathTable rest := rfl
    rw [hsplit, List.length_append] at hpaths
    have hrow := hrest.le
    have hpack := @structPack_recordFields shard tables.paths.length (utf8Bytes shard.relativePath).length
      (by omega) hoffset hsmall (by omega)
    have hstep : encodeShard rowBytes tables shard = .ok
        { paths := tables.paths ++ utf8Bytes shard.relativePath
          records := tables.records ++
            pack (recordFields shard tables.paths.length (utf8Bytes shard.relativePath).length)
          expectedRow := shard.globalRowStart + shard.rowCount } := by
      rw [encodeShard, if_neg (not_not.mpr hstart.symm), if_neg (not_not.mpr hbytes)]
      simp only
      rw [if_neg (by rw [not_or]; exact ⟨hne, hnul⟩), hpack]
      rfl
    rw [List.foldlM_cons, hstep]
    show List.foldlM _ _ _ = _
    rw [ih hstop rfl (by rw [List.length_append]; omega) hothers, hsplit, recordTable, List.append_assoc,
      List.append_assoc, List.length_append]

/-! ## The payload -/

section Payload

variable (index : PleIndex)

/-- The payload with a checksum of zero. -/
def blankPayload : List UInt8 :=
  pleIndexMagic ++ (pack (headerFields index (recordTable index.shards 0).length (pathTable index.shards).length) ++
    (recordTable index.shards 0 ++ pathTable index.shards))

def payloadOf : List UInt8 := patch (blankPayload index) 60 (leBytes 4 (crc32 (blankPayload index)).toNat)

/-- The header the decoder reads. -/
def headerOf : Header where
  version := pleIndexVersion
  headerBytes := pleIndexHeaderBytes
  pageBytes := index.pageBytes
  rowBytes := index.rowBytes
  dtype := index.dtype
  shardCount := index.shards.length
  totalRows := index.totalRows
  scaleBf16Bits := index.scaleBf16Bits
  recordsBytes := index.shards.length * pleIndexRecordBytes
  stringsBytes := (pathTable index.shards).length
  storedCrc := (crc32 (blankPayload index)).toNat

theorem length_blankPayload :
    (blankPayload index).length =
      64 + index.shards.length * pleIndexRecordBytes + (pathTable index.shards).length := by
  rw [blankPayload, List.length_append, List.length_append, List.length_append, length_pack, length_recordTable,
    ← Nat.add_assoc, ← Nat.add_assoc]
  rfl

theorem blankPayload_room : 60 + (leBytes 4 (crc32 (blankPayload index)).toNat).length ≤ (blankPayload index).length := by
  rw [length_leBytes, length_blankPayload]
  omega

theorem length_payloadOf :
    (payloadOf index).length =
      64 + index.shards.length * pleIndexRecordBytes + (pathTable index.shards).length := by
  rw [payloadOf, length_patch (blankPayload_room index), length_blankPayload]

/-- In front of the checksum the words are those of the header. -/
theorem word_header {k w v offset : Nat}
    (hfield : (headerFields index (recordTable index.shards 0).length (pathTable index.shards).length)[k]? = some (w, v))
    (hv : v < 256 ^ w)
    (hoffset : offset = 8 + width ((headerFields index (recordTable index.shards 0).length
      (pathTable index.shards).length).take k))
    (hfront : offset + w ≤ 60) : word (payloadOf index) offset w = some v := by
  rw [word, payloadOf, slice_patch (blankPayload_room index) hfront, ← word, blankPayload]
  exact word_field hfield hv pleIndexMagic _ hoffset

/-- Behind the checksum the payload is the blank one. -/
theorem slice_tables {offset count : Nat} (h : 64 ≤ offset) :
    slice (payloadOf index) offset count = slice (blankPayload index) offset count := by
  rw [payloadOf]
  exact slice_patch_behind (blankPayload_room index) (by rw [length_leBytes]; exact h)

theorem headerAt_payloadOf (hfits : index.Fits) (hdtype : index.dtype = pleDtypeFp8E4m3)
    (hscale : index.scaleBf16Bits < 2 ^ 16) : HeaderAt (payloadOf index) (headerOf index) := by
  have hrecords := length_recordTable index.shards 0
  have hrecordsSmall := hfits.records
  have hpathsSmall := hfits.paths
  rw [← length_pathTable] at hpathsSmall
  rw [← hrecords] at hrecordsSmall
  have hshards : index.shards.length < 2 ^ 32 := by
    have hsmall := hfits.records
    rw [pleIndexRecordBytes] at hsmall
    omega
  have hmagic : slice (payloadOf index) 0 8 = some pleIndexMagic := by
    rw [payloadOf, slice_patch (blankPayload_room index) (by decide)]
    exact slice_middle [] pleIndexMagic _
  have hcrc : word (payloadOf index) 60 4 = some (crc32 (blankPayload index)).toNat := by
    have hpatched := slice_patched (blankPayload_room index)
    rw [length_leBytes] at hpatched
    rw [word, payloadOf, hpatched, Option.map_some, leNat_leBytes,
      Nat.mod_eq_of_lt (show (crc32 (blankPayload index)).toNat < 256 ^ 4 from UInt32.toNat_lt _)]
  constructor
  · rw [length_payloadOf, pleIndexHeaderBytes]
    omega
  · exact hmagic
  · exact word_header index (k := 0) rfl (show pleIndexVersion < 256 ^ 4 by decide) rfl (by decide)
  · exact word_header index (k := 1) rfl (show pleIndexHeaderBytes < 256 ^ 4 by decide) rfl (by decide)
  · exact word_header index (k := 2) rfl hfits.pageBytes rfl (by decide)
  · exact word_header index (k := 3) rfl hfits.rowBytes rfl (by decide)
  · exact word_header index (k := 4) rfl (show index.dtype < 256 ^ 4 by rw [hdtype]; decide) rfl (by decide)
  · exact word_header index (k := 5) rfl hshards rfl (by decide)
  · exact word_header index (k := 6) rfl hfits.totalRows rfl (by decide)
  · exact word_header index (k := 7) rfl (show index.scaleBf16Bits < 256 ^ 4 by omega) rfl (by decide)
  · show word (payloadOf index) 44 4 = some (index.shards.length * pleIndexRecordBytes)
    rw [← hrecords]
    exact word_header index (k := 8) rfl hrecordsSmall rfl (by decide)
  · exact word_header index (k := 9) rfl hpathsSmall rfl (by decide)
  · exact hcrc

/-- Clearing the checksum gives the blank payload back. -/
theorem clear_payloadOf : patch (payloadOf index) 60 (List.replicate 4 0) = blankPayload index := by
  have hblank : slice (blankPayload index) 60 4 = some (List.replicate 4 0) := by
    have hsplit : blankPayload index = (pleIndexMagic ++ pack ((headerFields index
        (recordTable index.shards 0).length (pathTable index.shards).length).take 11)) ++
        (List.replicate 4 0 ++ (recordTable index.shards 0 ++ pathTable index.shards)) := by
      rw [blankPayload, List.append_assoc, ← List.append_assoc (pack _)]
      rfl
    rw [hsplit]
    exact slice_middle _ (List.replicate 4 0) _
  rw [payloadOf, patch_patch (blankPayload_room index) (by rw [length_leBytes]; rfl), patch_slice hblank]

/-- The header of the blank payload. -/
def blankHeader : List UInt8 :=
  pleIndexMagic ++ pack (headerFields index (recordTable index.shards 0).length (pathTable index.shards).length)

theorem length_blankHeader : (blankHeader index).length = 64 := by
  rw [blankHeader, List.length_append, length_pack]
  rfl

theorem blankPayload_eq :
    blankPayload index = blankHeader index ++ (recordTable index.shards 0 ++ pathTable index.shards) := by
  rw [blankHeader, List.append_assoc]
  rfl

/-- A word of the record of a shard, behind the records of the shards before it. -/
theorem word_record {before after : List PleShard} {shard : PleShard} (hshards : index.shards = before ++ shard :: after)
    {k w v : Nat}
    (hfield : (recordFields shard (pathTable before).length (utf8Bytes shard.relativePath).length)[k]? = some (w, v))
    (hv : v < 256 ^ w) {offset : Nat}
    (hoffset : offset = 64 + before.length * pleIndexRecordBytes +
      width ((recordFields shard (pathTable before).length (utf8Bytes shard.relativePath).length).take k)) :
    word (payloadOf index) offset w = some v := by
  have hsplit : recordTable index.shards 0 = recordTable before 0 ++
      (pack (recordFields shard (pathTable before).length (utf8Bytes shard.relativePath).length) ++
        recordTable after ((pathTable before).length + (utf8Bytes shard.relativePath).length)) := by
    rw [hshards, recordTable_append, Nat.zero_add, recordTable]
  rw [word, slice_tables index (by omega), ← word, blankPayload_eq, hsplit, List.append_assoc,
    ← List.append_assoc (blankHeader index), List.append_assoc (pack _)]
  refine word_field hfield hv _ _ ?_
  rw [List.length_append, length_blankHeader, length_recordTable, hoffset]

/-- The path of a shard, behind the paths of the shards before it. -/
theorem slice_path {before after : List PleShard} {shard : PleShard} (hshards : index.shards = before ++ shard :: after) :
    slice (payloadOf index)
      (64 + index.shards.length * pleIndexRecordBytes + (pathTable before).length)
      (utf8Bytes shard.relativePath).length = some (utf8Bytes shard.relativePath) := by
  have hsplit : pathTable index.shards =
      pathTable before ++ (utf8Bytes shard.relativePath ++ pathTable after) := by
    rw [hshards, pathTable_append]
    rfl
  have hfront : (blankHeader index ++ (recordTable index.shards 0 ++ pathTable before)).length =
      64 + index.shards.length * pleIndexRecordBytes + (pathTable before).length := by
    rw [List.length_append, List.length_append, length_blankHeader, length_recordTable, Nat.add_assoc]
  rw [slice_tables index (by omega), blankPayload_eq, hsplit, ← hfront, ← List.append_assoc (recordTable _ _),
    ← List.append_assoc (blankHeader index)]
  exact slice_middle _ _ _

/-! ## Reading it back -/

theorem fromUtf8_utf8Bytes (value : String) : fromUtf8 (utf8Bytes value) = some value := by
  have hbytes : (utf8Bytes value).toByteArray = value.toByteArray := by
    apply ByteArray.ext
    rw [List.data_toByteArray, utf8Bytes, Array.toArray_toList]
  rw [fromUtf8, hbytes, String.fromUTF8?, dif_pos value.isValidUTF8]
  rfl

theorem utf8Bytes_ne_nil {value : String} (h : value.toList ≠ []) : utf8Bytes value ≠ [] := by
  intro hnil
  have hback := fromUtf8_utf8Bytes value
  rw [hnil, show fromUtf8 [] = some "" from fromUtf8_utf8Bytes ""] at hback
  cases hback
  exact h rfl

theorem recordAt_payloadOf (haccepted : index.Accepted) (hfits : index.Fits) {before after : List PleShard}
    {shard : PleShard} (hshards : index.shards = before ++ shard :: after) :
    RecordAt (payloadOf index) (headerOf index) before.length shard := by
  have hmem : shard ∈ index.shards := by
    rw [hshards]
    exact List.mem_append_right _ List.mem_cons_self
  have hrow := haccepted.tiles.row_le shard hmem
  have htotal := hfits.totalRows
  obtain ⟨hoffset, hbytes⟩ := hfits.shards shard hmem
  have hpaths := hfits.paths
  have hsplit : (pathTable index.shards).length = (pathTable before).length +
      ((utf8Bytes shard.relativePath).length + (pathTable after).length) := by
    rw [hshards, pathTable_append, List.length_append]
    show _ + (utf8Bytes shard.relativePath ++ pathTable after).length = _
    rw [List.length_append]
  rw [← length_pathTable, hsplit] at hpaths
  constructor
  · exact word_record index hshards (k := 0) rfl (show shard.globalRowStart < 256 ^ 8 by omega) rfl
  · exact word_record index hshards (k := 1) rfl (show shard.rowCount < 256 ^ 8 by omega) rfl
  · exact word_record index hshards (k := 2) rfl (show shard.dataOffset < 256 ^ 8 by omega) rfl
  · exact word_record index hshards (k := 3) rfl (show shard.dataBytes < 256 ^ 8 by omega) rfl
  · refine ⟨(pathTable before).length, (utf8Bytes shard.relativePath).length, utf8Bytes shard.relativePath,
      ?_, ?_, by omega, ?_, slice_path index hshards, fromUtf8_utf8Bytes _⟩
    · exact word_record index hshards (k := 4) rfl (show (pathTable before).length < 256 ^ 4 by omega) rfl
    · exact word_record index hshards (k := 5) rfl (show (utf8Bytes shard.relativePath).length < 256 ^ 4 by omega) rfl
    · show _ ≤ (pathTable index.shards).length
      omega

theorem checked_payloadOf (haccepted : index.Accepted) (hfits : index.Fits) :
    Checked (payloadOf index) (headerOf index) where
  version := rfl
  headerBytes := rfl
  dtype := haccepted.dtype
  pageBytes := haccepted.pageBytes
  rowBytes := haccepted.rowBytes
  scale := Nat.le_of_lt_succ haccepted.scale
  records := rfl
  length := length_payloadOf index
  small := by
    have hrecords := hfits.records
    have hpaths := hfits.paths
    rw [← length_pathTable] at hpaths
    rw [length_payloadOf]
    omega
  checksum := by
    have hpatched := slice_patched (blankPayload_room index)
    rw [length_leBytes] at hpatched
    refine ⟨_, hpatched, ?_⟩
    rw [length_leBytes, clear_payloadOf]
    rfl

/-- The payload of an index is read back. -/
theorem decode_payloadOf (haccepted : index.Accepted) (hfits : index.Fits) :
    PleIndex.decode (payloadOf index) = .ok index := by
  have hheader := readHeader_eq_ok.mpr (headerAt_payloadOf index hfits haccepted.dtype haccepted.scale)
  have hchecked : checkHeader (payloadOf index) (headerOf index) = .ok () :=
    checkHeader_eq_ok.mpr (checked_payloadOf index haccepted hfits)
  have hrecords : ∀ k shard, index.shards[k]? = some shard →
      RecordAt (payloadOf index) (headerOf index) (0 + k) shard := by
    intro k shard hk
    obtain ⟨hlt, rfl⟩ := List.getElem?_eq_some_iff.mp hk
    have hsplit : index.shards = index.shards.take k ++ index.shards[k] :: index.shards.drop (k + 1) := by
      rw [← List.drop_eq_getElem_cons hlt, List.take_append_drop]
    have hrecord := recordAt_payloadOf index haccepted hfits hsplit
    rw [List.length_take, Nat.min_eq_left (Nat.le_of_lt hlt)] at hrecord
    rw [Nat.zero_add]
    exact hrecord
  have hshards := decodeShards_of_tiles haccepted.tiles hfits.totalRows hrecords fun shard hshard =>
    ⟨haccepted.dataBytes shard hshard, (hfits.shards shard hshard).2, haccepted.paths shard hshard⟩
  have hcovers : ¬ (index.totalRows ≠ (headerOf index).totalRows ∨ index.shards = []) := by
    rw [not_or, not_not]
    exact ⟨rfl, haccepted.shards⟩
  simp only [PleIndex.decode, Traverse.bind_eq_ok, reject_eq_ok]
  exact ⟨_, hheader, (), hchecked, _, hshards, (), hcovers, rfl⟩

/-- The encoder writes the payload of an index whose paths it takes. -/
theorem encode_eq (haccepted : index.Accepted) (hfits : index.Fits)
    (hnul : ∀ shard ∈ index.shards, 0 ∉ utf8Bytes shard.relativePath) :
    index.encode = .ok (payloadOf index) := by
  have hpaths := hfits.paths
  have hrecords := hfits.records
  have hcount := length_recordTable index.shards 0
  rw [← length_pathTable] at hpaths
  rw [← hcount] at hrecords
  have hshards : index.shards.length < 2 ^ 32 := by
    rw [hcount, pleIndexRecordBytes] at hrecords
    omega
  have hloop := @encodeShards_eq index.rowBytes index.shards 0 index.totalRows haccepted.tiles hfits.totalRows
    {} rfl (by rwa [List.length_nil, Nat.zero_add]) fun shard hshard =>
      ⟨haccepted.dataBytes shard hshard, (hfits.shards shard hshard).1, (hfits.shards shard hshard).2,
        utf8Bytes_ne_nil (haccepted.paths shard hshard).1, hnul shard hshard⟩
  have hheader : structPack (headerFields index (recordTable index.shards 0).length (pathTable index.shards).length) =
      .ok (pack (headerFields index (recordTable index.shards 0).length (pathTable index.shards).length)) := by
    have hdtype := haccepted.dtype
    have hscale := haccepted.scale
    have hpage := hfits.pageBytes
    have hrow := hfits.rowBytes
    have htotal := hfits.totalRows
    rw [structPack, if_pos]
    simp only [headerFields, List.forall_mem_cons, hdtype, pleIndexVersion, pleIndexHeaderBytes, pleDtypeFp8E4m3]
    refine ⟨?_, ?_, ?_, ?_, ?_, ?_, ?_, ?_, ?_, ?_, ?_, ?_, List.forall_mem_nil _⟩ <;> omega
  rw [PleIndex.encode, if_neg haccepted.shards]
  show (index.shards.foldlM (encodeShard index.rowBytes) {} >>= _) = _
  rw [hloop]
  simp only [List.nil_append, List.length_nil]
  show (if index.totalRows ≠ index.totalRows then _ else _) = _
  rw [if_neg (not_not.mpr rfl)]
  show (structPack _ >>= _) = _
  rw [hheader]
  rfl

end Payload

/-- **The codec.** An index with the invariants of the decoder, in fields that hold it and with paths that hold
no NUL, is encoded and read back. Whatever the payload, the decoder answers, and what it accepts has
the invariants. -/
theorem index_codec_correct :
    (∀ index : PleIndex, index.Accepted → index.Fits →
      (∀ shard ∈ index.shards, 0 ∉ utf8Bytes shard.relativePath) →
      ∃ payload, index.encode = .ok payload ∧ PleIndex.decode payload = .ok index) ∧
    ∀ payload, PleIndex.decode payload ≠ .error .panic ∧
      ∀ index, PleIndex.decode payload = .ok index → index.Accepted :=
  ⟨fun index haccepted hfits hnul =>
    ⟨payloadOf index, encode_eq index haccepted hfits hnul, decode_payloadOf index haccepted hfits⟩,
    fun payload => ⟨decode_ne_panic payload, fun _ h => accepted_of_decode h⟩⟩

/-- An index of two shards, the second of them at `path`. -/
def twoShardIndex (path : String) : PleIndex where
  pageBytes := 4096
  rowBytes := 160
  dtype := 1
  totalRows := 5
  scaleBf16Bits := 0x3f80
  shards := [⟨0, 3, 8192, 480, "a"⟩, ⟨3, 2, 64, 320, path⟩]

theorem forall_mem_pair {P : PleShard → Prop} {a b : PleShard} (ha : P a) (hb : P b) : ∀ shard ∈ [a, b], P shard :=
  List.forall_mem_cons.mpr ⟨ha, List.forall_mem_singleton.mpr hb⟩

theorem twoShardIndex_accepted {path : String} (h : safeRelativePath path = true) : (twoShardIndex path).Accepted where
  pageBytes := ⟨by simp [twoShardIndex], 12, rfl⟩
  rowBytes := by simp [twoShardIndex]
  dtype := rfl
  scale := by simp [twoShardIndex]
  shards := List.cons_ne_nil _ _
  tiles := .cons (by simp) (.cons (by simp) .nil)
  dataBytes := forall_mem_pair rfl rfl
  paths := forall_mem_pair ((safeRelativePath_iff "a").mp (by decide)) ((safeRelativePath_iff path).mp h)

theorem twoShardIndex_fits {path : String} (h : 1 + (utf8Bytes path).length < 2 ^ 32) : (twoShardIndex path).Fits where
  pageBytes := by simp [twoShardIndex]
  rowBytes := by simp [twoShardIndex]
  totalRows := by simp [twoShardIndex]
  records := by simp [twoShardIndex, pleIndexRecordBytes]
  paths := h
  shards := forall_mem_pair (by simp) (by simp)

theorem index_codec_correct_sample :
    ∃ payload, (twoShardIndex "b").encode = .ok payload ∧
      PleIndex.decode payload = .ok (twoShardIndex "b") :=
  index_codec_correct.1 _ (twoShardIndex_accepted (by decide)) (twoShardIndex_fits (by decide))
    (forall_mem_pair (by decide) (by decide))

/-- The decoder takes a path with a NUL in it; the encoder refuses to write one. -/
theorem nul_path_not_encoded :
    ∃ index : PleIndex, index.Accepted ∧ index.Fits ∧
      ¬ ∃ payload, index.encode = .ok payload ∧ PleIndex.decode payload = .ok index := by
  refine ⟨twoShardIndex "a\x00b", twoShardIndex_accepted (by decide), twoShardIndex_fits (by decide), ?_⟩
  intro hclaim
  obtain ⟨payload, hencode, -⟩ := hclaim
  have hrefused : (twoShardIndex "a\x00b").encode = .error (.format "PLE source path is invalid") := by rfl
  rw [hrefused] at hencode
  cases hencode

end Spark.Ple
