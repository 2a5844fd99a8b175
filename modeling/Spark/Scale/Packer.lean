import Spark.Lib.Outcome
import Spark.Lib.Pack
import Spark.Lib.Traverse
import Spark.Scale.Interleave

/-!
# The scale packer

`pack` of `scale_pack.rs`: from the scales of a checkpoint to the bytes of a sidecar. The file system does not fail. An
`f32` is kept by its bits, which is how both programs compare and store it.

* **`Reads`** — what the packer finds for one projection.
* **`pack_spec`** — the bytes of a sidecar that was packed.
* **`exists_pack`** — when one is.
-/

namespace Spark.Scale

open Outcome

/-! ## Scalars -/

/-- An `f32`, by its bits. -/
abbrev F32 := UInt32

/-- `f32::recip`. -/
def recip (x : F32) : F32 := (1 / Float32.ofBits x).toBits

def mulF32 (x y : F32) : F32 := (Float32.ofBits x * Float32.ofBits y).toBits

/-- `x.is_finite()`, and not `x <= 0.0`. -/
def finitePositive (x : F32) : Bool := (Float32.ofBits x).isFinite && !decide (Float32.ofBits x ≤ 0)

/-! ## The checkpoint -/

structure TensorLocation where
  relativeFile : String
  absoluteOffset : Nat
  dataBytes : Nat
  dtype : String
  shape : List Nat
  deriving DecidableEq

/-- `tensor_bytes`. -/
def tensorBytes (dtype : String) (shape : List Nat) : Option Nat := do
  let bytes ←
    if dtype = "U8" ∨ dtype = "F8_E4M3" then some 1
    else if dtype = "BF16" then some 2
    else if dtype = "F32" then some 4
    else none
  shape.foldlM (fun size dimension => if dimension = 0 then none else Word.checkedMul 64 size dimension) bytes

/-- An open checkpoint: its tensors, whose sizes `scan_shard` has checked, and its shards. -/
structure Q27Checkpoint where
  tensors : String → Option TensorLocation
  files : String → Option (List UInt8)
  sized : ∀ name location, tensors name = some location →
    tensorBytes location.dtype location.shape = some location.dataBytes

namespace Q27Checkpoint

variable (checkpoint : Q27Checkpoint)

def tensor (name : String) : Except String TensorLocation :=
  okOr (checkpoint.tensors name) ("missing tensor " ++ name)

def readTensor (location : TensorLocation) : Except String (List UInt8) :=
  match checkpoint.files location.relativeFile with
  | none => .error "No such file or directory"
  | some contents =>
    if location.absoluteOffset + location.dataBytes ≤ contents.length then
      .ok ((contents.drop location.absoluteOffset).take location.dataBytes)
    else .error "failed to fill whole buffer"

def scalar (name : String) : Except String F32 := do
  let location ← checkpoint.tensor name
  reject (location.dtype ≠ "F32" ∨ location.shape ≠ [] ∨ location.dataBytes ≠ 4)
    (name ++ " is not a q27 FP32 scalar")
  let bytes ← checkpoint.readTensor location
  return UInt32.ofNat (leNat bytes)

end Q27Checkpoint

/-! ## Packing -/

structure Entry where
  layer : Nat
  projection : Nat
  n : Nat
  k : Nat
  offset : Nat
  bytes : Nat
  inputScaleInv : F32
  alpha : F32
  deriving DecidableEq

def projection : Nat → String × Nat × Nat
  | 0 => ("gate_proj", 17408, 5120)
  | 1 => ("up_proj", 17408, 5120)
  | _ => ("down_proj", 5120, 17408)

def mlp (layer : Nat) : String := "model.language_model.layers." ++ toString layer ++ ".mlp"

/-- `{prefix}.{name}`. -/
def projectionName (layer projectionId : Nat) : String := mlp layer ++ "." ++ (projection projectionId).1

def headerBytes : Nat := 64
def entryBytes : Nat := 40
def entryCount : Nat := 192

def magic : List UInt8 := [0x51, 0x32, 0x37, 0x53, 0x46, 0x56, 0x31, 0]

/-- `009632fef96dd349150baa780c984e62e70e91fe`. -/
def revision : List UInt8 :=
  [0x30, 0x30, 0x39, 0x36, 0x33, 0x32, 0x66, 0x65, 0x66, 0x39, 0x36, 0x64, 0x64, 0x33, 0x34, 0x39, 0x31, 0x35, 0x30,
    0x62, 0x61, 0x61, 0x37, 0x38, 0x30, 0x63, 0x39, 0x38, 0x34, 0x65, 0x36, 0x32, 0x65, 0x37, 0x30, 0x65, 0x39, 0x31,
    0x66, 0x65]

/-- `write_header`. -/
def header : List UInt8 := magic ++ leBytes 4 1 ++ leBytes 4 entryCount ++ revision ++ List.replicate 8 0

def Entry.fields (entry : Entry) : List (Nat × Nat) :=
  [(4, entry.layer), (4, entry.projection), (4, entry.n), (4, entry.k), (8, entry.offset), (8, entry.bytes),
    (4, entry.inputScaleInv.toNat), (4, entry.alpha.toNat)]

/-- `write_entry`. -/
def writeEntry (entry : Entry) : List UInt8 := Pack.pack entry.fields

/-- One round of the loop over the projections of a layer. -/
def packEntry (checkpoint : Q27Checkpoint) (layer : Nat) (state : List Entry × Nat) (projectionId : Nat) :
    Except String (List Entry × Nat) := do
  let (_, n, k) := projection projectionId
  let base := projectionName layer projectionId
  let scaleLocation ← checkpoint.tensor (base ++ ".weight_scale")
  reject (scaleLocation.dtype ≠ "F8_E4M3" ∨ scaleLocation.shape ≠ [n, k / 16])
    (base ++ ".weight_scale changed physical layout")
  let inputScale ← checkpoint.scalar (base ++ ".input_scale")
  let weightScale2 ← checkpoint.scalar (base ++ ".weight_scale_2")
  return (state.1 ++ [⟨layer, projectionId, n, k, state.2, scaleLocation.dataBytes, recip inputScale,
    mulF32 inputScale weightScale2⟩], state.2 + scaleLocation.dataBytes)

/-- One round of the loop over the layers. -/
def packLayer (checkpoint : Q27Checkpoint) (state : List Entry × Nat) (layer : Nat) :
    Except String (List Entry × Nat) := do
  let gateScale ← checkpoint.scalar (mlp layer ++ ".gate_proj.input_scale")
  let upScale ← checkpoint.scalar (mlp layer ++ ".up_proj.input_scale")
  reject (gateScale ≠ upScale) ("layer " ++ toString layer ++ " gate/up activation scales differ")
  (List.range 3).foldlM (packEntry checkpoint layer) state

/-- The scales of one projection, as they are written. -/
def packScales (checkpoint : Q27Checkpoint) (layer projectionId : Nat) : Except String (List UInt8) := do
  let (_, n, k) := projection projectionId
  let location ← checkpoint.tensor (projectionName layer projectionId ++ ".weight_scale")
  let raw ← checkpoint.readTensor location
  packInterleave raw n (k / 16)

/-- `pack`: the bytes of the file that is published. -/
def pack (checkpoint : Q27Checkpoint) (output : String) (outputExists : Bool) : Except String (List UInt8) := do
  reject (outputExists = true) ("refusing to overwrite existing sidecar: " ++ output)
  let (entries, offset) ←
    (List.range 64).foldlM (packLayer checkpoint) ([], headerBytes + entryBytes * entryCount)
  let scales ← (List.range 64).mapM fun layer => (List.range 3).mapM (packScales checkpoint layer)
  let file := header ++ entries.flatMap writeEntry ++ scales.flatten.flatten
  reject (file.length ≠ offset) ("q27 sidecar length mismatch: expected " ++ toString offset)
  return file

/-! ## What is packed -/

variable {checkpoint : Q27Checkpoint} {layer projectionId : Nat} {x w : F32}

/-- The bytes of the scales of one projection. -/
def scaleSize : Nat := 5570560

/-- Where the scales of an entry start. -/
def offsetOf (index : Nat) : Nat := headerBytes + entryBytes * entryCount + index * scaleSize

/-- The entry of a projection with these scalars. -/
def entryOf (index : Nat) (x w : F32) : Entry where
  layer := index / 3
  projection := index % 3
  n := (projection (index % 3)).2.1
  k := (projection (index % 3)).2.2
  offset := offsetOf index
  bytes := scaleSize
  inputScaleInv := recip x
  alpha := mulF32 x w

/-- What the packer finds for one projection. -/
structure Reads (checkpoint : Q27Checkpoint) (layer projectionId : Nat) (x w : F32) : Prop where
  scales : ∃ location, checkpoint.tensors (projectionName layer projectionId ++ ".weight_scale") = some location ∧
    location.dtype = "F8_E4M3" ∧
    location.shape = [(projection projectionId).2.1, (projection projectionId).2.2 / 16]
  input : checkpoint.scalar (projectionName layer projectionId ++ ".input_scale") = .ok x
  factor : checkpoint.scalar (projectionName layer projectionId ++ ".weight_scale_2") = .ok w

/-- The sizes of the scales are those of their shapes. -/
theorem dataBytes_eq (hprojection : projectionId < 3) {name : String} {location : TensorLocation}
    (hlocation : checkpoint.tensors name = some location) (hdtype : location.dtype = "F8_E4M3")
    (hshape : location.shape = [(projection projectionId).2.1, (projection projectionId).2.2 / 16]) :
    location.dataBytes = scaleSize := by
  have hsized := checkpoint.sized name location hlocation
  rw [hdtype, hshape] at hsized
  have hall : ∀ p < 3, tensorBytes "F8_E4M3" [(projection p).2.1, (projection p).2.2 / 16] = some scaleSize := by
    decide
  exact (Option.some.inj ((hall projectionId hprojection).symm.trans hsized)).symm

theorem packEntry_eq_ok (hprojection : projectionId < 3) {state state' : List Entry × Nat} :
    packEntry checkpoint layer state projectionId = .ok state' ↔
      ∃ x w, Reads checkpoint layer projectionId x w ∧
        state' = (state.1 ++ [⟨layer, projectionId, (projection projectionId).2.1, (projection projectionId).2.2,
          state.2, scaleSize, recip x, mulF32 x w⟩], state.2 + scaleSize) := by
  unfold packEntry Q27Checkpoint.tensor
  simp only [Traverse.bind_eq_ok, okOr_eq_ok, reject_eq_ok, exists_const]
  constructor
  · rintro ⟨location, hlocation, hlayout, x, hx, w, hw, hstate⟩
    rw [not_or, not_not, not_not] at hlayout
    cases hstate
    rw [dataBytes_eq hprojection hlocation hlayout.1 hlayout.2]
    exact ⟨x, w, ⟨⟨location, hlocation, hlayout⟩, hx, hw⟩, rfl⟩
  · rintro ⟨x, w, ⟨⟨location, hlocation, hdtype, hshape⟩, hx, hw⟩, rfl⟩
    refine ⟨location, hlocation, ?_, x, hx, w, hw, ?_⟩
    · rw [not_or, not_not, not_not]
      exact ⟨hdtype, hshape⟩
    · rw [dataBytes_eq hprojection hlocation hdtype hshape]
      rfl

/-- The entries of the first `count` projections, and where the scales of the next one start. -/
structure Table (checkpoint : Q27Checkpoint) (count : Nat) (state : List Entry × Nat) : Prop where
  length : state.1.length = count
  offset : state.2 = offsetOf count
  entry : ∀ index < count, ∃ x w, Reads checkpoint (index / 3) (index % 3) x w ∧
    state.1[index]? = some (entryOf index x w)

theorem Table.next {state state' : List Entry × Nat} (hprojection : projectionId < 3)
    (h : Table checkpoint (layer * 3 + projectionId) state)
    (hpack : packEntry checkpoint layer state projectionId = .ok state') :
    Table checkpoint (layer * 3 + projectionId + 1) state' := by
  obtain ⟨x, w, hreads, rfl⟩ := (packEntry_eq_ok hprojection).mp hpack
  obtain ⟨hdiv, hmod⟩ := @Loops.div_mod_pair layer projectionId 3 hprojection
  refine ⟨by rw [List.length_append, h.length]; rfl, ?_, fun index hindex => ?_⟩
  · show state.2 + scaleSize = _
    rw [h.offset, offsetOf, offsetOf, Nat.succ_mul, Nat.add_assoc]
  · rcases Nat.lt_succ_iff_lt_or_eq.mp hindex with hold | rfl
    · obtain ⟨x', w', hreads', hget⟩ := h.entry index hold
      exact ⟨x', w', hreads', by rw [List.getElem?_append_left (by rw [h.length]; exact hold), hget]⟩
    · refine ⟨x, w, by rwa [hdiv, hmod], ?_⟩
      rw [List.getElem?_append_right h.length.le, h.length, Nat.sub_self, entryOf, hdiv, hmod, ← h.offset]
      rfl

/-- The gate and up projections of the first layers have one activation scale. -/
def Shared (checkpoint : Q27Checkpoint) (layers : Nat) : Prop :=
  ∀ layer < layers, ∃ x, checkpoint.scalar (mlp layer ++ ".gate_proj.input_scale") = .ok x ∧
    checkpoint.scalar (mlp layer ++ ".up_proj.input_scale") = .ok x

theorem packLayer_table {state state' : List Entry × Nat} (h : Table checkpoint (layer * 3) state)
    (hshared : Shared checkpoint layer) (hpack : packLayer checkpoint state layer = .ok state') :
    Table checkpoint ((layer + 1) * 3) state' ∧ Shared checkpoint (layer + 1) := by
  unfold packLayer at hpack
  simp only [Traverse.bind_eq_ok, reject_eq_ok] at hpack
  obtain ⟨gate, hgate, up, hup, _, hsame, hloop⟩ := hpack
  rw [not_not] at hsame
  subst hsame
  refine ⟨?_, fun other hother => ?_⟩
  · have htable := Traverse.foldlM_range_ok (P := fun p state => Table checkpoint (layer * 3 + p) state) h
      (fun p hp state state' htable hentry => htable.next hp hentry) hloop
    rwa [Nat.succ_mul]
  · rcases Nat.lt_succ_iff_lt_or_eq.mp hother with hold | rfl
    · exact hshared other hold
    · exact ⟨gate, hgate, hup⟩

theorem packInterleave_length {input out : List UInt8} {rows columns : Nat}
    (h : packInterleave input rows columns = .ok out) : out.length = rows * columns := by
  unfold packInterleave at h
  split at h
  · cases h
  · next hlayout =>
    rw [not_or, not_or, not_not, not_not, not_not] at hlayout
    obtain ⟨hrows, hcolumns, hinput⟩ := hlayout
    cases h
    have hzeros : (List.replicate input.length (0 : UInt8)).length = rows * columns := by
      rw [List.length_replicate, hinput]
    have hall := interleave_eq hrows hcolumns hinput hzeros
    rw [interleave128x4] at hall
    rw [cursorLoops_eq, hall, List.length_flatMap]
    have hfour : ∀ k ∈ List.range (quads rows columns), ((input.drop (sourceOf columns k)).take 4).length = 4 := by
      intro k hk
      have hend := sourceOf_le hrows (List.mem_range.mp hk)
      rw [List.length_take, List.length_drop]
      omega
    rw [List.map_congr_left hfour, List.map_const', List.sum_replicate_nat, List.length_range,
      quads_mul hrows hcolumns]

theorem packScales_length (hprojection : projectionId < 3) {out : List UInt8}
    (h : packScales checkpoint layer projectionId = .ok out) : out.length = scaleSize := by
  unfold packScales at h
  simp only [Traverse.bind_eq_ok] at h
  obtain ⟨location, -, raw, -, hinterleave⟩ := h
  have hall : ∀ p < 3, (projection p).2.1 * ((projection p).2.2 / 16) = scaleSize := by decide
  rw [packInterleave_length hinterleave, hall projectionId hprojection]

/-- The loop over the layers. -/
theorem table_of_run {state : List Entry × Nat}
    (h : (List.range 64).foldlM (packLayer checkpoint) ([], headerBytes + entryBytes * entryCount) = .ok state) :
    Table checkpoint entryCount state ∧ Shared checkpoint 64 :=
  Traverse.foldlM_range_ok
    (P := fun layer state => Table checkpoint (layer * 3) state ∧ Shared checkpoint layer)
    ⟨⟨rfl, rfl, fun _ hlt => absurd hlt (Nat.not_lt_zero _)⟩, fun _ hlt => absurd hlt (Nat.not_lt_zero _)⟩
    (fun _ _ _ _ hstate hpack => packLayer_table hstate.1 hstate.2 hpack) h

theorem length_scales {scales : List (List UInt8)}
    (h : (List.range entryCount).mapM (fun index => packScales checkpoint (index / 3) (index % 3)) = .ok scales) :
    scales.length = entryCount ∧ ∀ piece ∈ scales, piece.length = scaleSize := by
  have hpieces := Traverse.mapM_ok_iff.mp h
  refine ⟨by rw [← hpieces.length_eq, List.length_range], fun piece hmem => ?_⟩
  obtain ⟨index, -, hpack⟩ := Traverse.forall₂_exists_left hpieces hmem
  exact packScales_length (Nat.mod_lt _ (by omega)) hpack

/-- Pieces that are all as long as the scales of one projection. -/
theorem length_flatten_scales {pieces : List (List UInt8)} (h : ∀ piece ∈ pieces, piece.length = scaleSize) :
    pieces.flatten.length = pieces.length * scaleSize := by
  rw [List.length_flatten, List.map_congr_left h, List.map_const', List.sum_replicate_nat]

theorem length_writeEntries (entries : List Entry) : (entries.flatMap writeEntry).length = entries.length * entryBytes := by
  induction entries with
  | nil => rfl
  | cons entry entries ih =>
    rw [List.flatMap_cons, List.length_append, ih, writeEntry, Pack.length_pack, List.length_cons, Nat.succ_mul,
      Nat.add_comm]
    rfl

/-- A file that was packed: its entries, and the scales behind them. -/
structure Packed (checkpoint : Q27Checkpoint) (file : List UInt8) (entries : List Entry)
    (scales : List (List UInt8)) : Prop where
  bytes : file = header ++ (entries.flatMap writeEntry ++ scales.flatten)
  length : file.length = offsetOf entryCount
  table : Table checkpoint entryCount (entries, offsetOf entryCount)
  shared : Shared checkpoint 64
  scales : (List.range entryCount).mapM (fun index => packScales checkpoint (index / 3) (index % 3)) = .ok scales

theorem pack_spec {output : String} {outputExists : Bool} {file : List UInt8}
    (h : pack checkpoint output outputExists = .ok file) : ∃ entries scales, Packed checkpoint file entries scales := by
  unfold pack at h
  simp only [Traverse.bind_eq_ok, reject_eq_ok] at h
  obtain ⟨_, -, ⟨entries, offset⟩, hentries, rows, hrows, _, hlength, hfile⟩ := h
  cases hfile
  obtain ⟨htable, hshared⟩ := table_of_run hentries
  have hoffset : offset = offsetOf entryCount := htable.offset
  subst hoffset
  refine ⟨entries, rows.flatten, ?_, not_not.mp hlength, htable, hshared, Loops.mapM_range_mul hrows⟩
  rw [List.append_assoc]

/-- What the packer needs: every projection, one activation scale for gate and up, and the scales in their layout. -/
theorem exists_pack (output : String) (hreads : ∀ layer < 64, ∀ p < 3, ∃ x w, Reads checkpoint layer p x w)
    (hshared : Shared checkpoint 64) (hscales : ∀ layer < 64, ∀ p < 3, ∃ out, packScales checkpoint layer p = .ok out) :
    ∃ file, pack checkpoint output false = .ok file := by
  have hlayer : ∀ layer < 64, ∀ state, ∃ state', packLayer checkpoint state layer = .ok state' := by
    intro layer hlayer state
    obtain ⟨x, hgate, hup⟩ := hshared layer hlayer
    obtain ⟨state', hloop, -⟩ := Traverse.exists_foldlM_range (f := packEntry checkpoint layer) (n := 3)
      (P := fun _ _ => True) (b := state) trivial fun p hp state _ => by
        obtain ⟨x, w, hread⟩ := hreads layer hlayer p hp
        exact ⟨_, (packEntry_eq_ok hp).mpr ⟨x, w, hread, rfl⟩, trivial⟩
    refine ⟨state', ?_⟩
    unfold packLayer
    simp only [Traverse.bind_eq_ok, reject_eq_ok]
    exact ⟨x, hgate, x, hup, (), not_not.mpr rfl, hloop⟩
  obtain ⟨⟨entries, offset⟩, hentries, -⟩ := Traverse.exists_foldlM_range (f := packLayer checkpoint) (n := 64)
    (P := fun _ _ => True) (b := ([], headerBytes + entryBytes * entryCount)) trivial
    fun layer hlt state _ => (hlayer layer hlt state).imp fun _ h => ⟨h, trivial⟩
  obtain ⟨rows, hrows⟩ : ∃ rows, (List.range 64).mapM (fun layer => (List.range 3).mapM (packScales checkpoint layer)) =
      .ok rows :=
    Traverse.exists_mapM_ok fun layer hlt => Traverse.exists_mapM_ok fun p hp =>
      hscales layer (List.mem_range.mp hlt) p (List.mem_range.mp hp)
  obtain ⟨htable, -⟩ := table_of_run hentries
  obtain ⟨hcount, hsizes⟩ := length_scales (Loops.mapM_range_mul hrows)
  have hlength : (header ++ entries.flatMap writeEntry ++ rows.flatten.flatten).length = offset := by
    rw [List.length_append, List.length_append, length_writeEntries, length_flatten_scales hsizes, hcount,
      show entries.length = entryCount from htable.length, show offset = offsetOf entryCount from htable.offset]
    rfl
  refine ⟨header ++ entries.flatMap writeEntry ++ rows.flatten.flatten, ?_⟩
  unfold pack
  simp only [Traverse.bind_eq_ok, reject_eq_ok]
  exact ⟨(), Bool.false_ne_true, (entries, offset), hentries, rows, hrows, (), not_not.mpr hlength, rfl⟩

end Spark.Scale
