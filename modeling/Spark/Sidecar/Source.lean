import Spark.Lib.Traverse
import Spark.Sidecar.Header

/-!
# Packing experts

What both builders read from the checkpoint, as bytes.

* **`interleave128x4`** — the swizzle of the scales.
* **`packRecord`** — one expert, for the expert-major format.
* **`layerPieces`**, **`packedLayer`** — one layer, in the order in which `pack_layer` streams it.
-/

namespace Spark.Sidecar

structure SafetensorLocation where
  relativeFile : String
  absoluteOffset : Nat
  dataBytes : Nat
  dtype : String
  shape : List Nat
  deriving DecidableEq, Repr

structure Checkpoint where
  layers : Nat
  experts : Nat
  tensors : String → Option SafetensorLocation
  /-- The files below the checkpoint's root. -/
  files : String → Option (List UInt8)
  /-- `source_fingerprint` of the checkpoint. -/
  fingerprint : Except SidecarError (Vector UInt8 32)

namespace Checkpoint

variable (checkpoint : Checkpoint)

def tensor (name : String) : Except SidecarError SafetensorLocation :=
  match checkpoint.tensors name with
  | some tensor => .ok tensor
  | none => .error (.checkpoint ("checkpoint tensor is missing: " ++ name))

/-- `read_exact_at` of a file below the root. -/
def readExactAt (file : String) (offset bytes : Nat) : Except SidecarError (List UInt8) :=
  match checkpoint.files file with
  | none => .error .io
  | some contents =>
    if offset + bytes ≤ contents.length then .ok ((contents.drop offset).take bytes)
    else .error .io

end Checkpoint

def validateLocation (name : String) (tensor : SafetensorLocation) (dtype : String)
    (shape : List Nat) (bytes : Nat) : Except SidecarError Unit :=
  if tensor.dtype ≠ dtype ∨ tensor.shape ≠ shape ∨ tensor.dataBytes ≠ bytes then
    .error (.invalid ("tensor " ++ name ++ " expected " ++ dtype ++ " " ++ toString shape ++ " " ++
      toString bytes ++ " bytes, got " ++ tensor.dtype ++ " " ++ toString tensor.shape ++ " " ++
      toString tensor.dataBytes ++ " bytes"))
  else .ok ()

/-- `interleave_128x4`, into a buffer of `rows * columns` bytes. -/
def interleave128x4 (input : List UInt8) (rows columns : Nat) : List UInt8 :=
  let columnBlocks := columns / 4
  let output : Mem UInt8 :=
    (List.range (rows / 128)).foldl
      (fun output rowBlock => (List.range columnBlocks).foldl
        (fun output columnBlock => (List.range 32).foldl
          (fun output rowLane => (List.range 4).foldl
            (fun output rowFour =>
              let row := rowBlock * 128 + rowFour * 32 + rowLane
              let source := row * columns + columnBlock * 4
              let destination :=
                (((rowBlock * columnBlocks + columnBlock) * 32 + rowLane) * 4 + rowFour) * 4
              output.write destination ((input.drop source).take 4))
            output)
          output)
        output)
      (fun _ => 0)
  output.slice 0 (rows * columns)

/-! ## Tensors -/

section Tensors

variable (checkpoint : Checkpoint)

def readTensor (name dtype : String) (shape : List Nat) (bytes : Nat) :
    Except SidecarError (List UInt8) := do
  let tensor ← checkpoint.tensor name
  validateLocation name tensor dtype shape bytes
  checkpoint.readExactAt tensor.relativeFile tensor.absoluteOffset bytes

def readInterleavedScale (name : String) (rows columns : Nat) : Except SidecarError (List UInt8) := do
  let scale ← readTensor checkpoint name "F8_E4M3" [rows, columns] (rows * columns)
  return interleave128x4 scale rows columns

def readF32 (name : String) : Except SidecarError Float32 := do
  let bytes ← readTensor checkpoint name "F32" [] 4
  return Float32.ofBits (UInt32.ofNat (leNat bytes))

def f32Bytes (value : Float32) : List UInt8 := leBytes 4 value.toBits.toNat

def tensorName (layer expert : Nat) (suffix : String) : String :=
  "model.language_model.layers." ++ toString layer ++ ".mlp.experts." ++ toString expert ++ "." ++ suffix

/-- `pack_record`: the slices of the record it fills, one after the other. -/
def packRecord (layer expert : Nat) : Except SidecarError (List UInt8) := do
  let name := tensorName layer expert
  let gateWeight ← readTensor checkpoint (name "gate_proj.weight") "U8" [640, 1280] 819200
  let upWeight ← readTensor checkpoint (name "up_proj.weight") "U8" [640, 1280] 819200
  let downWeight ← readTensor checkpoint (name "down_proj.weight") "U8" [2560, 320] 819200
  let gateScale ← readInterleavedScale checkpoint (name "gate_proj.weight_scale") 640 160
  let upScale ← readInterleavedScale checkpoint (name "up_proj.weight_scale") 640 160
  let downScale ← readInterleavedScale checkpoint (name "down_proj.weight_scale") 2560 40
  let gateInput ← readF32 checkpoint (name "gate_proj.input_scale")
  let gateFactor ← readF32 checkpoint (name "gate_proj.weight_scale_2")
  let downInput ← readF32 checkpoint (name "down_proj.input_scale")
  let downFactor ← readF32 checkpoint (name "down_proj.weight_scale_2")
  return gateWeight ++ upWeight ++ downWeight ++ gateScale ++ upScale ++ downScale ++
    f32Bytes (1 / gateInput) ++ f32Bytes (gateInput * gateFactor) ++
    f32Bytes (1 / downInput) ++ f32Bytes (downInput * downFactor)

/-! ## Layers -/

/-- What one `write_tensor` writes. -/
def weightPiece (layer expert : Nat) (suffix : String) (shape : List Nat) :
    Except SidecarError (List UInt8) :=
  readTensor checkpoint (tensorName layer expert suffix) "U8" shape 819200

/-- What one `write_scale` writes. -/
def scalePiece (layer expert : Nat) (suffix : String) (rows columns : Nat) :
    Except SidecarError (List UInt8) :=
  readInterleavedScale checkpoint (tensorName layer expert suffix) rows columns

/-- What `write_scalar_plane` writes for one expert. -/
def scalarPiece (layer expert : Nat) (projection : String) (reciprocalInput : Bool) :
    Except SidecarError (List UInt8) := do
  let input ← readF32 checkpoint (tensorName layer expert (projection ++ ".input_scale"))
  if reciprocalInput then
    return f32Bytes (1 / input)
  else
    let factor ← readF32 checkpoint (tensorName layer expert (projection ++ ".weight_scale_2"))
    return f32Bytes (input * factor)

def expertsPerLayerV2 : Nat := 512

/-- The writes of `pack_layer`, in order. -/
def layerPieces (layer : Nat) : List (Except SidecarError (List UInt8)) :=
  let experts := List.range expertsPerLayerV2
  experts.flatMap (fun expert =>
    [weightPiece checkpoint layer expert "up_proj.weight" [640, 1280],
      weightPiece checkpoint layer expert "gate_proj.weight" [640, 1280]]) ++
  experts.map (fun expert => weightPiece checkpoint layer expert "down_proj.weight" [2560, 320]) ++
  experts.flatMap (fun expert =>
    [scalePiece checkpoint layer expert "up_proj.weight_scale" 640 160,
      scalePiece checkpoint layer expert "gate_proj.weight_scale" 640 160]) ++
  experts.map (fun expert => scalePiece checkpoint layer expert "down_proj.weight_scale" 2560 40) ++
  experts.map (fun expert => scalarPiece checkpoint layer expert "gate_proj" true) ++
  experts.map (fun expert => scalarPiece checkpoint layer expert "gate_proj" false) ++
  experts.map (fun expert => scalarPiece checkpoint layer expert "down_proj" true) ++
  experts.map (fun expert => scalarPiece checkpoint layer expert "down_proj" false)

/-- The bytes of a layer. -/
def packedLayer (layer : Nat) : Except SidecarError (List UInt8) := do
  return (← (layerPieces checkpoint layer).mapM id).flatten

/-! ## Lengths -/

variable {checkpoint}

theorem bind_ok {α β : Type} {x : Except SidecarError α} {f : α → Except SidecarError β} {b : β}
    (h : (x >>= f) = .ok b) : ∃ a, x = .ok a ∧ f a = .ok b := by
  cases x with
  | error e => cases h
  | ok a => exact ⟨a, rfl, h⟩

theorem ok_bind {α β : Type} (a : α) (f : α → Except SidecarError β) : (Except.ok a >>= f) = f a := rfl

theorem length_readTensor {name dtype : String} {shape : List Nat} {bytes : Nat} {out : List UInt8}
    (h : readTensor checkpoint name dtype shape bytes = .ok out) : out.length = bytes := by
  obtain ⟨tensor, -, h⟩ := bind_ok h
  obtain ⟨-, -, h⟩ := bind_ok h
  unfold Checkpoint.readExactAt at h
  split at h
  · cases h
  · split at h
    · next contents _ hend =>
      cases h
      rw [List.length_take, List.length_drop]
      omega
    · cases h

theorem length_readInterleavedScale {name : String} {rows columns : Nat} {out : List UInt8}
    (h : readInterleavedScale checkpoint name rows columns = .ok out) : out.length = rows * columns := by
  obtain ⟨scale, -, h⟩ := bind_ok h
  cases h
  exact Mem.length_slice _ _ _

theorem length_f32Bytes (value : Float32) : (f32Bytes value).length = 4 := length_leBytes 4 _

theorem length_scalarPiece {layer expert : Nat} {projection : String} {reciprocalInput : Bool}
    {out : List UInt8} (h : scalarPiece checkpoint layer expert projection reciprocalInput = .ok out) :
    out.length = 4 := by
  obtain ⟨input, -, h⟩ := bind_ok h
  cases reciprocalInput with
  | true => cases h; exact length_f32Bytes _
  | false =>
    obtain ⟨factor, -, h⟩ := bind_ok h
    cases h
    exact length_f32Bytes _

theorem length_packRecord {layer expert : Nat} {out : List UInt8}
    (h : packRecord checkpoint layer expert = .ok out) : out.length = formatV1.recordBytes := by
  obtain ⟨gateWeight, hgateWeight, h⟩ := bind_ok h
  obtain ⟨upWeight, hupWeight, h⟩ := bind_ok h
  obtain ⟨downWeight, hdownWeight, h⟩ := bind_ok h
  obtain ⟨gateScale, hgateScale, h⟩ := bind_ok h
  obtain ⟨upScale, hupScale, h⟩ := bind_ok h
  obtain ⟨downScale, hdownScale, h⟩ := bind_ok h
  obtain ⟨gateInput, -, h⟩ := bind_ok h
  obtain ⟨gateFactor, -, h⟩ := bind_ok h
  obtain ⟨downInput, -, h⟩ := bind_ok h
  obtain ⟨downFactor, -, h⟩ := bind_ok h
  cases h
  simp only [List.length_append, length_f32Bytes, length_readTensor hgateWeight,
    length_readTensor hupWeight, length_readTensor hdownWeight,
    length_readInterleavedScale hgateScale, length_readInterleavedScale hupScale,
    length_readInterleavedScale hdownScale]
  rfl

/-- The pieces that can be read have these sizes. -/
def Sized (sizes : List Nat) (pieces : List (Except SidecarError (List UInt8))) : Prop :=
  List.Forall₂ (fun size piece => ∀ bytes, piece = .ok bytes → bytes.length = size) sizes pieces

theorem Sized.append {sizes sizes' : List Nat} {front back : List (Except SidecarError (List UInt8))}
    (hfront : Sized sizes front) (hback : Sized sizes' back) :
    Sized (sizes ++ sizes') (front ++ back) :=
  List.rel_append hfront hback

theorem sized_of_uniform {n : Nat} {pieces : List (Except SidecarError (List UInt8))}
    (h : ∀ piece ∈ pieces, ∀ bytes, piece = .ok bytes → bytes.length = n) :
    Sized (List.replicate pieces.length n) pieces := by
  induction pieces with
  | nil => exact .nil
  | cons piece pieces ih =>
    exact .cons (h piece (List.mem_cons_self ..))
      (ih fun later hlater => h later (List.mem_cons_of_mem _ hlater))

/-- Together the pieces have as many bytes as their sizes add up to. -/
theorem Sized.length_flatten {sizes : List Nat} {pieces : List (Except SidecarError (List UInt8))}
    {parts : List (List UInt8)} (h : Sized sizes pieces) (hparts : pieces.mapM id = .ok parts) :
    parts.flatten.length = sizes.sum := by
  induction h generalizing parts with
  | nil => cases hparts; rfl
  | cons hpiece _ ih =>
    rw [List.mapM_cons] at hparts
    obtain ⟨first, hfirst, hparts⟩ := bind_ok hparts
    obtain ⟨rest, hrest, hparts⟩ := bind_ok hparts
    cases hparts
    rw [List.flatten_cons, List.length_append, hpiece first hfirst, ih hrest, List.sum_cons]

/-- One piece of `n` bytes for every expert. -/
theorem sized_plane {n : Nat} {piece : Nat → Except SidecarError (List UInt8)}
    (h : ∀ expert bytes, piece expert = .ok bytes → bytes.length = n) :
    Sized (List.replicate 512 n) ((List.range expertsPerLayerV2).map piece) := by
  have hall : ∀ p ∈ (List.range expertsPerLayerV2).map piece, ∀ bytes, p = .ok bytes →
      bytes.length = n := by
    intro p hp bytes hbytes
    obtain ⟨expert, -, rfl⟩ := List.mem_map.mp hp
    exact h expert bytes hbytes
  have hsized := sized_of_uniform hall
  rw [List.length_map, List.length_range] at hsized
  exact hsized

/-- Two pieces of `n` bytes for every expert. -/
theorem sized_pairs {n : Nat} {up gate : Nat → Except SidecarError (List UInt8)}
    (hup : ∀ expert bytes, up expert = .ok bytes → bytes.length = n)
    (hgate : ∀ expert bytes, gate expert = .ok bytes → bytes.length = n) :
    Sized (List.replicate (512 * 2) n)
      ((List.range expertsPerLayerV2).flatMap fun expert => [up expert, gate expert]) := by
  have hall : ∀ p ∈ (List.range expertsPerLayerV2).flatMap (fun expert => [up expert, gate expert]),
      ∀ bytes, p = .ok bytes → bytes.length = n := by
    intro p hp bytes hbytes
    obtain ⟨expert, -, hp⟩ := List.mem_flatMap.mp hp
    rcases List.mem_pair.mp hp with rfl | rfl
    · exact hup expert bytes hbytes
    · exact hgate expert bytes hbytes
  have hlength (k : Nat) :
      ((List.range k).flatMap fun expert => [up expert, gate expert]).length = k * 2 := by
    simp [List.length_flatMap]
  have hsized := sized_of_uniform hall
  rw [hlength] at hsized
  exact hsized

theorem sized_layerPieces (layer : Nat) :
    ∃ sizes, Sized sizes (layerPieces checkpoint layer) ∧ sizes.sum = formatV2.recordBytes := by
  have hweights := sized_pairs
    (fun expert _ h => length_readTensor
      (show weightPiece checkpoint layer expert "up_proj.weight" [640, 1280] = _ from h))
    (fun expert _ h => length_readTensor
      (show weightPiece checkpoint layer expert "gate_proj.weight" [640, 1280] = _ from h))
  have hdown := sized_plane
    (fun expert _ h => length_readTensor
      (show weightPiece checkpoint layer expert "down_proj.weight" [2560, 320] = _ from h))
  have hscales := sized_pairs
    (fun expert _ h => length_readInterleavedScale
      (show scalePiece checkpoint layer expert "up_proj.weight_scale" 640 160 = _ from h))
    (fun expert _ h => length_readInterleavedScale
      (show scalePiece checkpoint layer expert "gate_proj.weight_scale" 640 160 = _ from h))
  have hdownScales := sized_plane
    (fun expert _ h => length_readInterleavedScale
      (show scalePiece checkpoint layer expert "down_proj.weight_scale" 2560 40 = _ from h))
  have hscalars (projection : String) (reciprocalInput : Bool) := sized_plane
    (fun expert _ h => length_scalarPiece
      (show scalarPiece checkpoint layer expert projection reciprocalInput = _ from h))
  refine ⟨_, ((((((hweights.append hdown).append hscales).append hdownScales).append
    (hscalars "gate_proj" true)).append (hscalars "gate_proj" false)).append
    (hscalars "down_proj" true)).append (hscalars "down_proj" false), ?_⟩
  simp only [List.sum_append_nat, List.sum_replicate_nat]
  decide

/-- What a build is to produce: the records of a checkpoint, each of the format's size, under its
fingerprint. -/
structure Plan (format : Format) where
  checkpoint : Checkpoint
  fingerprint : Vector UInt8 32
  record : Nat → Except SidecarError (List UInt8)
  length : ∀ index bytes, record index = .ok bytes → bytes.length = format.recordBytes

variable (checkpoint)

def planV1 (fingerprint : Vector UInt8 32) : Plan formatV1 where
  checkpoint := checkpoint
  fingerprint := fingerprint
  record index := packRecord checkpoint (index / 512) (index % 512)
  length _ _ h := length_packRecord h

def planV2 (fingerprint : Vector UInt8 32) : Plan formatV2 where
  checkpoint := checkpoint
  fingerprint := fingerprint
  record layer := packedLayer checkpoint layer
  length layer bytes h := by
    obtain ⟨parts, hparts, h⟩ := bind_ok h
    obtain ⟨sizes, hsized, hsum⟩ := sized_layerPieces layer
    cases h
    rw [hsized.length_flatten hparts, hsum]

end Tensors

end Spark.Sidecar
