import Spark.Lib.Outcome
import Spark.Lib.Traverse

/-!
# The rows of a grouped expert problem

`GroupedExpertLayout::from_expert_rows` of `kernel.rs` and the specifications that are derived from a layout. The
rows of an expert are padded to four for the GEMM, and to 128 in the arena of the scales, whose offsets are not
accumulated but rounded from the offset of the rows and the index of the expert.
-/

namespace Spark.FlashNext

open Outcome

/-- `KernelContractError`, with the errors of the functions modelled here. -/
inductive KernelContractError where
  | zeroDimension
  | dimensionOverflow
  | unsupportedGroupSize (size : Nat)
  | unsupportedScaleLayout
  | unsupportedOutputType
  | invalidExpertCount (count : Nat)
  | routedRowCountOverflow
  | invalidRoutedPadding
  | groupedAlignment
  | unsupportedGroupedTactic
  | unsupportedInputType
  | unsupportedFusedTactic
  deriving DecidableEq, Repr

/-- `align_up`. -/
def alignUp (value alignment : Nat) : Except KernelContractError Nat :=
  if value = 0 then .error .zeroDimension
  else
    let remainder := value % alignment
    if remainder = 0 then .ok value
    else okOr (Word.checkedAdd 64 value (alignment - remainder)) .dimensionOverflow

/-- `i32::try_from` of a `u64`. -/
def i32OfU64 (value : Nat) : Option Int :=
  if value < 2 ^ 31 then some value else none

structure GroupedExpertLayout where
  mIndptr : List Int
  scaleRowOffsets : List Nat
  totalRows : Nat
  inputScaleRows : Nat
  deriving DecidableEq, Repr

/-- One round of the loop of `from_expert_rows`. The four variables of the loop are the fields of the result. -/
def GroupedExpertLayout.pushExpert (expertIndex rows : Nat) (layout : GroupedExpertLayout) :
    Except KernelContractError GroupedExpertLayout := do
  let paddedRows ← (if rows = 0 then .ok 0 else alignUp rows 4)
  let spread ← okOr (Word.checkedMul 64 expertIndex 127) .dimensionOverflow
  let scaleOffsetNumerator ← okOr (Word.checkedAdd 64 layout.totalRows spread) .dimensionOverflow
  let scaleOffset := scaleOffsetNumerator / 128 * 128
  -- even an empty expert points into an allocated tile
  let expertScaleRows ← (if paddedRows = 0 then .ok 128 else alignUp paddedRows 128)
  let scaleEnd ← okOr (Word.checkedAdd 64 scaleOffset expertScaleRows) .dimensionOverflow
  let totalRows ← okOr (Word.checkedAdd 64 layout.totalRows paddedRows) .dimensionOverflow
  let rowEnd ← okOr (i32OfU64 totalRows) .routedRowCountOverflow
  .ok
    { mIndptr := layout.mIndptr ++ [rowEnd]
      scaleRowOffsets := layout.scaleRowOffsets ++ [scaleOffset]
      totalRows := totalRows
      inputScaleRows := max layout.inputScaleRows scaleEnd }

/-- `GroupedExpertLayout::from_expert_rows`. -/
def GroupedExpertLayout.fromExpertRows (expertRows : List Nat) :
    Except KernelContractError GroupedExpertLayout := do
  reject (expertRows = [] ∨ expertRows.length > 512) (.invalidExpertCount expertRows.length)
  let layout ← forEach (fun i rows layout => layout.pushExpert i rows) expertRows 0
    { mIndptr := [0], scaleRowOffsets := [], totalRows := 0, inputScaleRows := 0 }
  reject (layout.totalRows = 0) .zeroDimension
  .ok layout

/-! ## Derived specifications -/

inductive DataType where
  | invalid
  | bFloat16
  | nvfp4E2m1Packed
  | fp8E4m3
  | float32
  | int32
  deriving DecidableEq, Repr

inductive ScaleLayout where
  | invalid
  | linear
  | cutlass128x4
  deriving DecidableEq, Repr

/-- `KernelBackend`, with the members the specifications below ask for. -/
inductive KernelBackend where
  | auto
  | flashInferGroupMmFp4
  | flashInferCuteSiluNvfp4
  | flashInferCuteNvfp4Quantize
  deriving DecidableEq, Repr

/-- `checked_product`. -/
def checkedProduct (values : List Nat) : Except KernelContractError Nat :=
  forEach (fun _ value product => okOr (Word.checkedMul 64 product value) .dimensionOverflow) values 0 1

/-- `NVFP4_GROUP_SIZE`. -/
def nvfp4GroupSize : Nat := 16

structure GroupedNvfp4Spec where
  numGroups : Nat
  totalRows : Nat
  inputScaleRows : Nat
  n : Nat
  k : Nat
  groupSize : Nat
  tileM : Nat
  tileN : Nat
  tileK : Nat
  swapAb : Bool
  inputScaleLayout : ScaleLayout
  weightScaleLayout : ScaleLayout
  outputDtype : DataType
  requestedBackend : KernelBackend
  deriving DecidableEq, Repr

structure GroupedNvfp4Buffers where
  packedInputBytes : Nat
  inputScaleBytes : Nat
  packedWeightBytes : Nat
  weightScaleBytes : Nat
  outputBytes : Nat
  intWorkspaceBytes : Nat
  floatWorkspaceBytes : Nat
  deriving DecidableEq, Repr

def GroupedNvfp4Spec.bufferRequirements (spec : GroupedNvfp4Spec) :
    Except KernelContractError GroupedNvfp4Buffers := do
  let packedInputBytes ← checkedProduct [spec.totalRows, spec.k / 2]
  let inputScaleBytes ← checkedProduct [spec.inputScaleRows, spec.k / spec.groupSize]
  let packedWeightBytes ← checkedProduct [spec.numGroups, spec.n, spec.k / 2]
  let weightScaleBytes ← checkedProduct [spec.numGroups, spec.n, spec.k / spec.groupSize]
  let outputBytes ← checkedProduct [spec.totalRows, spec.n, 2]
  .ok
    { packedInputBytes, inputScaleBytes, packedWeightBytes, weightScaleBytes, outputBytes
      intWorkspaceBytes := 32 * 1024 * 1024
      floatWorkspaceBytes := 32 * 1024 * 1024 }

/-- `GroupedNvfp4Spec::validate`. -/
def GroupedNvfp4Spec.validate (spec : GroupedNvfp4Spec) : Except KernelContractError Unit := do
  reject (spec.numGroups = 0 ∨ spec.numGroups > 512) (.invalidExpertCount spec.numGroups)
  reject (spec.totalRows = 0 ∨ spec.n = 0 ∨ spec.k = 0) .zeroDimension
  reject (spec.totalRows % 4 ≠ 0 ∨ spec.inputScaleRows < spec.totalRows ∨ spec.inputScaleRows % 128 ≠ 0)
    .invalidRoutedPadding
  reject (spec.n % 128 ≠ 0 ∨ spec.k % 128 ≠ 0) .groupedAlignment
  reject (spec.groupSize ≠ nvfp4GroupSize) (.unsupportedGroupSize spec.groupSize)
  reject (spec.tileM ≠ 128 ∨ spec.tileN ≠ 128 ∨ spec.tileK ≠ 256 ∨ spec.swapAb = true) .unsupportedGroupedTactic
  reject (spec.inputScaleLayout ≠ .cutlass128x4 ∨ spec.weightScaleLayout ≠ .cutlass128x4) .unsupportedScaleLayout
  reject (spec.outputDtype ≠ .bFloat16) .unsupportedOutputType
  let _ ← spec.bufferRequirements
  .ok ()

/-- `u32::try_from` of a length. -/
def u32OfLength (length : Nat) : Except KernelContractError Nat :=
  if length < 2 ^ 32 then .ok length else .error .dimensionOverflow

/-- `GroupedNvfp4Spec::qwen_expert_projection`. -/
def GroupedNvfp4Spec.qwenExpertProjection (layout : GroupedExpertLayout) (n k : Nat) :
    Except KernelContractError GroupedNvfp4Spec := do
  let numGroups ← u32OfLength layout.scaleRowOffsets.length
  let spec : GroupedNvfp4Spec :=
    { numGroups
      totalRows := layout.totalRows
      inputScaleRows := layout.inputScaleRows
      n, k
      groupSize := nvfp4GroupSize
      tileM := 128
      tileN := 128
      tileK := 256
      swapAb := false
      inputScaleLayout := .cutlass128x4
      weightScaleLayout := .cutlass128x4
      outputDtype := .bFloat16
      requestedBackend := .flashInferGroupMmFp4 }
  spec.validate
  .ok spec

/-- The fields of `SegmentedSiluNvfp4Spec` and of `SegmentedNvfp4QuantizeSpec`. -/
structure SegmentedSpec where
  numExperts : Nat
  totalRows : Nat
  inputScaleRows : Nat
  hiddenSize : Nat
  groupSize : Nat
  inputDtype : DataType
  outputScaleLayout : ScaleLayout
  requestedBackend : KernelBackend
  deriving DecidableEq, Repr

/-- The fields of `SegmentedSiluNvfp4Buffers` and of `SegmentedNvfp4QuantizeBuffers`. -/
structure SegmentedBuffers where
  inputBytes : Nat
  packedOutputBytes : Nat
  outputScaleBytes : Nat
  globalScaleBytes : Nat
  hostMetadataBytes : Nat
  deriving DecidableEq, Repr

/-- `buffer_requirements` of a segmented kernel that reads `bytesPerInput` bytes for each element of a row. -/
def SegmentedSpec.bufferRequirements (bytesPerInput : Nat) (spec : SegmentedSpec) :
    Except KernelContractError SegmentedBuffers := do
  let inputBytes ← checkedProduct [spec.totalRows, spec.hiddenSize, bytesPerInput]
  let packedOutputBytes ← checkedProduct [spec.totalRows, spec.hiddenSize / 2]
  let outputScaleBytes ← checkedProduct [spec.inputScaleRows, spec.hiddenSize / spec.groupSize]
  let globalScaleBytes ← checkedProduct [spec.numExperts, 4]
  let metadata ← checkedProduct [spec.numExperts, 16]
  let hostMetadataBytes ← okOr (Word.checkedAdd 64 metadata 4) .dimensionOverflow
  .ok { inputBytes, packedOutputBytes, outputScaleBytes, globalScaleBytes, hostMetadataBytes }

/-- `validate` of a segmented kernel that runs on `backend`. -/
def SegmentedSpec.validate (backend : KernelBackend) (bytesPerInput : Nat) (spec : SegmentedSpec) :
    Except KernelContractError Unit := do
  reject (spec.numExperts = 0 ∨ spec.numExperts > 512) (.invalidExpertCount spec.numExperts)
  reject (spec.totalRows = 0 ∨ spec.totalRows % 4 ≠ 0 ∨ spec.inputScaleRows < spec.totalRows ∨
    spec.inputScaleRows % 128 ≠ 0) .invalidRoutedPadding
  reject (spec.hiddenSize = 0 ∨ spec.hiddenSize % 128 ≠ 0) .groupedAlignment
  reject (spec.groupSize ≠ nvfp4GroupSize) (.unsupportedGroupSize spec.groupSize)
  reject (spec.inputDtype ≠ .bFloat16) .unsupportedInputType
  reject (spec.outputScaleLayout ≠ .cutlass128x4) .unsupportedScaleLayout
  reject (¬ (spec.requestedBackend = .auto ∨ spec.requestedBackend = backend)) .unsupportedFusedTactic
  let _ ← spec.bufferRequirements bytesPerInput
  .ok ()

/-- `from_grouped_layout` of a segmented kernel. -/
def SegmentedSpec.fromGroupedLayout (backend : KernelBackend) (bytesPerInput : Nat) (layout : GroupedExpertLayout)
    (hiddenSize : Nat) : Except KernelContractError SegmentedSpec := do
  let numExperts ← u32OfLength (layout.mIndptr.length - 1)
  let spec : SegmentedSpec :=
    { numExperts
      totalRows := layout.totalRows
      inputScaleRows := layout.inputScaleRows
      hiddenSize
      groupSize := nvfp4GroupSize
      inputDtype := .bFloat16
      outputScaleLayout := .cutlass128x4
      requestedBackend := backend }
  spec.validate backend bytesPerInput
  .ok spec

/-- `SegmentedSiluNvfp4Spec::from_grouped_layout`. -/
def segmentedSiluNvfp4Spec : GroupedExpertLayout → Nat → Except KernelContractError SegmentedSpec :=
  SegmentedSpec.fromGroupedLayout .flashInferCuteSiluNvfp4 4

/-- `SegmentedNvfp4QuantizeSpec::from_grouped_layout`. -/
def segmentedNvfp4QuantizeSpec : GroupedExpertLayout → Nat → Except KernelContractError SegmentedSpec :=
  SegmentedSpec.fromGroupedLayout .flashInferCuteNvfp4Quantize 2

end Spark.FlashNext
