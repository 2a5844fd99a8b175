import Spark.FlashNext.GroupedLayout

/-!
# The route plan of a batch

`RoutePlan::build` of `routing.rs` sorts the routes of a batch, one for each token and rank, by expert: it counts
the routes of each expert, lays the counts out and deals the routes to the rows of their experts. Every index,
slice and sum that is not checked is an access that panics.
-/

namespace Spark.FlashNext

open Outcome

/-- `RouteError`, with the errors of the functions modelled here. -/
inductive RouteError where
  | invalidShape
  | invalidLayout
  | integerOverflow
  | routeCount (expected actual : Nat)
  | expertOutOfRange (route expert numExperts : Nat)
  | duplicateExpert (token expert : Nat)
  | kernelContract (error : KernelContractError)
  deriving DecidableEq, Repr

/-- `PADDED_ROUTE`, `u32::MAX`. -/
def paddedRoute : Nat := 2 ^ 32 - 1

structure RoutePlan where
  numTokens : Nat
  topK : Nat
  numExperts : Nat
  routeExperts : List Nat
  expertRows : List Nat
  grouped : GroupedExpertLayout
  routeToPackedRow : List Nat
  packedRowToRoute : List Nat
  deriving DecidableEq, Repr

/-- One route of a token is counted. -/
def countRoute (numExperts token first : Nat) (tokenExperts : List Nat) (rank expert : Nat) (expertRows : List Nat) :
    Except (Fault RouteError) (List Nat) := do
  reject (expert ≥ numExperts) (.error (.expertOutOfRange (first + rank) expert numExperts))
  let earlier ← sliceAt tokenExperts 0 rank
  reject (expert ∈ earlier) (.error (.duplicateExpert token expert))
  let rows ← readAt expertRows expert
  let rows ← okOr (Word.checkedAdd 32 rows 1) (.error .integerOverflow)
  writeAt expertRows expert rows

/-- One round of the loop over the tokens. -/
def countToken (topK numExperts : Nat) (expertIds : List Nat) (token : Nat) (expertRows : List Nat) :
    Except (Fault RouteError) (List Nat) := do
  let first ← okOr (Word.checkedMul 64 token topK) .panic
  let last ← okOr (Word.checkedAdd 64 first topK) .panic
  let tokenExperts ← sliceAt expertIds first last
  forEach (countRoute numExperts token first tokenExperts) tokenExperts 0 expertRows

/-- `u32::try_from` of an `i32`. -/
def u32OfI32 (value : Int) : Option Nat :=
  if 0 ≤ value then some value.toNat else none

/-- `u32::try_from` of a `usize`. -/
def u32OfUsize (value : Nat) : Option Nat :=
  if value < 2 ^ 32 then some value else none

/-- The variables of the loop that deals out the routes. -/
structure Scatter where
  cursors : List Nat
  routeToPackedRow : List Nat
  packedRowToRoute : List Nat
  deriving DecidableEq, Repr

/-- One route goes to the next row of its expert. -/
def scatterRoute (route expert : Nat) (s : Scatter) : Except (Fault RouteError) Scatter := do
  let packedRow ← readAt s.cursors expert
  let cursor ← okOr (Word.checkedAdd 32 packedRow 1) (.error .integerOverflow)
  let cursors ← writeAt s.cursors expert cursor
  let routeToPackedRow ← writeAt s.routeToPackedRow route packedRow
  let routeId ← okOr (u32OfUsize route) (.error .integerOverflow)
  let packedRowToRoute ← writeAt s.packedRowToRoute packedRow routeId
  .ok { cursors, routeToPackedRow, packedRowToRoute }

/-- `RoutePlan::build`. -/
def RoutePlan.build (numTokens topK numExperts : Nat) (expertIds : List Nat) :
    Except (Fault RouteError) RoutePlan := do
  reject (numTokens = 0 ∨ topK = 0 ∨ numExperts = 0 ∨ numExperts > 512) (.error .invalidShape)
  reject (topK > numExperts) (.error .invalidShape)
  let routes ← okOr (Word.checkedMul 64 numTokens topK) (.error .integerOverflow)
  reject (expertIds.length ≠ routes) (.error (.routeCount routes expertIds.length))
  let expertRows ← forEach (fun _ token expertRows => countToken topK numExperts expertIds token expertRows)
    (List.range numTokens) 0 (List.replicate numExperts 0)
  let grouped ← raise .kernelContract (GroupedExpertLayout.fromExpertRows expertRows)
  let segments ← sliceAt grouped.mIndptr 0 numExperts
  let cursors ← segments.mapM fun offset => okOr (u32OfI32 offset) (.error .integerOverflow)
  let scatter ← forEach scatterRoute expertIds 0
    { cursors
      routeToPackedRow := List.replicate routes 0
      packedRowToRoute := List.replicate grouped.totalRows paddedRoute }
  .ok
    { numTokens, topK, numExperts
      routeExperts := expertIds
      expertRows, grouped
      routeToPackedRow := scatter.routeToPackedRow
      packedRowToRoute := scatter.packedRowToRoute }

/-- `useful_rows`. -/
def RoutePlan.usefulRows (plan : RoutePlan) : Except (Fault RouteError) Nat :=
  okOr (Word.checkedMul 64 plan.numTokens plan.topK) .panic

/-- `padded_rows`. -/
def RoutePlan.paddedRows (plan : RoutePlan) : Except (Fault RouteError) Nat := do
  let usefulRows ← plan.usefulRows
  okOr (Word.checkedSub plan.grouped.totalRows usefulRows) .panic

structure MoeRouteSpec where
  numTokens : Nat
  topK : Nat
  numExperts : Nat
  hiddenSize : Nat
  totalRows : Nat
  deriving DecidableEq, Repr

structure MoeRouteBuffers where
  tokenInputBytes : Nat
  routeMapBytes : Nat
  packedInputBytes : Nat
  routeWeightBytes : Nat
  packedExpertOutputBytes : Nat
  tokenOutputBytes : Nat
  deriving DecidableEq, Repr

/-- A product of three checked factors. -/
def checkedBytes (count hiddenSize : Nat) : Except (Fault RouteError) Nat :=
  okOr ((Word.checkedMul 64 count hiddenSize).bind fun value => Word.checkedMul 64 value 2)
    (.error .integerOverflow)

/-- `MoeRouteSpec::buffer_requirements`. -/
def MoeRouteSpec.bufferRequirements (spec : MoeRouteSpec) : Except (Fault RouteError) MoeRouteBuffers := do
  let routes ← okOr (Word.checkedMul 64 spec.numTokens spec.topK) (.error .integerOverflow)
  let tokenBytes ← checkedBytes spec.numTokens spec.hiddenSize
  let packedBytes ← checkedBytes spec.totalRows spec.hiddenSize
  let routeMapBytes ← okOr (Word.checkedMul 64 routes 4) (.error .integerOverflow)
  let routeWeightBytes ← okOr (Word.checkedMul 64 routes 4) (.error .integerOverflow)
  .ok
    { tokenInputBytes := tokenBytes
      routeMapBytes
      packedInputBytes := packedBytes
      routeWeightBytes
      packedExpertOutputBytes := packedBytes
      tokenOutputBytes := tokenBytes }

/-- `MoeRouteSpec::validate`. -/
def MoeRouteSpec.validate (spec : MoeRouteSpec) : Except (Fault RouteError) Unit := do
  reject (spec.numTokens = 0 ∨ spec.topK = 0 ∨ spec.numExperts = 0 ∨ spec.numExperts > 512 ∨
    spec.topK > spec.numExperts ∨ spec.topK > 32) (.error .invalidShape)
  let usefulRows ← okOr (Word.checkedMul 64 spec.numTokens spec.topK) .panic
  reject (spec.hiddenSize = 0 ∨ spec.hiddenSize % 8 ≠ 0 ∨ spec.totalRows = 0 ∨ spec.totalRows % 4 ≠ 0 ∨
    spec.totalRows < usefulRows) (.error .invalidLayout)
  let _ ← spec.bufferRequirements
  .ok ()

/-- `kernel_spec`. -/
def RoutePlan.kernelSpec (plan : RoutePlan) (hiddenSize : Nat) : Except (Fault RouteError) MoeRouteSpec := do
  let spec : MoeRouteSpec :=
    { numTokens := plan.numTokens
      topK := plan.topK
      numExperts := plan.numExperts
      hiddenSize
      totalRows := plan.grouped.totalRows }
  spec.validate
  .ok spec

end Spark.FlashNext
