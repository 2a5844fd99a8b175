import Mathlib.Data.List.Sort
import Spark.FlashNext.RouteGrouping
import Spark.Lib.BinarySearch

/-!
# The route of a batch in the fixed arena

`run_moe` of `engine.rs`, as far as the resident experts need it: the experts that a bucket of tokens selects are
read back, their union is sorted, and each route is renumbered by its place in the union. A single token skips all
of it, and its ten ranks are its ten groups. `run_moe_batch` then refuses a route that the arena has no room for.

* **`ends_compactRoute`** — the renumbered routes are what `RoutePlan::build` asks for.
* **`Built.fits`** — no route of at most 160 rows and groups is refused.
* **`moe_route_fits`** — every bucket gets its route.
-/

namespace Spark.FlashNext

open Outcome Grouping BinarySearch

/-! ## `run_moe` -/

/-- `TOP_K` and `ACTIVE_EXPERTS`. -/
def moeTopK : Nat := 10

/-- `PREFILL_CHUNK_TOKENS`. -/
def prefillChunkTokens : Nat := 16

/-- `MAX_MOE_GROUPS`. -/
def maxMoeGroups : Nat := prefillChunkTokens * moeTopK

/-- `MOE_PADDED_ROWS`. -/
def moePaddedRows : Nat := maxMoeGroups * 4

/-- `MOE_SCALE_ROWS`. -/
def moeScaleRows : Nat := 20864

/-- `LAYERS`. -/
def moeLayers : Nat := 48

/-- `DECODE_COMPACT_IDS`. -/
def decodeCompactIds : List Int := [0, 1, 2, 3, 4, 5, 6, 7, 8, 9]

/-- The boxed errors of `run_moe`: a text, a failed conversion or a refused route. -/
inductive MoeError where
  | text (message : String)
  | tryFromInt
  | route (error : RouteError)
  deriving DecidableEq, Repr

/-- `read_i32_region` of a region that holds `region`. -/
def readI32Region (region : List Int) (elements : Nat) : Except (Fault MoeError) (List Int) := do
  let bytes ← okOr (Word.checkedMul 64 elements 4) (.error (.text "i32 read size overflow"))
  reject (bytes > 4 * region.length) (.error (.text "i32 read exceeds coherent region"))
  .ok (region.take elements)

/-- The keys of a `BTreeSet` of the values, in their order. -/
def btreeSet (values : List Int) : List Int := values.dedup.insertionSort (· ≤ ·)

/-- The routes of a token. -/
def tokenRoutes {α : Type} (routes : List α) (token : Nat) : List α :=
  (routes.take ((token + 1) * moeTopK)).drop (token * moeTopK)

/-- `chunks_exact(TOP_K)`. -/
def chunksExact (routes : List Int) : List (List Int) :=
  (List.range (routes.length / moeTopK)).map (tokenRoutes routes)

/-- `u16::try_from`. -/
def u16OfInt (value : Int) : Except (Fault MoeError) Nat :=
  if 0 ≤ value ∧ value < 2 ^ 16 then .ok value.toNat else .error (.error .tryFromInt)

structure ExpertKey where
  layer : Nat
  expert : Nat
  deriving DecidableEq, Repr

def expertKey (layer : Nat) (expert : Int) : Except (Fault MoeError) ExpertKey := do
  let layer ← u16OfInt layer
  let expert ← u16OfInt expert
  .ok { layer, expert }

/-- The group of a logical expert: its place in the sorted union. -/
def compactIndex (compactLogical : List Int) (expert : Int) : Except (Fault MoeError) Nat := do
  let index ← okOr (searchList compactLogical expert)
    (.error (.text "Qwen logical expert is absent from its compact union"))
  okOr (u32OfUsize index) (.error (.text "Qwen compact expert index overflow"))

/-- A failed `RoutePlan::build`, as `?` passes it on. -/
def passRoute (x : Except (Fault RouteError) RoutePlan) : Except (Fault MoeError) RoutePlan :=
  match x with
  | .ok plan => .ok plan
  | .error (.error e) => .error (.error (.route e))
  | .error .panic => .error .panic

/-- A failed `RoutePlan::build`, as `expect` takes it. -/
def expectRoute (x : Except (Fault RouteError) RoutePlan) : Except (Fault MoeError) RoutePlan :=
  match x with
  | .ok plan => .ok plan
  | .error _ => .error .panic

/-- The route of renumbered experts. -/
def compactRoute (numTokens compactGroups : Nat) (logical compactLogical : List Int) :
    Except (Fault MoeError) RoutePlan := do
  let compactRoutes ← logical.mapM (compactIndex compactLogical)
  passRoute (RoutePlan.build numTokens moeTopK compactGroups compactRoutes)

/-- `DECODE_ROUTE`. -/
def decodeRoute : Except (Fault MoeError) RoutePlan :=
  expectRoute (RoutePlan.build 1 moeTopK moeTopK (List.range moeTopK))

/-- The route the kernels of a batch get, and the expert that each of its groups stands for. -/
structure BatchRoute where
  route : RoutePlan
  compactIds : List Int
  deriving DecidableEq, Repr

/-- `run_moe_batch`, up to the first kernel. -/
def runMoeBatch (numTokens : Nat) (logical compactLogical : List Int) (logicalIdsDevice : Option (List Int)) :
    Except (Fault MoeError) BatchRoute := do
  let compactGroups ← okOr (u32OfUsize compactLogical.length) (.error .tryFromInt)
  reject (compactGroups = 0 ∨ compactGroups > maxMoeGroups)
    (.error (.text "Qwen resident MoE compact union exceeds the fixed arena"))
  let route ← (if logicalIdsDevice.isSome then decodeRoute
    else compactRoute numTokens compactGroups logical compactLogical)
  reject (route.grouped.totalRows > moePaddedRows ∨ route.grouped.inputScaleRows > moeScaleRows)
    (.error (.text "Qwen resident MoE route exceeds the fixed batch arena"))
  .ok { route, compactIds := logicalIdsDevice.getD compactLogical }

/-- `run_moe` behind the router of several tokens; `routeIds` is what the router left in its region. -/
def runMoeCompact (layer numTokens : Nat) (routeIds : List Int) : Except (Fault MoeError) BatchRoute := do
  let routeCount ← okOr (Word.checkedMul 32 numTokens moeTopK) (.error (.text "Qwen route count overflow"))
  let logical ← readI32Region routeIds routeCount
  forEach (fun _ routes _ => reject ((btreeSet routes).length ≠ moeTopK)
    (.error (.text "Qwen top-k experts are not unique"))) (chunksExact logical) 0 ()
  let unionKeys ← (btreeSet logical).mapM (expertKey layer)
  runMoeBatch numTokens logical (unionKeys.map fun key => (key.expert : Int)) none

/-- `run_moe` behind the router. -/
def runMoe (layer numTokens : Nat) (routeIds : List Int) : Except (Fault MoeError) BatchRoute :=
  if numTokens = 1 then runMoeBatch numTokens decodeCompactIds decodeCompactIds (some routeIds)
  else runMoeCompact layer numTokens routeIds

/-! ## The union -/

theorem mem_btreeSet {values : List Int} {value : Int} : value ∈ btreeSet values ↔ value ∈ values := by
  rw [btreeSet, List.mem_insertionSort, List.mem_dedup]

theorem pairwise_btreeSet (values : List Int) : (btreeSet values).Pairwise (· < ·) := by
  have hsorted : (btreeSet values).Pairwise (· ≤ ·) := List.pairwise_insertionSort _ _
  have hnodup : (btreeSet values).Nodup := (List.perm_insertionSort _ _).nodup_iff.mpr (List.nodup_dedup _)
  exact hsorted.imp₂ (fun _ _ hle hne => lt_of_le_of_ne hle hne) hnodup

theorem length_btreeSet_le (values : List Int) : (btreeSet values).length ≤ values.length := by
  rw [btreeSet, List.length_insertionSort]
  exact (List.dedup_sublist values).length_le

theorem length_btreeSet_of_nodup {values : List Int} (h : values.Nodup) :
    (btreeSet values).length = values.length := by
  rw [btreeSet, List.length_insertionSort, h.dedup]

/-- A list of distinct values of a union is no longer than the union. -/
theorem length_le_of_subset {values union : List Int} (h : values.Nodup) (hsub : values ⊆ union) :
    values.length ≤ union.length :=
  (List.subperm_of_subset h hsub).length_le

/-! ## Renumbering -/

/-- The experts that a bucket of tokens selects, as the router leaves them. -/
structure Selected (numTokens : Nat) (logical : List Int) : Prop where
  tokens : numTokens ≠ 0
  few : numTokens ≤ prefillChunkTokens
  routes : logical.length = numTokens * moeTopK
  inRange : ∀ expert ∈ logical, 0 ≤ expert ∧ expert < 512
  distinct : ∀ token, token < numTokens → (tokenRoutes logical token).Nodup

variable {numTokens : Nat} {logical : List Int}

theorem tokenRoutes_map {α β : Type} (f : α → β) (routes : List α) (token : Nat) :
    tokenRoutes (routes.map f) token = (tokenRoutes routes token).map f := by
  rw [tokenRoutes, tokenRoutes, ← List.map_take, List.map_drop]

theorem tokenRoutes_subset {α : Type} (routes : List α) (token : Nat) : tokenRoutes routes token ⊆ routes :=
  fun _ h => List.mem_of_mem_take (List.mem_of_mem_drop h)

theorem Selected.length_tokenRoutes (h : Selected numTokens logical) {token : Nat} (htoken : token < numTokens) :
    (tokenRoutes logical token).length = moeTopK := by
  have hroutes := h.routes
  have hle : (token + 1) * moeTopK ≤ numTokens * moeTopK := Nat.mul_le_mul_right _ htoken
  rw [Nat.succ_mul] at hle
  rw [tokenRoutes, List.length_drop, List.length_take, Nat.succ_mul]
  omega

theorem Selected.length_le (h : Selected numTokens logical) : logical.length ≤ maxMoeGroups := by
  rw [h.routes]
  exact Nat.mul_le_mul_right _ h.few

/-- The union has the ten experts of the first token. -/
theorem Selected.topK_le (h : Selected numTokens logical) : moeTopK ≤ (btreeSet logical).length := by
  have hfirst : 0 < numTokens := Nat.pos_of_ne_zero h.tokens
  rw [← h.length_tokenRoutes hfirst]
  exact length_le_of_subset (h.distinct 0 hfirst) fun expert hexpert =>
    mem_btreeSet.mpr (tokenRoutes_subset logical 0 hexpert)

theorem compactIndex_eq {union : List Int} (hsorted : union.Pairwise (· < ·)) (hsmall : union.length < 2 ^ 32)
    {expert : Int} (hexpert : expert ∈ union) : compactIndex union expert = .ok (union.idxOf expert) := by
  have hlt : union.idxOf expert < union.length := List.idxOf_lt_length_of_mem hexpert
  have hfound := searchList_found hsorted (List.getElem?_idxOf hexpert)
  unfold compactIndex u32OfUsize
  rw [hfound, bind_of_ok (okOr_some _ _), if_pos (by omega)]
  rfl

/-- **The renumbered routes** are what `build` asks for. -/
theorem Selected.wellRouted (h : Selected numTokens logical) :
    WellRouted numTokens moeTopK (btreeSet logical).length (logical.map (btreeSet logical).idxOf) := by
  have hlength := h.length_le
  have hunion := length_btreeSet_le logical
  have htop := h.topK_le
  have hfew : (btreeSet logical).length ≤ 160 := Nat.le_trans hunion hlength
  refine
    { tokens := h.tokens
      ranks := by decide
      experts := fun hzero => by
        rw [hzero] at htop
        exact absurd htop (by decide)
      few := by omega
      enough := htop
      routes := by rw [List.length_map, h.routes]
      inRange := fun index hindex => ?_
      distinct := fun token htoken => ?_ }
  · obtain ⟨expert, hexpert, rfl⟩ := List.mem_map.mp hindex
    exact List.idxOf_lt_length_of_mem (mem_btreeSet.mpr hexpert)
  · show (tokenRoutes (logical.map (btreeSet logical).idxOf) token).Nodup
    rw [tokenRoutes_map]
    refine (h.distinct token htoken).map_on fun a ha b hb heq => ?_
    exact (List.idxOf_inj (mem_btreeSet.mpr (tokenRoutes_subset _ _ ha))).mp heq

/-! ## The arena -/

/-- The route has room in the arena. -/
structure RoutePlan.Fits (plan : RoutePlan) : Prop where
  rows : plan.grouped.totalRows ≤ moePaddedRows
  scaleRows : plan.grouped.inputScaleRows ≤ moeScaleRows

/-- **No route of at most 160 rows and groups is refused.** The end of the last tile is at most
`640 + 159 * 127 + 128`, and a multiple of 128. -/
theorem RoutePlan.Built.fits {topK numExperts : Nat} {expertIds : List Nat} {plan : RoutePlan}
    (h : plan.Built numTokens topK numExperts expertIds) (hroutes : expertIds.length ≤ maxMoeGroups)
    (hgroups : numExperts ≤ maxMoeGroups) : plan.Fits := by
  have hmax : maxMoeGroups = 160 := rfl
  have htotal := (rowStart_bounds h.inRange).2
  have hrows : rowStart (routeRows numExperts expertIds) numExperts ≤ 640 := by omega
  refine ⟨by rw [h.layout.totalRows]; exact hrows, ?_⟩
  have hdvd := Nat.mod_eq_zero_of_dvd h.layout.inputScaleRows_dvd
  show plan.grouped.inputScaleRows ≤ 20864
  rcases h.layout.reached with ⟨-, hzero⟩ | ⟨i, rows, hi, hget, heq⟩
  · omega
  · have hoffset : scaleOffset (routeRows numExperts expertIds) i ≤
        rowStart (routeRows numExperts expertIds) i + i * 127 := Nat.div_mul_le_self _ _
    have hstep := rowStart_succ hget
    have htile := scaleRows_le rows
    have hmono := rowStart_mono (routeRows numExperts expertIds) (show i + 1 ≤ numExperts from hi)
    omega

/-- Well routed experts in small numbers get a plan. -/
theorem exists_build {topK numExperts : Nat} {expertIds : List Nat}
    (h : WellRouted numTokens topK numExperts expertIds) (hroutes : expertIds.length ≤ maxMoeGroups)
    (hgroups : numExperts ≤ maxMoeGroups) :
    ∃ plan, RoutePlan.build numTokens topK numExperts expertIds = .ok plan ∧ plan.routeExperts = expertIds ∧
      plan.Fits := by
  have hmax : maxMoeGroups = 160 := rfl
  obtain ⟨plan, hplan, hbuilt⟩ := (ends_build numTokens topK numExperts expertIds).exists_ok fun fault hfault => by
    rcases hfault.2 with hbad | hlong
    · exact hbad h
    · omega
  exact ⟨plan, hplan, hbuilt.routeExperts, hbuilt.fits hroutes hgroups⟩

/-! ## Every bucket -/

/-- What the kernels get: the groups of a token are different and stand for the experts it selects, and the arena
has room. -/
structure BatchRoute.Serves (numTokens : Nat) (logical : List Int) (batch : BatchRoute) : Prop where
  denotes : ∀ (route : Nat) expert, logical[route]? = some expert →
    ∃ group : Nat, batch.route.routeExperts[route]? = some group ∧ batch.compactIds[group]? = some expert
  distinct : ∀ token, token < numTokens → (tokenRoutes batch.route.routeExperts token).Nodup
  fits : batch.route.Fits

/-- `run_moe_batch` with a route that has room. -/
theorem runMoeBatch_eq {compactLogical logical : List Int} {logicalIdsDevice : Option (List Int)} {route : RoutePlan}
    (hpos : compactLogical.length ≠ 0) (hfew : compactLogical.length ≤ maxMoeGroups)
    (hroute : (if logicalIdsDevice.isSome then decodeRoute
      else compactRoute numTokens compactLogical.length logical compactLogical) = .ok route) (hfits : route.Fits) :
    runMoeBatch numTokens logical compactLogical logicalIdsDevice =
      .ok ⟨route, logicalIdsDevice.getD compactLogical⟩ := by
  have hmax : maxMoeGroups = 160 := rfl
  have hrows := hfits.rows
  have hscale := hfits.scaleRows
  unfold runMoeBatch u32OfUsize
  rw [if_pos (show compactLogical.length < 2 ^ 32 by omega), bind_of_ok (okOr_some _ _),
    bind_of_ok (reject_of_not _ (by omega)), bind_of_ok hroute, bind_of_ok (reject_of_not _ (by omega))]

/-- The route of a bucket, renumbered. -/
theorem Selected.exists_compactRoute (h : Selected numTokens logical) :
    ∃ plan, compactRoute numTokens (btreeSet logical).length logical (btreeSet logical) = .ok plan ∧
      plan.routeExperts = logical.map (btreeSet logical).idxOf ∧ plan.Fits := by
  have hlength := h.length_le
  have hunion := length_btreeSet_le logical
  have hmax : maxMoeGroups = 160 := rfl
  have hindices : logical.mapM (compactIndex (btreeSet logical)) = .ok (logical.map (btreeSet logical).idxOf) := by
    rw [Traverse.mapM_ok_iff, List.forall₂_map_right_iff, List.forall₂_same]
    exact fun expert hexpert =>
      compactIndex_eq (pairwise_btreeSet logical) (by omega) (mem_btreeSet.mpr hexpert)
  obtain ⟨plan, hplan, hexperts, hfits⟩ := exists_build h.wellRouted (by rw [List.length_map]; exact hlength)
    (Nat.le_trans hunion hlength)
  refine ⟨plan, ?_, hexperts, hfits⟩
  rw [compactRoute, bind_of_ok hindices, hplan]
  rfl

/-- The keys of the union are the experts of the union. -/
theorem Selected.exists_keys (h : Selected numTokens logical) {layer : Nat} (hlayer : layer < moeLayers) :
    ∃ keys, (btreeSet logical).mapM (expertKey layer) = .ok keys ∧
      keys.map (fun key => (key.expert : Int)) = btreeSet logical := by
  have hlayers : moeLayers = 48 := rfl
  have hkey : ∀ expert ∈ btreeSet logical, expertKey layer expert = .ok ⟨layer, expert.toNat⟩ := by
    intro expert hexpert
    obtain ⟨hnonneg, hlt⟩ := h.inRange expert (mem_btreeSet.mp hexpert)
    have hlayer16 : u16OfInt layer = .ok layer := if_pos ⟨by omega, by omega⟩
    have hexpert16 : u16OfInt expert = .ok expert.toNat := if_pos ⟨hnonneg, by omega⟩
    rw [expertKey, bind_of_ok hlayer16, bind_of_ok hexpert16]
  refine ⟨(btreeSet logical).map fun expert => ⟨layer, expert.toNat⟩, ?_, ?_⟩
  · rw [Traverse.mapM_ok_iff, List.forall₂_map_right_iff, List.forall₂_same]
    exact hkey
  · rw [List.map_map]
    refine (List.map_congr_left fun expert hexpert => ?_).trans (List.map_id _)
    exact Int.toNat_of_nonneg (h.inRange expert (mem_btreeSet.mp hexpert)).1

/-- No token selects an expert twice. -/
theorem Selected.check_ok (h : Selected numTokens logical) :
    forEach (fun _ routes _ => reject ((btreeSet routes).length ≠ moeTopK)
      (Fault.error (MoeError.text "Qwen top-k experts are not unique"))) (chunksExact logical) 0 () = .ok () := by
  have hcount : logical.length / moeTopK = numTokens := by
    rw [h.routes]
    exact Nat.mul_div_cancel _ (by decide)
  have hloop : Ends (fun _ => True) (fun _ => False) (forEach (fun _ routes _ =>
      reject ((btreeSet routes).length ≠ moeTopK)
        (Fault.error (MoeError.text "Qwen top-k experts are not unique"))) (chunksExact logical) 0 ()) := by
    refine ends_forEach (P := fun _ _ => True) trivial fun i routes _ hroutes _ => ?_
    rw [chunksExact, hcount, List.getElem?_map] at hroutes
    obtain ⟨token, htoken, rfl⟩ := Option.map_eq_some_iff.mp hroutes
    have hlt : token < numTokens := List.mem_range.mp (List.mem_of_getElem? htoken)
    refine ends_reject (fun _ => trivial) fun hbad => hbad ?_
    rw [length_btreeSet_of_nodup (h.distinct token hlt)]
    exact h.length_tokenRoutes hlt
  obtain ⟨done, hdone, -⟩ := hloop.exists_ok fun _ => id
  exact hdone

/-- Several tokens. -/
theorem exists_runMoeCompact {layer : Nat} {routeIds : List Int} (hlayer : layer < moeLayers)
    (hregion : numTokens * moeTopK ≤ routeIds.length)
    (h : Selected numTokens (routeIds.take (numTokens * moeTopK))) :
    ∃ batch, runMoeCompact layer numTokens routeIds = .ok batch ∧
      batch.compactIds = btreeSet (routeIds.take (numTokens * moeTopK)) ∧
      batch.Serves numTokens (routeIds.take (numTokens * moeTopK)) := by
  have hten : moeTopK = 10 := rfl
  have hmax : maxMoeGroups = 160 := rfl
  have hchunk : prefillChunkTokens = 16 := rfl
  have hfew := h.few
  have htop := h.topK_le
  have hunion := length_btreeSet_le (routeIds.take (numTokens * moeTopK))
  have hlength := h.length_le
  have hcount : okOr (Word.checkedMul 32 numTokens moeTopK)
      (Fault.error (MoeError.text "Qwen route count overflow")) = .ok (numTokens * moeTopK) := by
    rw [Word.checkedMul, if_pos (by rw [hten]; omega), okOr_some]
  have hread : readI32Region routeIds (numTokens * moeTopK) = .ok (routeIds.take (numTokens * moeTopK)) := by
    rw [readI32Region, Word.checkedMul, if_pos (by rw [hten]; omega), bind_of_ok (okOr_some _ _),
      bind_of_ok (reject_of_not _ (by omega))]
  obtain ⟨keys, hkeys, hexperts⟩ := h.exists_keys hlayer
  obtain ⟨plan, hplan, hroutes, hfits⟩ := h.exists_compactRoute
  refine ⟨⟨plan, btreeSet (routeIds.take (numTokens * moeTopK))⟩, ?_, rfl, ?_, ?_, hfits⟩
  · rw [runMoeCompact, bind_of_ok hcount, bind_of_ok hread, bind_of_ok h.check_ok, bind_of_ok hkeys, hexperts]
    exact runMoeBatch_eq (by omega) (by omega) hplan hfits
  · intro route expert hroute
    refine ⟨_, ?_, List.getElem?_idxOf (mem_btreeSet.mpr (List.mem_of_getElem? hroute))⟩
    rw [hroutes, List.getElem?_map, hroute]
    rfl
  · intro token htoken
    rw [hroutes]
    exact h.wellRouted.distinct token htoken

/-- One token. -/
theorem exists_runMoe_one {layer : Nat} {routeIds : List Int} :
    ∃ batch, runMoe layer 1 routeIds = .ok batch ∧ batch.Serves 1 (routeIds.take (1 * moeTopK)) := by
  have hrouted : WellRouted 1 moeTopK moeTopK (List.range moeTopK) :=
    ⟨by decide, by decide, by decide, by decide, by decide, by decide, by decide, by decide⟩
  obtain ⟨plan, hplan, hexperts, hfits⟩ := exists_build hrouted (by decide) (by decide)
  have hroute : decodeRoute = .ok plan := by
    rw [decodeRoute, hplan]
    rfl
  refine ⟨⟨plan, routeIds⟩, ?_, ?_, ?_, hfits⟩
  · rw [runMoe, if_pos rfl]
    exact runMoeBatch_eq (by decide) (by decide) hroute hfits
  · intro route expert hget
    have hlt : route < moeTopK := by
      have := (List.getElem?_eq_some_iff.mp hget).1
      rw [List.length_take] at this
      omega
    rw [List.getElem?_take_of_lt (by omega)] at hget
    exact ⟨route, by rw [hexperts, List.getElem?_range hlt], hget⟩
  · intro token htoken
    rw [hexperts]
    exact hrouted.distinct token htoken

/-- **The fixed arena is large enough.** Every bucket whose tokens select ten different experts each gets a route
that has room, by the sorted union and on the way of `run_moe`. -/
theorem moe_route_fits {layer : Nat} {routeIds : List Int} (hbucket : numTokens ∈ [1, 2, 4, 8, 16])
    (hlayer : layer < moeLayers) (hregion : routeIds.length = maxMoeGroups)
    (hrange : ∀ expert ∈ routeIds.take (numTokens * moeTopK), 0 ≤ expert ∧ expert < 512)
    (hdistinct : ∀ token, token < numTokens → (tokenRoutes routeIds token).Nodup) :
    (∃ batch, runMoeCompact layer numTokens routeIds = .ok batch ∧
        batch.compactIds = btreeSet (routeIds.take (numTokens * moeTopK)) ∧
        batch.Serves numTokens (routeIds.take (numTokens * moeTopK))) ∧
      ∃ batch, runMoe layer numTokens routeIds = .ok batch ∧
        batch.Serves numTokens (routeIds.take (numTokens * moeTopK)) := by
  have hfew : numTokens ≠ 0 ∧ numTokens ≤ 16 := by
    simp only [List.mem_cons, List.not_mem_nil, or_false] at hbucket
    omega
  have hle : numTokens * moeTopK ≤ routeIds.length := by
    rw [hregion]
    exact Nat.mul_le_mul_right _ hfew.2
  have hselected : Selected numTokens (routeIds.take (numTokens * moeTopK)) := by
    refine ⟨hfew.1, hfew.2, by rw [List.length_take, Nat.min_eq_left hle], hrange, fun token htoken => ?_⟩
    have hwithin : (token + 1) * moeTopK ≤ numTokens * moeTopK := Nat.mul_le_mul_right _ htoken
    rw [tokenRoutes, List.take_take, Nat.min_eq_left hwithin]
    exact hdistinct token htoken
  have hcompact := exists_runMoeCompact hlayer hle hselected
  refine ⟨hcompact, ?_⟩
  by_cases hone : numTokens = 1
  · subst hone
    exact exists_runMoe_one
  · rw [runMoe, if_neg hone]
    obtain ⟨batch, hbatch, -, hserves⟩ := hcompact
    exact ⟨batch, hbatch, hserves⟩

/-- The region after a router pass over two tokens that share half of their experts. -/
def sharedRouteIds : List Int :=
  [9, 1, 20, 3, 7, 31, 2, 15, 8, 4, 40, 41, 42, 43, 44, 9, 1, 20, 3, 7] ++ List.replicate 140 0

theorem length_sharedRouteIds : sharedRouteIds.length = maxMoeGroups := by
  rw [sharedRouteIds, List.length_append, List.length_replicate]
  rfl

theorem moe_route_fits_sample :
    ∃ batch, runMoe 3 2 sharedRouteIds = .ok batch ∧ batch.Serves 2 (sharedRouteIds.take (2 * moeTopK)) :=
  (moe_route_fits (by decide) (by decide) length_sharedRouteIds (by decide) (by decide)).2

end Spark.FlashNext
