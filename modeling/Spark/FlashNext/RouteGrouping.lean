import Mathlib.Algebra.BigOperators.Ring.Finset
import Mathlib.Algebra.Order.BigOperators.Group.Finset
import Mathlib.Data.Multiset.Count
import Spark.FlashNext.RoutePlan
import Spark.FlashNext.ScaleArena
import Spark.Lib.Grouping

/-!
# What a route plan groups

A plan that is built deals the routes out to one segment for each expert, in their order, and nothing else is in
the packed rows but padding.

* **`ends_countLoop`** — the rows of an expert are its routes.
* **`ends_build`** — what a plan looks like, and what was wrong with the routes where there is none.
* **`build_groups`** — the maps of a plan are inverse to each other, and its figures fit its kernel.
-/

namespace Spark.FlashNext

open Outcome Grouping

/-! ## Counting -/

/-- What the checks of `build` ask of the routes. -/
structure WellRouted (numTokens topK numExperts : Nat) (expertIds : List Nat) : Prop where
  tokens : numTokens ≠ 0
  ranks : topK ≠ 0
  experts : numExperts ≠ 0
  few : numExperts ≤ 512
  enough : topK ≤ numExperts
  routes : expertIds.length = numTokens * topK
  inRange : ∀ expert ∈ expertIds, expert < numExperts
  distinct : ∀ token, token < numTokens → ((expertIds.take ((token + 1) * topK)).drop (token * topK)).Nodup

variable {numTokens topK numExperts : Nat} {expertIds : List Nat}

/-- Why `build` fails: the routes are not what it asks for, or there are too many of them. -/
def Refused (numTokens topK numExperts : Nat) (expertIds : List Nat) (fault : Fault RouteError) : Prop :=
  fault ≠ .panic ∧ (¬ WellRouted numTokens topK numExperts expertIds ∨ 2 ^ 29 ≤ expertIds.length)

theorem refused_unrouted {e : RouteError} (h : ¬ WellRouted numTokens topK numExperts expertIds) :
    Refused numTokens topK numExperts expertIds (.error e) :=
  ⟨nofun, .inl h⟩

theorem refused_long {e : RouteError} (h : 2 ^ 29 ≤ expertIds.length) :
    Refused numTokens topK numExperts expertIds (.error e) :=
  ⟨nofun, .inr h⟩

/-- The counts after `n` routes. -/
structure Counted (numExperts : Nat) (expertIds : List Nat) (n : Nat) (expertRows : List Nat) : Prop where
  rows : expertRows = cursorsAt (fun _ => 0) expertIds numExperts n
  inRange : ∀ expert ∈ expertIds.take n, expert < numExperts

theorem counted_zero (numExperts : Nat) (expertIds : List Nat) :
    Counted numExperts expertIds 0 (List.replicate numExperts 0) where
  rows := by simp [cursorsAt]
  inRange := by simp

/-- One route. -/
theorem ends_countRoute {token rank expert : Nat} {expertRows : List Nat} (htoken : token < numTokens)
    (hrank : ((expertIds.take ((token + 1) * topK)).drop (token * topK))[rank]? = some expert)
    (h : Counted numExperts expertIds (token * topK + rank) expertRows) :
    Ends (Counted numExperts expertIds (token * topK + rank + 1)) (Refused numTokens topK numExperts expertIds)
      (countRoute numExperts token (token * topK) ((expertIds.take ((token + 1) * topK)).drop (token * topK)) rank
        expert expertRows) := by
  have hroute : expertIds[token * topK + rank]? = some expert := by
    rw [List.getElem?_drop] at hrank
    obtain ⟨hlt, -⟩ := List.getElem?_eq_some_iff.mp hrank
    rwa [List.getElem?_take_of_lt (by rw [List.length_take] at hlt; omega)] at hrank
  have hmem : expert ∈ expertIds := List.mem_of_getElem? hroute
  unfold countRoute
  refine (ends_reject (Q := fun _ => expert < numExperts) (fun hbad => Nat.lt_of_not_le hbad) fun hbad =>
    refused_unrouted fun hw => absurd (hw.inRange expert hmem) (Nat.not_lt_of_le hbad)).bind fun _ hlt => ?_
  refine (ends_sliceAt (Nat.zero_le rank)
    (Nat.le_of_lt (List.getElem?_eq_some_iff.mp hrank).1)).bind fun earlier hearlier => ?_
  subst hearlier
  refine (ends_reject (Q := fun _ => True) (fun _ => trivial) fun hbad => ?_).bind fun _ _ => ?_
  · -- the expert stands twice among those of the token
    refine refused_unrouted fun hw => ?_
    rw [List.drop_zero] at hbad
    obtain ⟨earlier, hearlier⟩ := List.mem_iff_getElem?.mp hbad
    have hlt' := (List.getElem?_eq_some_iff.mp hearlier).1
    rw [List.length_take] at hlt'
    rw [List.getElem?_take_of_lt (by omega)] at hearlier
    have := List.nodup_iff_getElem?_ne_getElem?.mp (hw.distinct token htoken) earlier rank (by omega)
      (List.getElem?_eq_some_iff.mp hrank).1
    exact this (hearlier.trans hrank.symm)
  rw [h.rows]
  refine (ends_readAt (cursorsAt_getElem? hlt)).bind fun rows hrows => ?_
  subst hrows
  refine (ends_checkedAdd (Q := (· = 0 + (expertIds.take (token * topK + rank)).count expert + 1)) (fun _ => rfl)
    fun hbig => refused_long ?_).bind fun rows hrows => ?_
  · have hcount := List.count_le_length (a := expert) (l := expertIds.take (token * topK + rank))
    have := List.length_take_le' (token * topK + rank) expertIds
    omega
  subst hrows
  refine (ends_writeAt (by rw [length_cursorsAt]; exact hlt)).mono (fun rows hrows => ?_) fun _ => id
  refine ⟨hrows.trans (cursorsAt_set hroute), fun e he => ?_⟩
  rw [List.take_add_one, hroute] at he
  rcases List.mem_append.mp he with he | he
  · exact h.inRange e he
  · obtain rfl : e = expert := by simpa using he
    exact hlt

/-- One token. -/
theorem ends_countToken {token : Nat} {expertRows : List Nat} (hroutes : expertIds.length = numTokens * topK)
    (hsmall : numTokens * topK < 2 ^ 64) (htoken : token < numTokens)
    (h : Counted numExperts expertIds (token * topK) expertRows) :
    Ends (Counted numExperts expertIds ((token + 1) * topK)) (Refused numTokens topK numExperts expertIds)
      (countToken topK numExperts expertIds token expertRows) := by
  have hnext : (token + 1) * topK = token * topK + topK := Nat.succ_mul token topK
  have hle : (token + 1) * topK ≤ numTokens * topK := Nat.mul_le_mul_right topK htoken
  unfold countToken
  refine (ends_checkedMul (Q := (· = token * topK)) (fun _ => rfl) fun hbig => by omega).bind fun first hfirst => ?_
  subst hfirst
  refine (ends_checkedAdd (Q := (· = (token + 1) * topK)) (fun _ => hnext.symm)
    fun hbig => by omega).bind fun last hlast => ?_
  subst hlast
  refine (ends_sliceAt (by omega) (by omega)).bind fun tokenExperts htokenExperts => ?_
  subst htokenExperts
  have hloop := ends_forEach
    (P := fun rank rows => Counted numExperts expertIds (token * topK + rank) rows)
    (E := Refused numTokens topK numExperts expertIds) (b := expertRows) h
    fun rank expert rows hrank hrows => ends_countRoute htoken hrank hrows
  refine hloop.mono (fun rows hrows => ?_) fun _ => id
  rwa [show token * topK + ((expertIds.take ((token + 1) * topK)).drop (token * topK)).length =
    (token + 1) * topK by rw [List.length_drop, List.length_take]; omega] at hrows

/-- All tokens. -/
theorem ends_countLoop (hroutes : expertIds.length = numTokens * topK) (hsmall : numTokens * topK < 2 ^ 64) :
    Ends (Counted numExperts expertIds expertIds.length) (Refused numTokens topK numExperts expertIds)
      (forEach (fun _ token expertRows => countToken topK numExperts expertIds token expertRows)
        (List.range numTokens) 0 (List.replicate numExperts 0)) := by
  have hloop := ends_forEach
    (P := fun token rows => Counted numExperts expertIds (token * topK) rows)
    (E := Refused numTokens topK numExperts expertIds)
    (f := fun _ token expertRows => countToken topK numExperts expertIds token expertRows)
    (b := List.replicate numExperts 0) (by rw [Nat.zero_mul]; exact counted_zero _ _)
    fun i token rows htoken hrows => by
      obtain ⟨hlt, hget⟩ := List.getElem?_eq_some_iff.mp htoken
      rw [List.getElem_range] at hget
      subst hget
      exact ends_countToken hroutes hsmall (by rwa [List.length_range] at hlt) hrows
  refine hloop.mono (fun rows hrows => ?_) fun _ => id
  rwa [List.length_range, ← hroutes] at hrows

/-! ## The layout of the counts -/

/-- The rows of each expert, counted. -/
def routeRows (numExperts : Nat) (expertIds : List Nat) : List Nat :=
  cursorsAt (fun _ => 0) expertIds numExperts expertIds.length

theorem length_routeRows : (routeRows numExperts expertIds).length = numExperts := length_cursorsAt _ _ _ _

theorem routeRows_getElem? (expertIds : List Nat) {expert : Nat} (h : expert < numExperts) :
    (routeRows numExperts expertIds)[expert]? = some (expertIds.count expert) := by
  rw [routeRows, cursorsAt_getElem? h, List.take_length, Nat.zero_add]

/-- The segments of the layout have room for the routes. -/
theorem spaced_rowStart (hrange : ∀ expert ∈ expertIds, expert < numExperts) :
    Spaced (rowStart (routeRows numExperts expertIds)) expertIds := by
  intro expert
  rcases Nat.lt_or_ge expert numExperts with hlt | hge
  · have hstep := rowStart_succ (routeRows_getElem? expertIds hlt)
    have hpad := le_padRows (expertIds.count expert)
    omega
  · have hnone : expertIds.count expert = 0 :=
      List.count_eq_zero.mpr fun hmem => Nat.not_lt_of_le hge (hrange expert hmem)
    have := rowStart_mono (routeRows numExperts expertIds) (Nat.le_add_right expert 1)
    omega

theorem rowStart_routeRows {n : Nat} (h : n ≤ numExperts) :
    rowStart (routeRows numExperts expertIds) n = ∑ expert ∈ Finset.range n, padRows (expertIds.count expert) := by
  induction n with
  | zero => rfl
  | succ n ih =>
    rw [rowStart_succ (routeRows_getElem? expertIds h), ih (Nat.le_of_succ_le h), Finset.sum_range_succ]

/-- Every route is counted once. -/
theorem sum_count (hrange : ∀ expert ∈ expertIds, expert < numExperts) :
    ∑ expert ∈ Finset.range numExperts, expertIds.count expert = expertIds.length := by
  have hcard := Multiset.sum_count_eq_card (m := (expertIds : Multiset Nat)) fun expert hexpert =>
    Finset.mem_range.mpr (hrange expert hexpert)
  simpa only [Multiset.coe_count, Multiset.coe_card] using hcard

/-- The padded rows hold all routes, and at most three rows of padding for each. -/
theorem rowStart_bounds (hrange : ∀ expert ∈ expertIds, expert < numExperts) :
    expertIds.length ≤ rowStart (routeRows numExperts expertIds) numExperts ∧
      rowStart (routeRows numExperts expertIds) numExperts ≤ 4 * expertIds.length := by
  rw [rowStart_routeRows (Nat.le_refl _), ← sum_count hrange, Finset.mul_sum]
  refine ⟨Finset.sum_le_sum fun expert _ => le_padRows _, Finset.sum_le_sum fun expert _ => ?_⟩
  unfold padRows roundUp
  omega

/-! ## Dealing out -/

variable {layout : GroupedExpertLayout}

/-- The first cursors are the starts of the segments. -/
theorem ends_cursors (h : layout.Holds (routeRows numExperts expertIds) numExperts) (F : Fault RouteError → Prop) :
    Ends (· = cursorsAt (rowStart (routeRows numExperts expertIds)) expertIds numExperts 0) F
      (sliceAt layout.mIndptr 0 numExperts >>= fun segments =>
        segments.mapM fun offset => okOr (u32OfI32 offset) (.error .integerOverflow)) := by
  have hslice : (layout.mIndptr.take numExperts).drop 0 =
      (List.range numExperts).map fun expert => (rowStart (routeRows numExperts expertIds) expert : Int) := by
    rw [List.drop_zero, h.mIndptr, ← List.map_take, List.take_range, Nat.min_eq_left (Nat.le_succ _)]
  have hmap : ((List.range numExperts).map fun expert =>
      (rowStart (routeRows numExperts expertIds) expert : Int)).mapM
        (fun offset => okOr (u32OfI32 offset) (Fault.error RouteError.integerOverflow)) =
      .ok (cursorsAt (rowStart (routeRows numExperts expertIds)) expertIds numExperts 0) := by
    rw [Traverse.mapM_ok_iff, cursorsAt, List.forall₂_map_left_iff, List.forall₂_map_right_iff, List.forall₂_same]
    intro expert _
    rw [u32OfI32, if_pos (Int.natCast_nonneg _), Int.toNat_natCast]
    rfl
  refine (ends_sliceAt (Nat.zero_le _) (by simp [h.mIndptr])).bind fun segments hsegments => ?_
  rw [hsegments, hslice, hmap]
  rfl

/-- What the loop over the routes has done after `n` of them. -/
structure Scattered (numExperts : Nat) (expertIds : List Nat) (n : Nat) (s : Scatter) : Prop where
  cursors : s.cursors = cursorsAt (rowStart (routeRows numExperts expertIds)) expertIds numExperts n
  dealt : Dealt (rowStart (routeRows numExperts expertIds)) expertIds paddedRoute
    (rowStart (routeRows numExperts expertIds) numExperts) n s.routeToPackedRow s.packedRowToRoute

/-- One route. -/
theorem ends_scatterRoute {route expert : Nat} {s : Scatter} (hrange : ∀ expert ∈ expertIds, expert < numExperts)
    (hrows : rowStart (routeRows numExperts expertIds) numExperts < 2 ^ 31) (hroute : expertIds[route]? = some expert)
    (h : Scattered numExperts expertIds route s) (F : Fault RouteError → Prop) :
    Ends (Scattered numExperts expertIds (route + 1)) F (scatterRoute route expert s) := by
  have hlt := hrange expert (List.mem_of_getElem? hroute)
  have hspaced := spaced_rowStart hrange
  have hend := hspaced.mono (show expert + 1 ≤ numExperts from hlt)
  have hplace := hspaced.place_lt hroute
  have hlen := (rowStart_bounds hrange).1
  have hindex := (List.getElem?_eq_some_iff.mp hroute).1
  unfold scatterRoute
  rw [h.cursors]
  refine (ends_readAt (cursorsAt_getElem? hlt)).bind fun packedRow hpacked => ?_
  subst hpacked
  refine (ends_checkedAdd (Q := (· = _)) (fun _ => rfl) fun hbig => by omega).bind fun cursor hcursor => ?_
  subst hcursor
  refine (ends_writeAt (by rw [length_cursorsAt]; exact hlt)).bind fun cursors hcursors => ?_
  refine (ends_writeAt (by rw [h.dealt.length_toPlace]; exact hindex)).bind fun routeToPackedRow hto => ?_
  refine (ends_okOr (Q := (· = route)) (fun id hid => ?_) fun hnone => ?_).bind fun id hid => ?_
  · unfold u32OfUsize at hid
    split at hid
    · exact (Option.some.inj hid).symm
    · cases hid
  · unfold u32OfUsize at hnone
    rw [if_pos (by omega)] at hnone
    cases hnone
  subst hid
  refine (ends_writeAt (by rw [h.dealt.length_table]; omega)).bind fun packedRowToRoute hfrom => ?_
  subst hcursors hto hfrom
  exact ⟨cursorsAt_set hroute, h.dealt.step hspaced hroute hend⟩

/-! ## The plan -/

/-- What a plan that is built looks like. -/
structure RoutePlan.Built (numTokens topK numExperts : Nat) (expertIds : List Nat) (plan : RoutePlan) : Prop where
  shape : plan.numTokens = numTokens ∧ plan.topK = topK ∧ plan.numExperts = numExperts
  routes : expertIds.length = numTokens * topK
  routeExperts : plan.routeExperts = expertIds
  expertRows : plan.expertRows = routeRows numExperts expertIds
  inRange : ∀ expert ∈ expertIds, expert < numExperts
  layout : plan.grouped.Holds (routeRows numExperts expertIds) numExperts
  nonempty : rowStart (routeRows numExperts expertIds) numExperts ≠ 0
  dealt : Dealt (rowStart (routeRows numExperts expertIds)) expertIds paddedRoute
    (rowStart (routeRows numExperts expertIds) numExperts) expertIds.length plan.routeToPackedRow
    plan.packedRowToRoute
  small : numTokens * topK < 2 ^ 64

/-- **What `build` returns**, and why it fails where it does. -/
theorem ends_build (numTokens topK numExperts : Nat) (expertIds : List Nat) :
    Ends (RoutePlan.Built numTokens topK numExperts expertIds) (Refused numTokens topK numExperts expertIds)
      (RoutePlan.build numTokens topK numExperts expertIds) := by
  unfold RoutePlan.build
  refine (ends_reject (Q := fun _ => numTokens ≠ 0 ∧ topK ≠ 0 ∧ numExperts ≠ 0 ∧ numExperts ≤ 512)
    (fun hok => by omega) fun hbad => refused_unrouted fun hw => ?_).bind fun _ hshape => ?_
  · have := hw.tokens
    have := hw.ranks
    have := hw.experts
    have := hw.few
    omega
  refine (ends_reject (Q := fun _ => True) (fun _ => trivial) fun hbad =>
    refused_unrouted fun hw => absurd hw.enough (Nat.not_le_of_lt hbad)).bind fun _ _ => ?_
  refine (ends_checkedMul (Q := fun routes => numTokens * topK < 2 ^ 64 ∧ routes = numTokens * topK)
    (fun hlt => ⟨hlt, rfl⟩) fun hbig => ?_).bind fun routes hroutes => ?_
  · by_cases hw : WellRouted numTokens topK numExperts expertIds
    · have := hw.routes
      exact refused_long (by omega)
    · exact refused_unrouted hw
  obtain ⟨hsmall, rfl⟩ := hroutes
  refine (ends_reject (Q := fun _ => expertIds.length = numTokens * topK) (fun hok => by omega) fun hbad =>
    refused_unrouted fun hw => hbad hw.routes).bind fun _ hlength => ?_
  refine (ends_countLoop hlength hsmall).bind fun expertRows hcounted => ?_
  have hrange : ∀ expert ∈ expertIds, expert < numExperts := by
    have := hcounted.inRange
    rwa [List.take_length] at this
  have hbounds := rowStart_bounds hrange
  have hlong : expertIds.length ≠ 0 := by
    rw [hlength]
    exact Nat.mul_ne_zero hshape.1 hshape.2.1
  obtain rfl : expertRows = routeRows numExperts expertIds := hcounted.rows
  have hlayout := ends_fromExpertRows (routeRows numExperts expertIds)
  rw [length_routeRows] at hlayout
  refine (ends_raise (F := Refused numTokens topK numExperts expertIds) hlayout fun e he => ?_).bind
    fun grouped hgrouped => ?_
  · -- the counts are laid out but where there are too many
    rcases he with he | he | he | he
    · have hnil := congrArg List.length he
      rw [length_routeRows] at hnil
      exact absurd hnil hshape.2.2.1
    · omega
    · omega
    · exact refused_long (by omega)
  obtain ⟨hholds, -, hne⟩ := hgrouped
  have hcursors := ends_cursors hholds (Refused numTokens topK numExperts expertIds)
  rw [← bind_assoc]
  refine hcursors.bind fun cursors hstart => ?_
  have hdealt := dealt_zero (rowStart (routeRows numExperts expertIds)) expertIds paddedRoute
    (rowStart (routeRows numExperts expertIds) numExperts)
  have hloop := ends_forEach (P := Scattered numExperts expertIds)
    (E := Refused numTokens topK numExperts expertIds) (f := scatterRoute)
    (b := ⟨cursors, List.replicate (numTokens * topK) 0, List.replicate grouped.totalRows paddedRoute⟩)
    ⟨hstart, by rw [hholds.totalRows, ← hlength]; exact hdealt⟩
    fun route expert s hroute hs => ends_scatterRoute hrange hholds.representable hroute hs _
  exact hloop.bind fun s hs => ⟨⟨rfl, rfl, rfl⟩, hlength, rfl, rfl, hrange, hholds, hne, hs.dealt, hsmall⟩

/-! ## The maps of a plan -/

/-- The rows of an expert: they begin and end at its entries of `m_indptr`, hold its routes in their order and are
padded to the next multiple of four. -/
structure RoutePlan.Segment (expertIds : List Nat) (plan : RoutePlan) (expert start stop : Nat) : Prop where
  start_eq : plan.grouped.mIndptr[expert]? = some (start : Int)
  stop_eq : plan.grouped.mIndptr[expert + 1]? = some (stop : Int)
  start_le : start ≤ stop
  multiple : (stop - start) % 4 = 0
  least : stop - start < expertIds.count expert + 4
  empty : expertIds.count expert = 0 → start = stop
  rows : (plan.packedRowToRoute.drop start).take (stop - start) =
    occurrences expertIds expert ++ List.replicate (stop - start - expertIds.count expert) paddedRoute

/-- A stable, invertible grouping of the routes. -/
structure RoutePlan.Groups (expertIds : List Nat) (plan : RoutePlan) : Prop where
  routes : plan.routeToPackedRow.length = expertIds.length
  rows : plan.packedRowToRoute.length = plan.grouped.totalRows
  injective : plan.routeToPackedRow.Nodup
  inverse : ∀ (route row : Nat), plan.routeToPackedRow[route]? = some row →
    plan.packedRowToRoute[row]? = some route
  padding : ∀ row, row < plan.grouped.totalRows → row ∉ plan.routeToPackedRow →
    plan.packedRowToRoute[row]? = some paddedRoute
  distinguished : expertIds.length ≤ paddedRoute
  segments : ∀ expert, expert < plan.numExperts → ∃ start stop, plan.Segment expertIds expert start stop
  first : plan.grouped.mIndptr[0]? = some 0
  nondecreasing : plan.grouped.mIndptr.Pairwise (· ≤ ·)
  last : plan.grouped.mIndptr.getLast? = some (plan.grouped.totalRows : Int)

variable {plan : RoutePlan}

theorem RoutePlan.Built.mIndptr_getElem? (h : plan.Built numTokens topK numExperts expertIds) {i : Nat}
    (hi : i ≤ numExperts) :
    plan.grouped.mIndptr[i]? = some (rowStart (routeRows numExperts expertIds) i : Int) := by
  rw [h.layout.mIndptr, List.getElem?_map, List.getElem?_range (Nat.lt_succ_of_le hi)]
  rfl

theorem RoutePlan.Built.segment (h : plan.Built numTokens topK numExperts expertIds) {expert : Nat}
    (hexpert : expert < numExperts) :
    plan.Segment expertIds expert (rowStart (routeRows numExperts expertIds) expert)
      (rowStart (routeRows numExperts expertIds) (expert + 1)) := by
  have hspaced := spaced_rowStart h.inRange
  have hstep := rowStart_succ (routeRows_getElem? expertIds hexpert)
  have hpad : padRows (expertIds.count expert) < expertIds.count expert + 4 := by
    unfold padRows roundUp
    omega
  refine
    { start_eq := h.mIndptr_getElem? (Nat.le_of_lt hexpert)
      stop_eq := h.mIndptr_getElem? hexpert
      start_le := rowStart_mono _ (Nat.le_succ expert)
      multiple := by
        rw [hstep, Nat.add_sub_cancel_left]
        exact padRows_mod _
      least := by omega
      empty := fun hcount => ?_
      rows := h.dealt.segment_eq hspaced (hspaced.mono hexpert) }
  have := padRows_eq_zero.mpr hcount
  omega

theorem RoutePlan.Built.groups (h : plan.Built numTokens topK numExperts expertIds) : plan.Groups expertIds := by
  have hspaced := spaced_rowStart h.inRange
  have hbounds := rowStart_bounds h.inRange
  have hsmall := h.layout.representable
  refine
    { routes := h.dealt.length_toPlace
      rows := by rw [h.dealt.length_table, h.layout.totalRows]
      injective := h.dealt.nodup hspaced
      inverse := fun route row hrow => ?_
      padding := fun row hrow hfree => ?_
      distinguished := by
        unfold paddedRoute
        omega
      segments := fun expert hexpert => ⟨_, _, h.segment (by rwa [h.shape.2.2] at hexpert)⟩
      first := h.mIndptr_getElem? (Nat.zero_le _)
      nondecreasing := ?_
      last := ?_ }
  · obtain ⟨expert, hexpert, rfl⟩ := h.dealt.getElem?_toPlace hrow
    exact h.dealt.filled route expert (List.getElem?_eq_some_iff.mp hexpert).1 hexpert
  · rw [h.layout.totalRows] at hrow
    refine h.dealt.padded row hrow fun route expert hroute hexpert heq => hfree ?_
    rw [← heq]
    exact List.mem_of_getElem? (h.dealt.placed route expert hroute hexpert)
  · rw [h.layout.mIndptr, List.pairwise_map]
    exact List.pairwise_le_range.imp fun hle => Int.ofNat_le.mpr (rowStart_mono _ hle)
  · rw [h.layout.mIndptr, List.range_succ, List.map_append, List.map_singleton, List.getLast?_concat,
      h.layout.totalRows]

/-! ## The figures of a plan -/

theorem RoutePlan.Built.paddedRows (h : plan.Built numTokens topK numExperts expertIds) :
    ∃ padded, plan.paddedRows = .ok padded ∧ padded + numTokens * topK = plan.grouped.totalRows := by
  have hbounds := rowStart_bounds h.inRange
  have htotal := h.layout.totalRows
  have hroutes := h.routes
  have hends : Ends (fun padded => padded + numTokens * topK = plan.grouped.totalRows) (fun _ => False)
      plan.paddedRows := by
    unfold RoutePlan.paddedRows RoutePlan.usefulRows
    rw [h.shape.1, h.shape.2.1]
    refine (ends_checkedMul (Q := (· = numTokens * topK)) (fun _ => rfl)
      fun hbig => absurd h.small (Nat.not_lt_of_le hbig)).bind fun useful huseful => ?_
    subst huseful
    refine ends_okOr (fun padded hpadded => ?_) fun hnone => ?_
    · obtain ⟨hle, rfl⟩ := Word.checkedSub_eq_some.mp hpadded
      omega
    · rw [Word.checkedSub, if_pos (by omega)] at hnone
      cases hnone
  exact hends.exists_ok fun _ => id

/-- An error that is not about the layout. -/
def LayoutAccepted (fault : Fault RouteError) : Prop := fault ≠ .panic ∧ fault ≠ .error .invalidLayout

theorem ends_bufferRequirements (spec : MoeRouteSpec) :
    Ends (fun _ => True) LayoutAccepted spec.bufferRequirements := by
  have hoverflow : LayoutAccepted (.error .integerOverflow) := ⟨nofun, nofun⟩
  have hbytes : ∀ count hiddenSize, Ends (fun _ => True) LayoutAccepted (checkedBytes count hiddenSize) :=
    fun _ _ => ends_okOr (fun _ _ => trivial) fun _ => hoverflow
  have hproduct : ∀ a b, Ends (fun _ => True) LayoutAccepted
      (okOr (Word.checkedMul 64 a b) (Fault.error RouteError.integerOverflow)) :=
    fun _ _ => ends_checkedMul (fun _ => trivial) fun _ => hoverflow
  unfold MoeRouteSpec.bufferRequirements
  refine (hproduct _ _).bind fun _ _ => ?_
  refine (hbytes _ _).bind fun _ _ => ?_
  refine (hbytes _ _).bind fun _ _ => ?_
  refine (hproduct _ _).bind fun _ _ => ?_
  exact (hproduct _ _).bind fun _ _ => trivial

theorem RoutePlan.Built.kernelSpec (h : plan.Built numTokens topK numExperts expertIds) {hiddenSize : Nat}
    (hne : hiddenSize ≠ 0) (hmod : hiddenSize % 8 = 0) :
    Ends (fun _ => True) LayoutAccepted (plan.kernelSpec hiddenSize) := by
  have hbounds := rowStart_bounds h.inRange
  have htotal := h.layout.totalRows
  have hroutes := h.routes
  have hnonempty := h.nonempty
  have hfour := rowStart_mod (routeRows numExperts expertIds) numExperts
  unfold RoutePlan.kernelSpec MoeRouteSpec.validate
  rw [h.shape.1, h.shape.2.1]
  refine Ends.bind (Q := fun _ => True) ?_ fun _ _ => trivial
  refine (ends_reject (Q := fun _ => True) (fun _ => trivial) fun _ => ⟨nofun, nofun⟩).bind fun _ _ => ?_
  refine (ends_checkedMul (Q := (· = numTokens * topK)) (fun _ => rfl)
    fun hbig => absurd h.small (Nat.not_lt_of_le hbig)).bind fun useful huseful => ?_
  subst huseful
  refine (ends_reject (Q := fun _ => True) (fun _ => trivial) fun hbad => ?_).bind fun _ _ => ?_
  · simp only at hbad
    omega
  exact (ends_bufferRequirements _).bind fun _ _ => trivial

/-- **`build` groups the routes.** It never panics, and the maps and the figures of a plan it returns are right. -/
theorem build_groups (numTokens topK numExperts : Nat) (expertIds : List Nat) :
    RoutePlan.build numTokens topK numExperts expertIds ≠ .error .panic ∧
      ∀ plan, RoutePlan.build numTokens topK numExperts expertIds = .ok plan →
        plan.Groups expertIds ∧
        (∃ padded, plan.paddedRows = .ok padded ∧ padded + numTokens * topK = plan.grouped.totalRows) ∧
        ∀ hiddenSize, hiddenSize ≠ 0 → hiddenSize % 8 = 0 →
          plan.kernelSpec hiddenSize ≠ .error (.error .invalidLayout) ∧
            plan.kernelSpec hiddenSize ≠ .error .panic := by
  have hends := ends_build numTokens topK numExperts expertIds
  refine ⟨fun hpanic => (hends.of_error hpanic).1 rfl, fun plan hplan => ?_⟩
  have hbuilt := hends.of_ok hplan
  refine ⟨hbuilt.groups, hbuilt.paddedRows, fun hiddenSize hne hmod => ?_⟩
  have hspec := hbuilt.kernelSpec hne hmod
  exact ⟨fun hbad => (hspec.of_error hbad).2 rfl, fun hbad => (hspec.of_error hbad).1 rfl⟩

/-- Two tokens that share experts. -/
theorem build_groups_sample :
    RoutePlan.Groups [2, 0, 1, 2, 0, 3]
      { numTokens := 2
        topK := 3
        numExperts := 4
        routeExperts := [2, 0, 1, 2, 0, 3]
        expertRows := [2, 1, 2, 1]
        grouped :=
          { mIndptr := [0, 4, 8, 12, 16]
            scaleRowOffsets := [0, 128, 256, 384]
            totalRows := 16
            inputScaleRows := 512 }
        routeToPackedRow := [8, 0, 4, 9, 1, 12]
        packedRowToRoute :=
          [1, 4, paddedRoute, paddedRoute, 2, paddedRoute, paddedRoute, paddedRoute,
            0, 3, paddedRoute, paddedRoute, 5, paddedRoute, paddedRoute, paddedRoute] } :=
  ((build_groups 2 3 4 [2, 0, 1, 2, 0, 3]).2 _ (by decide)).1

end Spark.FlashNext
