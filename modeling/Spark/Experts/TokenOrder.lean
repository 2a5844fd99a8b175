import Mathlib.Data.Prod.Lex
import Spark.Experts.Slots

/-!
# The order of the tokens of a bucket

`moe_token_order` tries every token as the first one and goes on, from each token, to the one that shares most
experts with it. `QwenLayerExpertSlots::plan` is then called for the tokens in the order with the least cost.

* **`orderLoop_spec`** — the loop puts each remaining token behind the order and counts the cost of its steps.
* **`plan_exact`** — one plan leaves the experts of its token in the ten slots, and loads those that were not.
* **`planTokens_exact`** — the plans of all tokens load what the order says they cost.
-/

namespace Spark.Experts

open Fabric LayerExpertSlots

/-- `TOP_K`, which is `ACTIVE_EXPERTS`. -/
abbrev topK : Nat := 10

/-- `usize::MAX`. -/
abbrev usizeMax : Nat := 2 ^ 64 - 1

/-- `logical[token * TOP_K..token * TOP_K + TOP_K]`. -/
def routes (logical : List Int) (token : Nat) : List Int := (logical.drop (token * topK)).take topK

def overlap (logical : List Int) (left right : Nat) : Nat :=
  (routes logical left).countP fun expert => (routes logical right).contains expert

/-- `max_by_key(|candidate| (overlap(current, *candidate), usize::MAX - *candidate))`; no two candidates have
the same key. -/
def nextToken (logical : List Int) (current : Nat) (remaining : List Nat) : Option Nat :=
  remaining.argmax fun candidate => toLex (overlap logical current candidate, usizeMax - candidate)

/-- `while !remaining.is_empty()`; each round takes one token out of `remaining`, which is ascending. -/
def orderLoop (logical : List Int) : Nat → Nat → List Nat → List Nat → Nat → List Nat × Nat
  | 0, _, _, order, loads => (order, loads)
  | rounds + 1, current, remaining, order, loads =>
    match nextToken logical current remaining with
    | none => (order, loads)
    | some next =>
      orderLoop logical rounds next (remaining.erase next) (order ++ [next])
        (loads + (topK - overlap logical current next))

/-- The greedy order from one starting token, with its `loads`. -/
def greedyOrder (logical : List Int) (tokens start : Nat) : List Nat × Nat :=
  orderLoop logical tokens start ((List.range tokens).erase start) [start] topK

/-- `best_order` and `best_loads` after all starting tokens. -/
def bestOrder (logical : List Int) (tokens : Nat) : List Nat × Nat :=
  (List.range tokens).foldl (fun best start =>
    let tried := greedyOrder logical tokens start
    if tried.2 < best.2 then tried else best) ([], usizeMax)

def moeTokenOrder (logical : List Int) (numTokens : UInt32) : List UInt32 :=
  let tokens := numTokens.toNat
  if tokens ≤ 1 then (List.range tokens).map UInt32.ofNat
  else (bestOrder logical tokens).1.map UInt32.ofNat

/-- The caller's loop: one plan for each token, in the order. -/
def planTokens (layer : Nat) (logical : List Int) :
    List UInt32 → LayerExpertSlots → Except String (List ExpertLoad) × LayerExpertSlots
  | [], slots => (.ok [], slots)
  | token :: order, slots =>
    match slots.plan layer (routes logical token.toNat) with
    | (.error e, after) => (.error e, after)
    | (.ok plan, after) =>
      let later := planTokens layer logical order after
      (later.1.map (plan.loads ++ ·), later.2)

/-! ## The order -/

/-- The sum over consecutive tokens of the experts that are not shared. -/
def stepCost (logical : List Int) : List Nat → Nat
  | current :: next :: order => topK - overlap logical current next + stepCost logical (next :: order)
  | _ => 0

theorem nextToken_mem {logical : List Int} {current next : Nat} {remaining : List Nat}
    (h : nextToken logical current remaining = some next) : next ∈ remaining := List.argmax_mem h

/-- The loop puts the remaining tokens behind the order, each once, and counts what the steps cost. -/
theorem orderLoop_spec (logical : List Int) (rounds current : Nat) (remaining order : List Nat) (loads : Nat)
    (h : remaining.length ≤ rounds) :
    ∃ rest, orderLoop logical rounds current remaining order loads =
        (order ++ rest, loads + stepCost logical (current :: rest)) ∧ rest.Perm remaining := by
  induction rounds generalizing current remaining order loads with
  | zero =>
    have hempty : remaining = [] := List.length_eq_zero_iff.mp (Nat.le_zero.mp h)
    subst hempty
    exact ⟨[], by rw [orderLoop, List.append_nil]; rfl, .nil⟩
  | succ rounds ih =>
    unfold orderLoop
    cases hnext : nextToken logical current remaining with
    | none =>
      have hempty : remaining = [] := List.argmax_eq_none.mp hnext
      subst hempty
      exact ⟨[], by rw [List.append_nil]; rfl, .nil⟩
    | some next =>
      have hmem := nextToken_mem hnext
      have hlength : (remaining.erase next).length ≤ rounds := by
        rw [List.length_erase_of_mem hmem]
        omega
      obtain ⟨rest, heq, hperm⟩ := ih next (remaining.erase next) (order ++ [next])
        (loads + (topK - overlap logical current next)) hlength
      refine ⟨next :: rest, ?_, ?_⟩
      · simp only [heq, List.append_assoc, List.singleton_append, stepCost, Nat.add_assoc]
      · exact (hperm.cons next).trans (List.perm_cons_erase hmem).symm

/-- The greedy order from a token is an order of all tokens, and its loads are what it costs. -/
theorem greedyOrder_spec (logical : List Int) {tokens start : Nat} (hstart : start < tokens) :
    (greedyOrder logical tokens start).1.Perm (List.range tokens) ∧
      (greedyOrder logical tokens start).2 = topK + stepCost logical (greedyOrder logical tokens start).1 := by
  have hmem : start ∈ List.range tokens := List.mem_range.mpr hstart
  have hlength : ((List.range tokens).erase start).length ≤ tokens := by
    rw [List.length_erase_of_mem hmem, List.length_range]
    omega
  obtain ⟨rest, heq, hperm⟩ := orderLoop_spec logical tokens start _ [start] topK hlength
  rw [greedyOrder, heq]
  exact ⟨(hperm.cons start).trans (List.perm_cons_erase hmem).symm, rfl⟩

/-- A step costs at most the ten experts of a token. -/
theorem stepCost_le (logical : List Int) (order : List Nat) : stepCost logical order ≤ topK * (order.length - 1) := by
  fun_induction stepCost with
  | case1 current next order ih =>
    simp only [List.length_cons, Nat.add_sub_cancel, topK] at ih ⊢
    omega
  | case2 => exact Nat.zero_le _

theorem greedyOrder_lt (logical : List Int) {tokens start : Nat} (hstart : start < tokens)
    (htokens : tokens < 2 ^ 32) :
    (greedyOrder logical tokens start).2 < usizeMax := by
  obtain ⟨hperm, hloads⟩ := greedyOrder_spec logical hstart
  have hle := stepCost_le logical (greedyOrder logical tokens start).1
  rw [hperm.length_eq, List.length_range] at hle
  simp only [topK, usizeMax] at hle hloads ⊢
  omega

/-- The best of the starting tokens seen so far. -/
theorem best_of_seen (logical : List Int) (tokens : Nat) (starts : List Nat) (best : List Nat × Nat) :
    let found := starts.foldl (fun best start =>
      let tried := greedyOrder logical tokens start
      if tried.2 < best.2 then tried else best) best
    (found = best ∨ ∃ start ∈ starts, found = greedyOrder logical tokens start) ∧ found.2 ≤ best.2 ∧
      ∀ start ∈ starts, found.2 ≤ (greedyOrder logical tokens start).2 := by
  induction starts generalizing best with
  | nil => exact ⟨.inl rfl, Nat.le_refl _, nofun⟩
  | cons start starts ih =>
    dsimp only [List.foldl_cons]
    split
    · next hlt =>
      obtain ⟨hfrom, hle, hall⟩ := ih (greedyOrder logical tokens start)
      refine ⟨?_, hle.trans hlt.le, List.forall_mem_cons.mpr ⟨hle, hall⟩⟩
      rcases hfrom with hfrom | ⟨start', hstart', hfrom⟩
      · exact .inr ⟨start, List.mem_cons_self, hfrom⟩
      · exact .inr ⟨start', List.mem_cons_of_mem _ hstart', hfrom⟩
    · next hge =>
      obtain ⟨hfrom, hle, hall⟩ := ih best
      refine ⟨?_, hle, List.forall_mem_cons.mpr ⟨hle.trans (Nat.le_of_not_lt hge), hall⟩⟩
      rcases hfrom with hfrom | ⟨start', hstart', hfrom⟩
      · exact .inl hfrom
      · exact .inr ⟨start', List.mem_cons_of_mem _ hstart', hfrom⟩

/-- With a token there is a best starting token, and none costs less. -/
theorem bestOrder_spec (logical : List Int) {tokens : Nat} (hpos : 0 < tokens) (htokens : tokens < 2 ^ 32) :
    (∃ start < tokens, bestOrder logical tokens = greedyOrder logical tokens start) ∧
      ∀ start < tokens, (bestOrder logical tokens).2 ≤ (greedyOrder logical tokens start).2 := by
  obtain ⟨hfrom, -, hall⟩ := best_of_seen logical tokens (List.range tokens) ([], usizeMax)
  refine ⟨?_, fun start hstart => hall start (List.mem_range.mpr hstart)⟩
  rcases hfrom with hfrom | ⟨start, hstart, hfrom⟩
  · -- the first starting token is already better than the initial bound
    have hle := hall 0 (List.mem_range.mpr hpos)
    rw [hfrom] at hle
    exact absurd (greedyOrder_lt logical hpos htokens) (Nat.not_lt.mpr hle)
  · exact ⟨start, List.mem_range.mp hstart, hfrom⟩

theorem bestOrder_one (logical : List Int) : bestOrder logical 1 = ([0], topK) := rfl

/-- Token numbers are below `2 ^ 32`, so the conversion to `u32` keeps them. -/
theorem map_toNat_ofNat {order : List Nat} (h : ∀ token ∈ order, token < 2 ^ 32) :
    (order.map UInt32.ofNat).map UInt32.toNat = order := by
  rw [List.map_map]
  refine (List.map_congr_left fun token hmem => ?_).trans (List.map_id order)
  exact UInt32.toNat_ofNat_of_lt' (h token hmem)

/-- The returned order is the best one. -/
theorem moeTokenOrder_eq (logical : List Int) (numTokens : UInt32) (hpos : 0 < numTokens.toNat) :
    (moeTokenOrder logical numTokens).map UInt32.toNat = (bestOrder logical numTokens.toNat).1 := by
  have hbound := numTokens.toNat_lt
  unfold moeTokenOrder
  dsimp only
  split
  · next hle =>
    rw [show numTokens.toNat = 1 by omega]
    rfl
  · obtain ⟨⟨start, hstart, hbest⟩, -⟩ := bestOrder_spec logical hpos hbound
    have hperm := (greedyOrder_spec logical hstart).1
    rw [hbest]
    apply map_toNat_ofNat
    intro token hmem
    have := List.mem_range.mp (hperm.mem_iff.mp hmem)
    omega

theorem moeTokenOrder_zero (logical : List Int) : moeTokenOrder logical 0 = [] := rfl

/-- Each token index is in the returned order exactly once. -/
theorem moeTokenOrder_perm (logical : List Int) (numTokens : UInt32) :
    ((moeTokenOrder logical numTokens).map UInt32.toNat).Perm (List.range numTokens.toNat) := by
  rcases Nat.eq_zero_or_pos numTokens.toNat with hzero | hpos
  · rw [moeTokenOrder, if_pos (by omega), hzero]
    exact .nil
  · obtain ⟨⟨start, hstart, hbest⟩, -⟩ := bestOrder_spec logical hpos numTokens.toNat_lt
    rw [moeTokenOrder_eq logical numTokens hpos, hbest]
    exact (greedyOrder_spec logical hstart).1

/-! ## One plan -/

/-- The ten slots hold the experts of one token. -/
def HoldsExactly (table : Table) (experts : List Int) : Prop := ∀ expert, table.Holds expert ↔ expert ∈ experts

/-- Ten experts that all have a slot leave no slot for another one. -/
theorem holdsExactly_of_held {table : Table} {experts : List Int} (hnodup : experts.Nodup)
    (hlength : experts.length = layerExpertSlots) (hheld : ∀ expert ∈ experts, table.Holds expert) :
    HoldsExactly table experts := by
  refine fun expert => ⟨?_, hheld expert⟩
  rintro ⟨slot, hslot⟩
  by_contra hother
  obtain ⟨unheld, hmem, hnone⟩ :=
    SlotMap.exists_unclaimed (fun (expert : Int) (slot : Slot) => expert ∈ experts ∧ table[slot] = some expert)
      hnodup (by rw [List.length_finRange, hlength])
      (fun hs ht => Option.some.inj (hs.2.symm.trans ht.2)) (List.mem_finRange slot)
      (fun resident hresident => hother (Option.some.inj (hslot.symm.trans hresident.2) ▸ hresident.1))
  obtain ⟨home, hhome⟩ := hheld unheld hmem
  exact hnone home (List.mem_finRange home) ⟨hmem, hhome⟩

theorem holds_place {slots : LayerExpertSlots} {slot : Slot} {expert resident : Int} {requested : List Int}
    (hspared : ∀ other, slots.slotExperts.get slot = some other → other ∉ requested)
    (hmem : resident ∈ requested)
    (hne : resident ≠ expert) :
    (slots.place slot expert).slotExperts.Holds resident ↔ slots.slotExperts.Holds resident := by
  refine exists_congr fun other => ?_
  show (slots.slotExperts.set slot (some expert))[other] = some resident ↔ _
  rw [Table.getElem_set]
  split
  · next heq =>
    subst heq
    exact iff_of_false (fun h => hne (Option.some.inj h).symm) (fun h => hspared resident h hmem)
  · exact Iff.rfl

/-- The loop of `plan` asks for exactly the experts that were not there: it never evicts a requested one. -/
theorem placeExperts_count (layer : Nat) {requested : List Int} (hlength : requested.length = layerExpertSlots)
    (experts : List Int) :
    ∀ slots : LayerExpertSlots, slots.slotExperts.Valid → experts.Nodup → (∀ expert ∈ experts, expert ∈ requested) →
      (∀ expert ∈ experts, 0 ≤ expert ∧ expert < 65536) →
      ∃ loads after, placeExperts layer requested experts slots = (.ok loads, after) ∧
        loads.length = experts.countP fun expert => !slots.slotExperts.contains (some expert) := by
  induction experts with
  | nil => exact fun slots _ _ _ _ => ⟨[], slots, rfl, rfl⟩
  | cons expert rest ih =>
    intro slots hvalid hnodup hmem hfits
    obtain ⟨hnew, hnodupRest⟩ := List.nodup_cons.mp hnodup
    obtain ⟨hrequested, hrest⟩ := List.forall_mem_cons.mp hmem
    obtain ⟨hexpert, hfitsRest⟩ := List.forall_mem_cons.mp hfits
    simp only [placeExperts, toU16_ok hexpert]
    by_cases hholds : slots.slotExperts.Holds expert
    · have hcontains := Table.contains_iff.mpr hholds
      obtain ⟨loads, after, heq, hcount⟩ := ih slots hvalid hnodupRest hrest hfitsRest
      refine ⟨loads, after, by rw [if_pos hcontains, heq], ?_⟩
      rw [List.countP_cons_of_neg (by rw [hcontains]; exact Bool.false_ne_true), hcount]
    · have hmissing : slots.slotExperts.contains (some expert) = false :=
        Bool.eq_false_iff.mpr fun h => hholds (Table.contains_iff.mp h)
      obtain ⟨slot, hslot, hspared⟩ := chooseSlot_spec hvalid hlength hrequested hholds
      obtain ⟨evicts, hevicts⟩ := evictedKey_ok hvalid layer slot
      obtain ⟨loads, after, heq, hcount⟩ :=
        ih (slots.place slot expert) (hvalid.set hholds hexpert) hnodupRest hrest hfitsRest
      rw [if_neg (by rw [hmissing]; exact Bool.false_ne_true), hslot]
      simp only [hevicts, heq]
      refine ⟨_, after, rfl, ?_⟩
      rw [List.countP_cons_of_pos (by rw [hmissing]; rfl), List.length_cons, hcount]
      -- the placed expert changes nothing for the others
      refine congrArg (· + 1) (List.countP_congr fun resident hresident => ?_)
      have hne : resident ≠ expert := fun heq => hnew (heq ▸ hresident)
      have hsame := holds_place hspared (hrest resident hresident) hne
      rw [← Table.contains_iff, ← Table.contains_iff] at hsame
      rw [Bool.not_eq_true', Bool.not_eq_true', Bool.eq_false_iff, Bool.eq_false_iff, ne_eq, ne_eq, hsame]

theorem requestedExperts_perm {logical : List Int} (h : logical.Nodup) : (requestedExperts logical).Perm logical := by
  rw [requestedExperts, h.dedup]
  exact List.perm_insertionSort _ _

/-- Ten distinct experts with an identity. -/
structure Routed (experts : List Int) : Prop where
  nodup : experts.Nodup
  length : experts.length = topK
  fits : ∀ expert ∈ experts, 0 ≤ expert ∧ expert < 65536

/-- A plan leaves exactly the routed experts in the slots, and its loads are those that were not there. -/
theorem plan_exact {slots : LayerExpertSlots} (hvalid : slots.slotExperts.Valid) {layer : Nat}
    {logical : List Int} (hrouted : Routed logical) (hlayer : layer < 65536) (htick : slots.tick + 1 < 2 ^ 64) :
    ∃ plan after, slots.plan layer logical = (.ok plan, after) ∧ after.slotExperts.Valid ∧
      HoldsExactly after.slotExperts logical ∧ after.tick = slots.tick + 1 ∧
      plan.loads.length = logical.countP fun expert => !slots.slotExperts.contains (some expert) := by
  have hperm := requestedExperts_perm hrouted.nodup
  have hlength : (requestedExperts logical).length = layerExpertSlots := hperm.length_eq.trans hrouted.length
  have hfits : ∀ expert ∈ requestedExperts logical, 0 ≤ expert ∧ expert < 65536 :=
    fun expert h => hrouted.fits expert (mem_requestedExperts.mp h)
  obtain ⟨loads, placed, heq, hplaced, hheld, hsame, -⟩ :=
    placeExperts_spec layer hlength (requestedExperts logical) slots hvalid (fun _ h => h) hfits
  obtain ⟨loads', placed', heq', hcount⟩ :=
    placeExperts_count layer hlength (requestedExperts logical) slots hvalid (hperm.nodup_iff.mpr hrouted.nodup)
      (fun _ h => h) hfits
  rw [heq] at heq'
  cases heq'
  obtain ⟨physical, hplan, -⟩ := plan_eq_ok hlength hlayer heq hheld (hsame ▸ htick)
  refine ⟨_, _, hplan, ?_, ?_, ?_, ?_⟩
  · rw [touchRouted_slotExperts]
    exact hplaced.valid
  · rw [touchRouted_slotExperts]
    exact holdsExactly_of_held hrouted.nodup hrouted.length
      fun expert h => hheld expert (mem_requestedExperts.mpr h)
  · rw [touchRouted_tick, hsame]
  · exact hcount.trans (hperm.countP_eq _)

/-- What the next token loads is what it does not share with the token before it. -/
theorem count_missing {table : Table} {experts next : List Int} (hexperts : experts.Nodup) (hnext : next.Nodup)
    (hholds : HoldsExactly table experts) :
    (next.countP fun expert => !table.contains (some expert)) =
      next.length - experts.countP fun expert => next.contains expert := by
  have hcontains : ∀ expert, table.contains (some expert) = experts.contains expert := fun expert =>
    Bool.eq_iff_iff.mpr (Table.contains_iff.trans ((hholds expert).trans List.contains_iff_mem.symm))
  have hshared : (next.countP fun expert => experts.contains expert) =
      experts.countP fun expert => next.contains expert := by
    rw [List.countP_eq_length_filter, List.countP_eq_length_filter]
    refine ((List.perm_ext_iff_of_nodup (hnext.filter _) (hexperts.filter _)).mpr fun expert => ?_).length_eq
    simp only [List.mem_filter, List.contains_iff_mem]
    exact and_comm
  have hsplit := next.length_eq_countP_add_countP fun expert => experts.contains expert
  simp only [hcontains]
  simp only [decide_not, Bool.decide_eq_true] at hsplit
  omega

/-! ## All plans -/

/-- Ten distinct experts for each token, which the caller has checked to have an identity. -/
structure RouteTable (numTokens : UInt32) (logical : List Int) : Prop where
  length : logical.length = numTokens.toNat * topK
  distinct : ∀ token < numTokens.toNat, (routes logical token).Nodup
  fits : ∀ expert ∈ logical, 0 ≤ expert ∧ expert < 65536

theorem RouteTable.routed {numTokens : UInt32} {logical : List Int} (h : RouteTable numTokens logical) {token : Nat}
    (htoken : token < numTokens.toNat) : Routed (routes logical token) where
  nodup := h.distinct token htoken
  length := by
    rw [routes, List.length_take, List.length_drop, h.length]
    simp only [topK]
    omega
  fits expert hmem := h.fits expert (List.mem_of_mem_drop (List.mem_of_mem_take hmem))

/-- After the token before, the plans of the tokens behind it load what the steps cost. -/
theorem planTokens_step {numTokens : UInt32} {logical : List Int} (h : RouteTable numTokens logical) {layer : Nat}
    (hlayer : layer < 65536) (order : List UInt32) (current : UInt32) (slots : LayerExpertSlots)
    (hcurrent : current.toNat < numTokens.toNat) (horder : ∀ token ∈ order, token.toNat < numTokens.toNat)
    (hvalid : slots.slotExperts.Valid) (hholds : HoldsExactly slots.slotExperts (routes logical current.toNat))
    (htick : slots.tick + order.length < 2 ^ 64) :
    ∃ loads, (planTokens layer logical order slots).1 = .ok loads ∧
      loads.length = stepCost logical ((current :: order).map UInt32.toNat) := by
  induction order generalizing current slots with
  | nil => exact ⟨[], rfl, rfl⟩
  | cons next order ih =>
    obtain ⟨hnext, horder⟩ := List.forall_mem_cons.mp horder
    have hrouted := h.routed hnext
    rw [List.length_cons] at htick
    obtain ⟨plan, after, hplan, hvalid', hholds', htick', hcount⟩ :=
      plan_exact hvalid hrouted hlayer (by omega : slots.tick + 1 < 2 ^ 64)
    obtain ⟨loads, hloads, hsum⟩ := ih next after hnext horder hvalid' hholds' (by omega)
    refine ⟨plan.loads ++ loads, ?_, ?_⟩
    · simp only [planTokens, hplan, hloads]
      rfl
    · rw [List.length_append, hsum, hcount,
        count_missing (h.routed hcurrent).nodup hrouted.nodup hholds, hrouted.length]
      rfl

/-- From the empty bank, the plans of an order load ten experts and what its steps cost. -/
theorem planTokens_exact {numTokens : UInt32} {logical : List Int} (h : RouteTable numTokens logical) {layer : Nat}
    (hlayer : layer < 65536) (first : UInt32) (order : List UInt32) (hlength : order.length < 2 ^ 32)
    (horder : ∀ token ∈ first :: order, token.toNat < numTokens.toNat) :
    ∃ loads, (planTokens layer logical (first :: order) LayerExpertSlots.new).1 = .ok loads ∧
      loads.length = topK + stepCost logical ((first :: order).map UInt32.toNat) := by
  obtain ⟨hfirst, hrest⟩ := List.forall_mem_cons.mp horder
  have hrouted := h.routed hfirst
  obtain ⟨plan, after, hplan, hvalid, hholds, htick, hcount⟩ :=
    plan_exact Table.valid_new hrouted hlayer (by decide : LayerExpertSlots.new.tick + 1 < 2 ^ 64)
  have hall : ∀ expert ∈ routes logical first.toNat,
      (!LayerExpertSlots.new.slotExperts.contains (some expert)) = true := by
    intro expert _
    rw [Bool.not_eq_true', Bool.eq_false_iff, ne_eq, Table.contains_iff]
    rintro ⟨slot, hslot⟩
    simp [LayerExpertSlots.new] at hslot
  rw [List.countP_eq_length.mpr hall, hrouted.length] at hcount
  have hzero : LayerExpertSlots.new.tick = 0 := rfl
  obtain ⟨loads, hloads, hsum⟩ := planTokens_step h hlayer order first after hfirst hrest hvalid hholds (by omega)
  refine ⟨plan.loads ++ loads, ?_, ?_⟩
  · simp only [planTokens, hplan, hloads]
    rfl
  · rw [List.length_append, hsum, hcount]

/-- What an order is said to cost: without a token there is nothing to load. -/
def orderCost (logical : List Int) (order : List Nat) : Nat :=
  if order = [] then 0 else topK + stepCost logical order

/-- The returned order is a permutation of the tokens, its plans load what it costs from an empty bank, and no
starting token gives a greedy order that costs less. -/
theorem moeTokenOrder_exact (logical : List Int) (numTokens : UInt32) (layer : Nat)
    (h : RouteTable numTokens logical) (hlayer : layer < 65536) :
    ((moeTokenOrder logical numTokens).map UInt32.toNat).Perm (List.range numTokens.toNat) ∧
      (∃ loads, (planTokens layer logical (moeTokenOrder logical numTokens) LayerExpertSlots.new).1 = .ok loads ∧
        loads.length = orderCost logical ((moeTokenOrder logical numTokens).map UInt32.toNat) ∧
        (0 < numTokens.toNat → loads.length = (bestOrder logical numTokens.toNat).2)) ∧
      ∀ start < numTokens.toNat,
        orderCost logical ((moeTokenOrder logical numTokens).map UInt32.toNat) ≤
          orderCost logical (greedyOrder logical numTokens.toNat start).1 := by
  have hperm := moeTokenOrder_perm logical numTokens
  refine ⟨hperm, ?_⟩
  rcases Nat.eq_zero_or_pos numTokens.toNat with hzero | hpos
  · have hempty : moeTokenOrder logical numTokens = [] := by
      rw [moeTokenOrder, if_pos (by omega), hzero]
      rfl
    rw [hempty]
    exact ⟨⟨[], rfl, rfl, fun hpos => by omega⟩, fun start hstart => by omega⟩
  have hbest := moeTokenOrder_eq logical numTokens hpos
  obtain ⟨⟨start, hstart, hfrom⟩, hleast⟩ := bestOrder_spec logical hpos numTokens.toNat_lt
  have hcost : ∀ start < numTokens.toNat, orderCost logical (greedyOrder logical numTokens.toNat start).1 =
      (greedyOrder logical numTokens.toNat start).2 := by
    intro start hstart
    obtain ⟨hall, hloads⟩ := greedyOrder_spec logical hstart
    have hne : (greedyOrder logical numTokens.toNat start).1 ≠ [] := by
      intro hempty
      rw [hempty, List.nil_perm] at hall
      exact hpos.ne' (List.range_eq_nil.mp hall)
    rw [orderCost, if_neg hne, hloads]
  have hchosen : orderCost logical ((moeTokenOrder logical numTokens).map UInt32.toNat) =
      (bestOrder logical numTokens.toNat).2 := by
    rw [hbest, hfrom, hcost start hstart]
  refine ⟨?_, fun other hother => ?_⟩
  · have hlength := hperm.length_eq
    rw [List.length_map, List.length_range] at hlength
    cases horder : moeTokenOrder logical numTokens with
    | nil =>
      rw [horder] at hlength
      exact absurd hlength.symm hpos.ne'
    | cons first order =>
      have hin : ∀ token ∈ first :: order, token.toNat < numTokens.toNat := by
        intro token hmem
        rw [← horder] at hmem
        exact List.mem_range.mp (hperm.mem_iff.mp (List.mem_map_of_mem hmem))
      have hbound := numTokens.toNat_lt
      rw [horder, List.length_cons] at hlength
      obtain ⟨loads, hloads, hcount⟩ := planTokens_exact h hlayer first order (by omega) hin
      rw [← horder] at hloads hcount ⊢
      have hne : (moeTokenOrder logical numTokens).map UInt32.toNat ≠ [] := by rw [horder]; exact nofun
      have heq : loads.length = orderCost logical ((moeTokenOrder logical numTokens).map UInt32.toNat) := by
        rw [hcount, orderCost, if_neg hne]
      exact ⟨loads, hloads, heq, fun _ => heq.trans hchosen⟩
  · rw [hchosen, hcost other hother]
    exact hleast other hother

/-- Two tokens that share nine experts. -/
theorem moeTokenOrder_exact_two :
    let logical : List Int := [0, 1, 2, 3, 4, 5, 6, 7, 8, 9, 0, 1, 2, 3, 4, 5, 6, 7, 8, 10]
    ((moeTokenOrder logical 2).map UInt32.toNat).Perm (List.range 2) ∧
      (∃ loads, (planTokens 0 logical (moeTokenOrder logical 2) LayerExpertSlots.new).1 = .ok loads ∧
        loads.length = orderCost logical ((moeTokenOrder logical 2).map UInt32.toNat) ∧
        (0 < (2 : UInt32).toNat → loads.length = (bestOrder logical 2).2)) ∧
      ∀ start < 2,
        orderCost logical ((moeTokenOrder logical 2).map UInt32.toNat) ≤
          orderCost logical (greedyOrder logical 2 start).1 :=
  moeTokenOrder_exact _ 2 0 ⟨by decide, by decide, by decide⟩ (by decide)

/-- Without a token nothing is loaded, and an expert without an identity is refused. -/
theorem no_token_no_load :
    (∃ loads, (planTokens 0 [] (moeTokenOrder [] 0) LayerExpertSlots.new).1 = .ok loads ∧ loads.length ≠
      topK + stepCost [] ((moeTokenOrder [] 0).map UInt32.toNat)) ∧
    let logical : List Int := [-1, 0, 1, 2, 3, 4, 5, 6, 7, 8]
    logical.Nodup ∧ ∃ e, (planTokens 0 logical (moeTokenOrder logical 1) LayerExpertSlots.new).1 = .error e := by
  refine ⟨⟨[], rfl, by decide⟩, by decide, ?_⟩
  have hrefused : Refused 0 [-1, 0, 1, 2, 3, 4, 5, 6, 7, 8] := .inr (.inr ⟨-1, by decide, by decide⟩)
  obtain ⟨e, heq⟩ := plan_refused hrefused LayerExpertSlots.new
  refine ⟨e, ?_⟩
  rw [show moeTokenOrder [-1, 0, 1, 2, 3, 4, 5, 6, 7, 8] 1 = [0] from rfl, planTokens,
    show routes [-1, 0, 1, 2, 3, 4, 5, 6, 7, 8] (0 : UInt32).toNat = [-1, 0, 1, 2, 3, 4, 5, 6, 7, 8] from rfl, heq]

end Spark.Experts
