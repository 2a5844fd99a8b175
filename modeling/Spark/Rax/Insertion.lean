import Mathlib.Data.List.Basic
import Spark.Rax.Meaning

/-!
# Insertion into a radix tree

* **`raxAddChildNoAlloc_frame`** — a new child stands in a frame of its own.
* **`insertChars_grows`** — the loop over the missing letters adds one key.
* **`raxGenericInsert_spec`** — an insertion is an update of the map.
-/

namespace Spark.Rax

open Trie

variable {V : Type}

/-! ## Single values -/

section Values

variable {h : RaxNode V} {stack : List (Frame V)}

theorem inline_get (v : V) : (RaxNode.inline v).get = Function.update empty [] (some v) := by
  funext k
  show chain (some v) [] empty k = _
  cases k with
  | nil => rfl
  | cons c k =>
    rw [Function.update_of_ne (List.cons_ne_nil c k)]
    rfl

theorem value_node_get (value : Option V) : (RaxNode.plain value []).get = chain value [] empty :=
  branch_empty value

theorem new_get : (RaxNode.new : RaxNode V).get = empty := by
  rw [show (RaxNode.new : RaxNode V) = .plain none [] from rfl, value_node_get]
  funext k
  unfold chain empty
  simp

theorem chain_update (value : Option V) (s : List UInt8) (m : List UInt8 → Option V) (v : Option V) :
    Function.update (chain value s m) [] v = chain v s m := by
  funext k
  by_cases hk : k = []
  · rw [hk, Function.update_self]
    rfl
  · rw [Function.update_of_ne hk, chain, chain, if_neg hk, if_neg hk]

theorem setValue_get (hnode : h.isNode = true) (value : Option V) :
    (h.setValue value).get = Function.update h.get [] value := by
  cases h with
  | inline v => cases hnode
  | compr value' data child => exact (chain_update value' data child.get value).symm
  | plain value' children =>
    funext k
    cases k with
    | nil => rfl
    | cons c k =>
      rw [Function.update_of_ne (List.cons_ne_nil c k)]
      rfl

theorem setValue_sound (hsound : h.Sound) (value : Option V) : (h.setValue value).Sound := by
  cases hsound with
  | inline v => exact .inline v
  | compr value' hlong hfits hsound hlive => exact .compr value hlong hfits hsound hlive
  | plain value' hsorted hsound hlive hslots => exact .plain value hsorted hsound hlive hslots

theorem setValue_isNode (value : Option V) : (h.setValue value).isNode = h.isNode := by
  cases h <;> rfl

theorem setValue_nodes (value : Option V) : (h.setValue value).nodes = h.nodes := by
  cases h <;> simp [RaxNode.setValue, RaxNode.nodes]

theorem setValue_live (v : V) : (h.setValue (some v)).Live := by
  intro heq
  cases h with
  | inline v' => cases heq
  | compr value' data child => cases heq
  | plain value' children => cases heq

theorem nodesOf_append (left right : List (UInt8 × RaxNode V)) :
    nodesOf (left ++ right) = nodesOf left + nodesOf right := by
  induction left with
  | nil => simp [nodesOf]
  | cons e left ih =>
    obtain ⟨c, child⟩ := e
    simp only [List.cons_append, nodesOf, ih, Nat.add_assoc]

/-- The nodes of a frame. -/
def Frame.nodes : Frame V → Nat
  | .compr _ _ => 1
  | .plain _ left _ right => nodesOf (left ++ right) + 1

theorem fill_nodes (f : Frame V) (h : RaxNode V) : (f.fill h).nodes = f.nodes + h.nodes := by
  cases f with
  | compr value data =>
    show h.nodes + 1 = 1 + h.nodes
    omega
  | plain value left c right =>
    show nodesOf (left ++ (c, h) :: right) + 1 = nodesOf (left ++ right) + 1 + h.nodes
    rw [nodesOf_append, nodesOf_append, nodesOf]
    omega

/-- The nodes of a stack. -/
def stackNodes : List (Frame V) → Nat
  | [] => 0
  | f :: stack => stackNodes stack + f.nodes

theorem plug_nodes (stack : List (Frame V)) (h : RaxNode V) : (plug stack h).nodes = stackNodes stack + h.nodes := by
  induction stack generalizing h with
  | nil => exact (Nat.zero_add _).symm
  | cons f stack ih =>
    show (plug stack (f.fill h)).nodes = stackNodes stack + f.nodes + h.nodes
    rw [ih, fill_nodes, Nat.add_assoc]

end Values

/-! ## A new child -/

section Children

variable {value : Option V} {children : List (UInt8 × RaxNode V)} {child : RaxNode V} {c : UInt8} {pos : Nat}

theorem plain_sorted (h : (RaxNode.plain value children).Sound) : (children.map Prod.fst).Pairwise (· < ·) := by
  cases h with
  | plain _ hsorted hsound hlive hslots => exact hsorted

theorem plain_slots (h : (RaxNode.plain value children).Sound) : InSlots children := by
  cases h with
  | plain _ hsorted hsound hlive hslots => exact hslots

/-- The children once the value in the last slot of the bitmap has moved to a node, if it is behind `pos`. -/
structure Moved (value : Option V) (children : List (UInt8 × RaxNode V)) (pos : Nat)
    (out : List (UInt8 × RaxNode V) × Nat) : Prop where
  sound : (RaxNode.plain value out.1).Sound
  letters : out.1.map Prod.fst = children.map Prod.fst
  get : edgesOf out.1 = edgesOf children
  nodes : nodesOf out.1 = nodesOf children + out.2
  room : ∀ i c v, pos ≤ i → out.1[i]? = some (c, .inline v) → i + 1 < raxLeafSlots

theorem materializeLast_moved (h : (RaxNode.plain value children).Sound) (pos : Nat) :
    Moved value children pos (materializeLast pos children) := by
  -- nothing moves: the last slot holds no value, or stays where it is
  have hsame (hroom : ∀ i c v, pos ≤ i → children[i]? = some (c, .inline v) → i + 1 < raxLeafSlots) :
      Moved value children pos (children, 0) := ⟨h, rfl, rfl, rfl, hroom⟩
  unfold materializeLast
  split
  case h_1 c v hlast =>
    split
    case isTrue hpos =>
      have hlt := (List.getElem?_eq_some_iff.mp hlast).1
      have hsplit : children = children.take (raxLeafSlots - 1) ++ (c, .inline v) :: children.drop raxLeafSlots := by
        rw [← (List.getElem?_eq_some_iff.mp hlast).2]
        simp [raxLeafSlots]
      have hset : children.set (raxLeafSlots - 1) (c, raxNewValueNode v)
          = children.take (raxLeafSlots - 1) ++ (c, raxNewValueNode v) :: children.drop raxLeafSlots := by
        rw [List.set_eq_take_append_cons_drop, if_pos hlt]
        rfl
      have hlen : (children.take (raxLeafSlots - 1)).length = raxLeafSlots - 1 := by
        rw [List.length_take]
        omega
      generalize children.take (raxLeafSlots - 1) = left at hsplit hset hlen
      generalize children.drop raxLeafSlots = right at hsplit hset
      rw [hset]
      subst hsplit
      -- the map behind the letter is the one of the value, and so is that of its node
      obtain ⟨hok, -, -, -⟩ := h.frame
      have hlive : (raxNewValueNode v).Live := by
        intro heq
        cases heq
      have hvalue : (raxNewValueNode v).Sound := .plain _ List.Pairwise.nil (by simp) (by simp) (by simp [InSlots])
      have hc : c ∉ left.map Prod.fst := by
        intro hmem
        have hsorted := plain_sorted h
        rw [List.map_append, List.map_cons] at hsorted
        exact absurd ((List.pairwise_append.mp hsorted).2.2 c hmem c List.mem_cons_self) (by simp)
      refine ⟨hok.fill_sound hvalue hlive (.inl rfl), by simp, ?_, ?_, fun i d w hi hd => ?_⟩
      · have hget : (raxNewValueNode v).get = (RaxNode.inline v).get := value_node_get (some v)
        rw [edgesOf_split hc, edgesOf_split hc, hget]
      · rw [nodesOf_append, nodesOf_append, nodesOf, nodesOf]
        show _ + (0 + 1 + _) = _ + (0 + _) + 1
        omega
      · have hslots := plain_slots (hok.fill_sound hvalue hlive (.inl rfl)) i d w hd
        have hne : i ≠ raxLeafSlots - 1 := by
          rintro rfl
          rw [← hlen, List.getElem?_append_right (Nat.le_refl _), Nat.sub_self, List.getElem?_cons_zero] at hd
          cases hd
        omega
    case isFalse hpos =>
      apply hsame
      intro i d w hi hd
      have hslot := plain_slots h i d w hd
      omega
  case h_2 hlast =>
    apply hsame
    intro i d w hi hd
    have hslot := plain_slots h i d w hd
    have hne : i ≠ raxLeafSlots - 1 := by
      rintro rfl
      exact hlast d w hd
    omega

/-- The letters in front of the place of a new one are smaller, the ones behind it are greater. -/
theorem findChildPos_split (hsorted : (children.map Prod.fst).Pairwise (· < ·)) (hc : c ∉ children.map Prod.fst) :
    (∀ e ∈ children.take (raxNodeFindChildPos children c), e.1 < c) ∧
      ∀ e ∈ children.drop (raxNodeFindChildPos children c), c < e.1 := by
  induction children with
  | nil => simp [raxNodeFindChildPos]
  | cons e children ih =>
    rw [List.map_cons, List.mem_cons, not_or] at hc
    rw [List.map_cons, List.pairwise_cons] at hsorted
    obtain ⟨hfront, hback⟩ := ih hsorted.2 hc.2
    unfold raxNodeFindChildPos at hfront hback ⊢
    by_cases hle : e.1 ≤ c
    · have hlt : e.1 < c := UInt8.lt_of_le_of_ne hle fun h => hc.1 h.symm
      simp only [List.takeWhile_cons, hle, decide_true, if_true, List.length_cons, List.take_succ_cons,
        List.drop_succ_cons]
      refine ⟨fun d hd => ?_, hback⟩
      rcases List.mem_cons.mp hd with rfl | hd
      · exact hlt
      · exact hfront d hd
    · have hlt : c < e.1 := UInt8.not_le.mp hle
      simp only [List.takeWhile_cons, hle, decide_false, Bool.false_eq_true, if_false, List.length_nil,
        List.take_zero, List.drop_zero]
      refine ⟨fun d hd => absurd hd List.not_mem_nil, fun d hd => ?_⟩
      rcases List.mem_cons.mp hd with rfl | hd
      · exact hlt
      · exact UInt8.lt_trans hlt (hsorted.1 d.1 (List.mem_map_of_mem hd))

/-- A new child stands in a frame around the children that were there. -/
theorem raxAddChildNoAlloc_frame (h : (RaxNode.plain value children).Sound) (hc : c ∉ children.map Prod.fst)
    (child : RaxNode V) :
    ∃ f : Frame V, f.Ok ∧ .plain value (raxAddChildNoAlloc children c child).1 = f.fill child ∧ f.path = [c] ∧
      f.slot = raxNodeFindChildPos children c ∧ f.around empty = (RaxNode.plain value children).get ∧
      f.nodes = (RaxNode.plain value children).nodes + (raxAddChildNoAlloc children c child).2 := by
  have hmoved := materializeLast_moved h (raxNodeFindChildPos children c)
  have hpos : raxNodeFindChildPos children c ≤ children.length := by
    unfold raxNodeFindChildPos
    exact (List.takeWhile_sublist _).length_le
  obtain ⟨hfront, hback⟩ := findChildPos_split (plain_sorted h) hc
  unfold raxAddChildNoAlloc
  dsimp only
  generalize hout : materializeLast (raxNodeFindChildPos children c) children = out at hmoved
  generalize raxNodeFindChildPos children c = pos at hmoved hpos hfront hback
  have hlen : out.1.length = children.length := by
    have hmap := congrArg List.length hmoved.letters
    rwa [List.length_map, List.length_map] at hmap
  have hleft : (out.1.take pos).length = pos := by
    rw [List.length_take]
    omega
  cases hmoved.sound with
  | plain _ hsorted hsound hlive hslots =>
  refine ⟨.plain value (out.1.take pos) c (out.1.drop pos), ?_, rfl, rfl, hleft, ?_, ?_⟩
  · refine .plain value ?_ (fun e he => ?_) (fun e he => ?_) (fun i d v hi => ?_) fun i d v hi => ?_
    · rw [List.map_take, List.map_drop, hmoved.letters]
      have hall := plain_sorted h
      rw [← List.take_append_drop pos (children.map Prod.fst)] at hall
      obtain ⟨htake, hdrop, hcross⟩ := List.pairwise_append.mp hall
      refine List.pairwise_append.mpr ⟨htake, List.pairwise_cons.mpr ⟨fun d hd => ?_, hdrop⟩, fun a ha d hd => ?_⟩
      · rw [← List.map_drop] at hd
        obtain ⟨e, he, rfl⟩ := List.mem_map.mp hd
        exact hback e he
      · rcases List.mem_cons.mp hd with rfl | hd
        · rw [← List.map_take] at ha
          obtain ⟨e, he, rfl⟩ := List.mem_map.mp ha
          exact hfront e he
        · exact hcross a ha d hd
    · rw [List.take_append_drop] at he
      exact hsound e he
    · rw [List.take_append_drop] at he
      exact hlive e he
    · apply hslots i d v
      have hlt := (List.getElem?_eq_some_iff.mp hi).1
      rw [hleft] at hlt
      rw [List.getElem?_take_of_lt hlt] at hi
      exact hi
    · rw [List.getElem?_drop] at hi
      have hroom := hmoved.room (pos + i) d v (Nat.le_add_right _ _) hi
      rw [hleft]
      omega
  · show branch value (Function.update (edgesOf (out.1.take pos ++ out.1.drop pos)) c empty) = _
    rw [List.take_append_drop, hmoved.get, ← edgesOf_missing hc, Function.update_eq_self]
    rfl
  · show nodesOf (out.1.take pos ++ out.1.drop pos) + 1 = nodesOf children + 1 + out.2
    rw [List.take_append_drop, hmoved.nodes]
    omega

end Children

/-! ## The missing letters -/

section Chars

variable {value : Option V} {children : List (UInt8 × RaxNode V)}

/-- A string that does not fit one node fills one. -/
theorem comprsize_cut {n : Nat} (hmore : ¬ min n raxNodeMaxSize = n) :
    min n raxNodeMaxSize = raxNodeMaxSize ∧ raxNodeMaxSize < n := by
  omega

theorem new_sound : (RaxNode.new : RaxNode V).Sound :=
  .plain none List.Pairwise.nil (by simp) (by simp) (by simp [InSlots])

/-- What the loop makes of a node `h`: one more key. -/
structure Grows (h : RaxNode V) (rest : List UInt8) (v : V) (out : Grown V) : Prop where
  get : out.node.get = Function.update h.get rest (some v)
  sound : out.node.Sound
  node : out.node.isNode = true
  live : out.node.Live
  nodes : out.node.nodes = h.nodes + out.numnodes
  numele : out.numele = if (h.get rest).isSome then 0 else 1

theorem plain_get_missing {c : UInt8} {rest : List UInt8} (hc : c ∉ children.map Prod.fst) :
    (RaxNode.plain value children).get (c :: rest) = none := by
  show edgesOf children c rest = none
  rw [edgesOf_missing hc]
  rfl

section Loop

variable {rest : List UInt8} {v : V} {out : Grown V} {child : RaxNode V} {numnodes : Nat}

theorem Grows.update_empty (h : Grows .new rest v out) : out.node.get = Function.update empty rest (some v) := by
  rw [h.get, new_get]

theorem Grows.made (h : Grows .new rest v out) : out.node.nodes = out.numnodes + 1 := by
  rw [h.nodes]
  show 0 + 1 + _ = _
  omega

theorem Grows.one (h : Grows .new rest v out) : out.numele = 1 := by
  rw [h.numele, new_get]
  rfl

/-- No letter is missing: the node gets the value. -/
theorem grows_nil (hsound : (RaxNode.plain value children).Sound) (v : V) (fuel : Nat) :
    Grows (.plain value children) [] v (insertChars v fuel value children []) := by
  have hout : insertChars v fuel value children []
      = ⟨.plain (some v) children, 0, if value.isSome then 0 else 1⟩ := by
    cases fuel <;> rfl
  rw [hout]
  exact ⟨setValue_get (h := .plain value children) rfl (some v), setValue_sound hsound (some v), rfl,
    setValue_live (h := .plain value children) v, rfl, rfl⟩

/-- An empty node becomes a compressed one. -/
theorem grows_compr (value : Option V) {front : List UInt8} (hlong : 2 ≤ front.length)
    (hfits : front.length ≤ raxNodeMaxSize) (hget : child.get = Function.update empty rest (some v))
    (hsound : child.Sound) (hlive : child.Live) (hnodes : child.nodes = numnodes) :
    Grows (.plain value []) (front ++ rest) v ⟨.compr value front child, numnodes, 1⟩ := by
  have hfront : front ≠ [] := by
    rintro rfl
    cases hlong
  refine ⟨?_, .compr value hlong hfits hsound hlive, rfl, fill_live (.compr value front) child, ?_, ?_⟩
  · have hhole : Hole (chain value front) front := hole_chain hfront
    show chain value front child.get = _
    rw [hget, hhole.update, value_node_get, chain_empty]
  · show child.nodes + 1 = 0 + 1 + numnodes
    rw [hnodes]
    omega
  · obtain ⟨c, front, rfl⟩ := List.exists_cons_of_ne_nil hfront
    rw [List.cons_append, plain_get_missing List.not_mem_nil]
    rfl

/-- A node gets a child for a letter. -/
theorem grows_child {c : UInt8} (hsound : (RaxNode.plain value children).Sound) (hc : c ∉ children.map Prod.fst)
    (hget : child.get = Function.update empty rest (some v)) (hchild : child.Sound) (hlive : child.Live)
    (hslot : child.isNode = true ∨ raxNodeFindChildPos children c < raxLeafSlots) (hnodes : child.nodes = numnodes) :
    Grows (.plain value children) (c :: rest) v
      ⟨.plain value (raxAddChildNoAlloc children c child).1, (raxAddChildNoAlloc children c child).2 + numnodes,
        1⟩ := by
  obtain ⟨f, hok, hfill, hpath, hpos, haround, hcount⟩ := raxAddChildNoAlloc_frame hsound hc child
  rw [← hpos] at hslot
  refine ⟨?_, ?_, rfl, ?_, ?_, ?_⟩
  · dsimp only
    rw [hfill, hok.get_fill, hget, hok.hole.update, haround, hpath]
    rfl
  · dsimp only
    rw [hfill]
    exact hok.fill_sound hchild hlive hslot
  · dsimp only
    rw [hfill]
    exact fill_live f child
  · dsimp only
    rw [hfill, fill_nodes, hcount, hnodes]
    omega
  · rw [plain_get_missing hc]
    rfl

end Loop

theorem insertChars_grows {fuel : Nat} (v : V) (rest : List UInt8)
    (hsound : (RaxNode.plain value children).Sound) (hfuel : rest.length ≤ fuel)
    (hmissing : ∀ c ∈ rest.head?, c ∉ children.map Prod.fst) :
    Grows (.plain value children) rest v (insertChars v fuel value children rest) := by
  induction fuel generalizing value children rest with
  | zero =>
    rw [List.length_eq_zero_iff.mp (Nat.le_zero.mp hfuel)]
    exact grows_nil hsound v 0
  | succ fuel ih =>
    cases rest with
    | nil => exact grows_nil hsound v (fuel + 1)
    | cons c rest =>
      have hc : c ∉ children.map Prod.fst := hmissing c (by simp)
      have hnew {s : List UInt8} (hs : s.length ≤ fuel) : Grows .new s v (insertChars v fuel none [] s) :=
        ih s new_sound hs (by simp)
      rw [List.length_cons] at hfuel
      rw [insertChars]
      split
      case isTrue hempty =>
        obtain ⟨rfl, hrest⟩ := hempty
        have hlong : 2 ≤ (c :: rest).length := by
          have hpos := List.length_pos_of_ne_nil hrest
          rw [List.length_cons]
          omega
        dsimp only
        split
        case isTrue hall =>
          have hfits : (c :: rest).length ≤ raxNodeMaxSize := by
            rw [← hall]
            exact Nat.min_le_right _ _
          have hgrows := grows_compr value hlong hfits (inline_get v) (.inline v) (inline_live v) rfl
          rw [List.append_nil] at hgrows
          exact hgrows
        case isFalse hmore =>
          -- the string fills a node, and the loop goes on behind it
          obtain ⟨hcut, hlt⟩ := comprsize_cut hmore
          have hlen : ((c :: rest).take raxNodeMaxSize).length = raxNodeMaxSize := by
            rw [List.length_take, Nat.min_comm, hcut]
          have hgrown := hnew (s := (c :: rest).drop raxNodeMaxSize) (by
            rw [List.length_drop, List.length_cons]
            have hpos : 0 < raxNodeMaxSize := by decide
            omega)
          have htwo : 2 ≤ ((c :: rest).take raxNodeMaxSize).length := by
            rw [hlen]
            decide
          have hgrows := grows_compr value htwo (Nat.le_of_eq hlen) hgrown.update_empty hgrown.sound hgrown.live
            hgrown.made
          rw [List.take_append_drop] at hgrows
          rw [hcut, hgrown.one]
          exact hgrows
      case isFalse hfull =>
        split
        case isTrue hleaf =>
          -- the value stands in a slot of the node
          obtain ⟨rfl, hpos⟩ := hleaf
          exact grows_child hsound hc (inline_get v) (.inline v) (inline_live v) (.inr hpos) rfl
        case isFalse hleaf =>
          -- the child is a node, which grows in turn
          have hgrown := hnew (s := rest) (by omega)
          dsimp only
          rw [hgrown.one]
          exact grows_child hsound hc hgrown.update_empty hgrown.sound hgrown.live (.inl hgrown.node) hgrown.made

end Chars

/-! ## A node that is split -/

section Split

variable {value : Option V} {data : List UInt8} {child : RaxNode V}

theorem trimmedFrame_spec (value : Option V) (hne : data ≠ []) (hfits : data.length ≤ raxNodeMaxSize) :
    (trimmedFrame value data).Ok ∧ (trimmedFrame value data).path = data ∧ (trimmedFrame value data).nodes = 1 ∧
      (trimmedFrame value data).around = chain value data := by
  cases data with
  | nil => exact absurd rfl hne
  | cons c data =>
    cases data with
    | nil =>
      refine ⟨.plain value (by simp) (by simp) (by simp) (by simp [InSlots]) (by simp), rfl, rfl, ?_⟩
      funext m
      exact chain_singleton.symm
    | cons d data => exact ⟨.compr value (by simp) hfits, rfl, rfl, rfl⟩

theorem single_sound (value : Option V) (c : UInt8) (hsound : child.Sound) (hlive : child.Live) :
    (RaxNode.plain value [(c, child)]).Sound := by
  refine .plain value (by simp) (by simpa using hsound) (by simpa using hlive) fun i d v hi => ?_
  have hlt := (List.getElem?_eq_some_iff.mp hi).1
  have hslots : 1 ≤ raxLeafSlots := by decide
  rw [List.length_singleton] at hlt
  omega

theorem single_get (value : Option V) (c : UInt8) (child : RaxNode V) :
    (RaxNode.plain value [(c, child)]).get = chain value [c] child.get := by
  have hsplit : edgesOf ([] ++ (c, child) :: []) = Function.update (edgesOf ([] ++ [])) c child.get :=
    edgesOf_split List.not_mem_nil
  rw [chain_singleton]
  show branch value (edgesOf ([] ++ (c, child) :: [])) = _
  rw [hsplit]
  rfl

theorem postfixNode_spec (value : Option V) (hne : data ≠ []) (hfits : data.length ≤ raxNodeMaxSize)
    (hsound : child.Sound) (hlive : child.Live) :
    (postfixNode value data child).Sound ∧ (postfixNode value data child).isNode = true ∧
      (postfixNode value data child).Live ∧ (postfixNode value data child).nodes = child.nodes + 1 ∧
      (postfixNode value data child).get = chain value data child.get := by
  cases data with
  | nil => exact absurd rfl hne
  | cons c data =>
    cases data with
    | nil =>
      have hfill := fill_live (.plain value [] c []) child
      refine ⟨single_sound value c hsound hlive, rfl, hfill, ?_, single_get value c child⟩
      show nodesOf [(c, child)] + 1 = _
      simp [nodesOf]
    | cons d data =>
      exact ⟨.compr value (by simp) hfits hsound hlive, rfl, fill_live (.compr value _) child, rfl, rfl⟩

/-- The node at the letter of a mismatch. -/
theorem splitNode_spec (value : Option V) (d : UInt8) (data : List UInt8) (hfits : data.length ≤ raxNodeMaxSize)
    (hsound : child.Sound) (hlive : child.Live) :
    (RaxNode.plain value [(d, postfixNode none data child)]).Sound ∧
      (RaxNode.plain value [(d, postfixNode none data child)]).nodes
        = child.nodes + 1 + (if data.length = 0 then 0 else 1) ∧
      (RaxNode.plain value [(d, postfixNode none data child)]).get = chain value (d :: data) child.get := by
  rw [single_get]
  show _ ∧ nodesOf [(d, postfixNode none data child)] + 1 = _ ∧ _
  by_cases hnil : data = []
  · subst hnil
    exact ⟨single_sound value d hsound hlive, by simp [nodesOf, postfixNode], rfl⟩
  · obtain ⟨hs, -, hl, hnodes, hget⟩ := postfixNode_spec none hnil hfits hsound hlive
    refine ⟨single_sound value d hs hl, ?_, ?_⟩
    · have hlen : data.length ≠ 0 := fun h => hnil (List.length_eq_zero_iff.mp h)
      rw [if_neg hlen]
      simp [nodesOf, hnodes]
    · rw [hget, ← chain_append (List.cons_ne_nil d []) hnil]
      rfl

end Split

/-! ## Insertion -/

section Insert

variable {r : Tree V} {s : List UInt8} {v old : V} {overwrite : Bool} {t : RaxNode V} {stack : List (Frame V)}

/-- An insertion as an update of the map. -/
structure Inserts (r : Tree V) (s : List UInt8) (v : V) (overwrite : Bool) (out : Tree V × Option V × Bool) :
    Prop where
  rooted : Rooted out.1.head
  get : out.1.head.get
    = if overwrite = true ∨ r.head.get s = none then Function.update r.head.get s (some v) else r.head.get
  old : out.2.1 = r.head.get s
  fresh : out.2.2 = (r.head.get s).isNone
  numele : out.1.numele = r.numele + if (r.head.get s).isNone then 1 else 0
  nodes : out.1.numnodes + r.head.nodes = r.numnodes + out.1.head.nodes

theorem inserts_new {numele numnodes : Nat} (habsent : r.head.get s = none) (hrooted : Rooted t)
    (hget : t.get = Function.update r.head.get s (some v)) (hnumele : numele = r.numele + 1)
    (hnodes : numnodes + r.head.nodes = r.numnodes + t.nodes) :
    Inserts r s v overwrite (⟨t, numele, numnodes⟩, none, true) where
  rooted := hrooted
  get := by
    rw [if_pos (.inr habsent)]
    exact hget
  old := habsent.symm
  fresh := by
    rw [habsent]
    rfl
  numele := by
    rw [habsent]
    exact hnumele
  nodes := hnodes

theorem inserts_old (hold : r.head.get s = some old) (hrooted : Rooted t)
    (hget : t.get = if overwrite = true then Function.update r.head.get s (some v) else r.head.get)
    (hnodes : t.nodes = r.head.nodes) : Inserts r s v overwrite ({ r with head := t }, some old, false) where
  rooted := hrooted
  get := by
    rw [hold]
    simpa using hget
  old := hold.symm
  fresh := by
    rw [hold]
    rfl
  numele := by
    rw [hold]
    rfl
  nodes := by
    show r.numnodes + r.head.nodes = r.numnodes + t.nodes
    rw [hnodes]

/-- What has grown is put back into the tree. -/
theorem Grows.inserts {h : RaxNode V} {rest : List UInt8} {out : Grown V} {numnodes : Nat} (hg : Grows h rest v out)
    (hok : ∀ f ∈ stack, f.Ok) (haround : around stack h.get = r.head.get) (hkey : s = path stack ++ rest)
    (habsent : r.head.get s = none)
    (hnodes : numnodes + r.head.nodes = r.numnodes + stackNodes stack + h.nodes + out.numnodes) :
    Inserts r s v overwrite (⟨plug stack out.node, r.numele + out.numele, numnodes⟩, none, true) := by
  have hhole := hole_around hok
  have hrest : h.get rest = none := by
    rw [← habsent, hkey, ← haround, hhole.at_path]
  apply inserts_new habsent (plug_sound hok hg.sound hg.node fun _ => hg.live)
  · rw [plug_get hok, hg.get, hhole.update, haround, hkey]
  · rw [hg.numele, hrest]
    rfl
  · rw [plug_nodes, hg.nodes, hnodes]
    omega

theorem At.nodes_compr {value : Option V} {data : List UInt8} {child : RaxNode V}
    (hat : At t stack (.compr value data child)) : t.nodes = stackNodes stack + (child.nodes + 1) := by
  rw [← hat.plug, plug_nodes]
  rfl

/-- The key ends at a node, which gets the value. -/
theorem inserts_found {h : RaxNode V} (hroot : Rooted r.head) (hwalk : r.walk s = .node stack h [] 0)
    (hat : At r.head stack h) (hkey : s = path stack) :
    Inserts r s v overwrite (raxGenericInsert r s v overwrite) := by
  have hvalue : h.value = r.head.get s := by
    rw [← raxFind_get hroot, raxFind, hwalk]
    simp
  have hhole := hat.hole
  have hset (value : V) : Rooted (plug stack (h.setValue (some value))) :=
    plug_sound hat.ok (setValue_sound hat.sound _) (by rw [setValue_isNode, hat.node]) fun _ => setValue_live value
  have hupdate (value : V) :
      (plug stack (h.setValue (some value))).get = Function.update r.head.get s (some value) := by
    rw [plug_get hat.ok, setValue_get hat.node, hhole.update, ← hat.get, hkey, List.append_nil]
  have hnodes (value : V) : (plug stack (h.setValue (some value))).nodes = r.head.nodes := by
    rw [plug_nodes, setValue_nodes, ← plug_nodes, hat.plug]
  have hcond : ([] : List UInt8) = [] ∧ (h.iscompr = false ∨ 0 = 0) := ⟨rfl, .inr rfl⟩
  unfold raxGenericInsert
  rw [hwalk]
  dsimp only
  rw [if_pos hcond]
  cases hold : h.value with
  | some old =>
    have hsome : r.head.get s = some old := by rw [← hvalue, hold]
    cases overwrite with
    | true => exact inserts_old hsome (hset v) (hupdate v) (hnodes v)
    | false =>
      -- the old value stays, and so does the tree
      apply inserts_old hsome
      · show Rooted (plug stack h)
        rw [hat.plug]
        exact hroot
      · show (plug stack h).get = _
        rw [hat.plug]
        rfl
      · show (plug stack h).nodes = _
        rw [hat.plug]
  | none =>
    apply inserts_new (by rw [← hvalue, hold]) (hset v) (hupdate v) rfl
    rw [hnodes]

/-- The key ends inside of a compressed node, which is split there. -/
theorem inserts_middle {value : Option V} {front back : List UInt8} {child : RaxNode V} (hroot : Rooted r.head)
    (hwalk : r.walk s = .node stack (.compr value (front ++ back) child) [] front.length)
    (hat : At r.head stack (.compr value (front ++ back) child)) (hfront : front ≠ []) (hback : back ≠ [])
    (hkey : s = path stack ++ front) : Inserts r s v overwrite (raxGenericInsert r s v overwrite) := by
  have habsent : r.head.get s = none := by
    rw [← raxFind_get hroot, raxFind, hwalk]
    simp [RaxNode.iscompr, hfront]
  have hlen : front.length ≠ 0 := fun h => hfront (List.length_eq_zero_iff.mp h)
  cases hat.sound with
  | compr _ hlong hfits hsound hlive =>
  rw [List.length_append] at hfits
  obtain ⟨hfok, hfpath, hfnodes, hfaround⟩ := trimmedFrame_spec value hfront (by omega)
  obtain ⟨hs, hn, hl, hnodes, hget⟩ := postfixNode_spec (some v) hback (by omega) hsound hlive
  have hok : ∀ f ∈ trimmedFrame value front :: stack, f.Ok := List.forall_mem_cons.mpr ⟨hfok, hat.ok⟩
  have haround : around (trimmedFrame value front :: stack) (chain none back child.get) = r.head.get := by
    show around stack ((trimmedFrame value front).around _) = _
    rw [hfaround, ← chain_append hfront hback]
    exact hat.get.symm
  have hpath : path (trimmedFrame value front :: stack) = s := by
    show path stack ++ (trimmedFrame value front).path = s
    rw [hfpath, hkey]
  unfold raxGenericInsert
  rw [hwalk]
  simp only [RaxNode.iscompr, Bool.true_eq_false, hlen, or_self, and_false, if_false, List.take_left, List.drop_left]
  apply inserts_new habsent (plug_sound hok hs hn fun _ => hl)
  · rw [plug_get hok, hget, ← chain_update none, (hole_around hok).update, haround, List.append_nil, hpath]
  · rfl
  · rw [hat.nodes_compr, plug_nodes, hnodes]
    show _ = _ + (stackNodes stack + (trimmedFrame value front).nodes + _)
    rw [hfnodes]
    omega

/-- The key leaves a compressed node at the letter `d`, which gets a node of its own. -/
theorem inserts_mismatch {value : Option V} {front back rest : List UInt8} {c d : UInt8} {child : RaxNode V}
    (hroot : Rooted r.head)
    (hwalk : r.walk s = .node stack (.compr value (front ++ d :: back) child) (c :: rest) front.length)
    (hat : At r.head stack (.compr value (front ++ d :: back) child)) (hne : c ≠ d)
    (hkey : s = path stack ++ (front ++ c :: rest)) : Inserts r s v overwrite (raxGenericInsert r s v overwrite) := by
  have habsent : r.head.get s = none := by
    rw [← raxFind_get hroot, raxFind, hwalk]
    simp
  cases hat.sound with
  | compr _ hlong hfits hsound hlive =>
  rw [List.length_append, List.length_cons] at hfits
  have hletter : (front ++ d :: back).getD front.length 0 = d := by simp
  have hdrop : (front ++ d :: back).drop (front.length + 1) = back := by simp
  have hpostfix : (front ++ d :: back).length - front.length - 1 = back.length := by
    rw [List.length_append, List.length_cons]
    omega
  have hgrow (value : Option V) := insertChars_grows v (c :: rest)
    (splitNode_spec value d back (by omega) hsound hlive).1 (Nat.le_refl _)
    (by simpa using hne)
  unfold raxGenericInsert
  rw [hwalk]
  simp only [reduceCtorEq, false_and, if_false, hletter, hdrop, hpostfix]
  by_cases hfront : front = []
  · -- at its first letter: no part of the node stays in front
    subst hfront
    obtain ⟨-, hnodes, hget⟩ := splitNode_spec value d back (by omega) hsound hlive
    simp only [List.length_nil, if_true]
    apply (hgrow value).inserts hat.ok
    · rw [hget]
      exact hat.get.symm
    · exact hkey
    · exact habsent
    · rw [hat.nodes_compr, hnodes]
      omega
  · -- behind it: the letters in front stay as a trimmed node
    have hlen : front.length ≠ 0 := fun h => hfront (List.length_eq_zero_iff.mp h)
    obtain ⟨-, hnodes, hget⟩ := splitNode_spec (none : Option V) d back (by omega) hsound hlive
    obtain ⟨hfok, hfpath, hfnodes, hfaround⟩ := trimmedFrame_spec value hfront (by omega)
    simp only [hlen, if_false, List.take_left]
    apply (hgrow none).inserts (List.forall_mem_cons.mpr ⟨hfok, hat.ok⟩)
    · show around stack ((trimmedFrame value front).around _) = _
      rw [hfaround, hget, ← chain_append hfront (List.cons_ne_nil d back)]
      exact hat.get.symm
    · show s = path stack ++ (trimmedFrame value front).path ++ c :: rest
      rw [hfpath, hkey, List.append_assoc]
    · exact habsent
    · show _ = _ + (stackNodes stack + (trimmedFrame value front).nodes) + _ + _
      rw [hat.nodes_compr, hnodes, hfnodes]
      omega

/-- A node without a child for the letter grows. -/
theorem inserts_missing {value : Option V} {children : List (UInt8 × RaxNode V)} {c : UInt8} {rest : List UInt8}
    (hroot : Rooted r.head) (hwalk : r.walk s = .node stack (.plain value children) (c :: rest) 0)
    (hat : At r.head stack (.plain value children)) (hc : c ∉ children.map Prod.fst)
    (hkey : s = path stack ++ c :: rest) : Inserts r s v overwrite (raxGenericInsert r s v overwrite) := by
  have habsent : r.head.get s = none := by
    rw [← raxFind_get hroot, raxFind, hwalk]
    simp
  have hgrows := insertChars_grows v (c :: rest) hat.sound (Nat.le_refl _) (by simpa using hc)
  unfold raxGenericInsert
  rw [hwalk]
  simp only [reduceCtorEq, false_and, if_false]
  apply hgrows.inserts hat.ok hat.get.symm hkey habsent
  rw [← hat.plug, plug_nodes]
  omega

/-- A value in a slot is the key's, or becomes a node that grows. -/
theorem inserts_inline {f : Frame V} {rest : List UInt8} (hroot : Rooted r.head)
    (hwalk : r.walk s = .inline stack f old rest) (hok : ∀ g ∈ f :: stack, g.Ok) (hslot : f.slot < raxLeafSlots)
    (hplug : plug (f :: stack) (.inline old) = r.head) (hkey : s = path (f :: stack) ++ rest) :
    Inserts r s v overwrite (raxGenericInsert r s v overwrite) := by
  have hfind := raxFind_get hroot s
  rw [raxFind, hwalk] at hfind
  have hhole := hole_around hok
  have haround : around (f :: stack) (RaxNode.inline old).get = r.head.get := by
    rw [← hplug, plug_get hok]
  have hbefore : r.head.nodes = stackNodes (f :: stack) := by
    rw [← hplug, plug_nodes]
    rfl
  unfold raxGenericInsert
  rw [hwalk]
  cases rest with
  | nil =>
    have hold : r.head.get s = some old := by
      rw [← hfind]
      rfl
    have hf := hok f List.mem_cons_self
    have hstack : ∀ g ∈ stack, g.Ok := fun g hg => hok g (List.mem_cons_of_mem _ hg)
    rw [List.append_nil] at hkey
    apply inserts_old hold
    · exact plug_sound hstack (hf.fill_sound (.inline _) (inline_live _) (.inr hslot)) (fill_isNode f _)
        fun _ => fill_live f _
    · cases overwrite with
      | true =>
        show (plug (f :: stack) (.inline v)).get = Function.update r.head.get s (some v)
        have htwice : (RaxNode.inline v).get = Function.update (RaxNode.inline old).get [] (some v) := by
          rw [inline_get, inline_get, Function.update_idem]
        rw [plug_get hok, htwice, hhole.update, haround, List.append_nil, hkey]
      | false =>
        show (plug (f :: stack) (.inline old)).get = r.head.get
        rw [hplug]
    · show (plug (f :: stack) (.inline _)).nodes = _
      rw [hbefore, plug_nodes]
      rfl
  | cons c rest =>
    have habsent : r.head.get s = none := by
      rw [← hfind]
      simp
    have hvalue : (RaxNode.plain (some old) []).Sound := setValue_sound (h := .new) new_sound (some old)
    have hgrows := insertChars_grows v (c :: rest) hvalue (Nat.le_refl _) (by simp)
    apply hgrows.inserts hok
    · rw [value_node_get]
      exact haround
    · exact hkey
    · exact habsent
    · rw [hbefore]
      show _ = _ + _ + (0 + 1) + _
      omega

/-- An insertion is an update of the map. -/
theorem raxGenericInsert_spec (h : Rooted r.head) (s : List UInt8) (v : V) (overwrite : Bool) :
    Inserts r s v overwrite (raxGenericInsert r s v overwrite) := by
  have hstops := walk_stops h s
  generalize hwalk : r.walk s = walk at hstops
  cases hstops with
  | found hat hkey => exact inserts_found h hwalk hat hkey
  | middle hat hfront hback hkey => exact inserts_middle h hwalk hat hfront hback hkey
  | mismatch hat hne hkey => exact inserts_mismatch h hwalk hat hne hkey
  | missing hat hc hkey => exact inserts_missing h hwalk hat hc hkey
  | inline hok hslot hplug hkey => exact inserts_inline h hwalk hok hslot hplug hkey

end Insert

end Spark.Rax
