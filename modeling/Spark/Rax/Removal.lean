import Mathlib.Data.List.Basic
import Spark.Rax.Insertion

/-!
# Removal from a radix tree

* **`cleanup_placed`** — the nodes without a use are freed.
* **`chainSize_chainCopy`** — the two scans of a chain agree as long as the chain fits one node.
* **`recompress_spec`** — a chain that has become one node is the same map; it fits, as every key does.
* **`raxRemove_spec`** — a removal is an update of the map.
-/

namespace Spark.Rax

open Trie

variable {V : Type}

/-! ## A child is gone -/

section Children

variable {f : Frame V}

theorem chain_none_empty (s : List UInt8) : chain none s (empty : List UInt8 → Option V) = empty := by
  funext k
  unfold chain empty
  simp

theorem removeChild_value (f : Frame V) : f.removeChild.value = f.value := by
  cases f <;> rfl

theorem removeChild_isNode (f : Frame V) : f.removeChild.isNode = true := by
  cases f <;> rfl

theorem removeChild_nodes (f : Frame V) : f.removeChild.nodes = f.nodes := by
  cases f <;> rfl

theorem removeChild_get (h : f.Ok) : f.removeChild.get = f.around empty := by
  cases h with
  | @compr value data hlong hfits =>
    show (RaxNode.plain value []).get = chain value data empty
    rw [value_node_get, chain_empty value data]
  | @plain value left right c hsorted hsound hlive hleft hright =>
    obtain ⟨-, hback, hcross⟩ := List.pairwise_append.mp hsorted
    have hc : c ∉ (left ++ right).map Prod.fst := by
      rw [List.map_append, List.mem_append, not_or]
      constructor
      · intro hmem
        exact absurd (hcross c hmem c List.mem_cons_self) (by simp)
      · intro hmem
        exact absurd ((List.pairwise_cons.mp hback).1 c hmem) (by simp)
    show branch value (edgesOf (left ++ right)) = branch value (Function.update (edgesOf (left ++ right)) c empty)
    rw [← edgesOf_missing hc, Function.update_eq_self]

theorem removeChild_sound (h : f.Ok) : f.removeChild.Sound := by
  cases h with
  | compr value hlong hfits => exact setValue_sound (h := .new) new_sound value
  | @plain value left right c hsorted hsound hlive hleft hright =>
    obtain ⟨hfront, hback, hcross⟩ := List.pairwise_append.mp hsorted
    refine .plain value ?_ hsound hlive fun i d v hi => ?_
    · rw [List.map_append]
      apply List.pairwise_append.mpr
      exact ⟨hfront, (List.pairwise_cons.mp hback).2, fun a ha b hb => hcross a ha b (List.mem_cons_of_mem _ hb)⟩
    · by_cases hbefore : i < left.length
      · rw [List.getElem?_append_left hbefore] at hi
        exact hleft i d v hi
      · rw [List.getElem?_append_right (Nat.le_of_not_lt hbefore)] at hi
        have hlt := hright _ d v hi
        omega

/-- A parent that is freed with its child says nothing without it. -/
theorem passes_empty (hpass : f.passes = true) : f.around empty = empty ∧ f.nodes = 1 := by
  unfold Frame.passes at hpass
  rw [Bool.and_eq_true, Option.isNone_iff_eq_none] at hpass
  cases f with
  | compr value data =>
    obtain ⟨rfl, -⟩ : value = none ∧ _ := hpass
    exact ⟨chain_none_empty data, rfl⟩
  | plain value left c right =>
    obtain ⟨rfl, hsize⟩ : value = none ∧ _ := hpass
    have hlen : left.length + 1 + right.length = 1 := of_decide_eq_true hsize
    have hleft : left = [] := List.length_eq_zero_iff.mp (by omega)
    have hright : right = [] := List.length_eq_zero_iff.mp (by omega)
    subst hleft hright
    refine ⟨?_, rfl⟩
    show branch none (Function.update (fun _ => empty) c empty) = empty
    rw [Function.update_eq_self]
    exact new_get

/-- A parent that is not freed is of some use without its child. -/
theorem removeChild_live (hpass : f.passes = false) : f.removeChild.Live := by
  intro hnew
  cases f with
  | compr value data =>
    have hvalue : value = none := (RaxNode.plain.inj hnew).1
    subst hvalue
    cases hpass
  | plain value left c right =>
    obtain ⟨hvalue, hnil⟩ := RaxNode.plain.inj hnew
    subst hvalue
    obtain ⟨rfl, rfl⟩ := List.append_eq_nil_iff.mp hnil
    cases hpass

theorem removeChild_passes (f : Frame V)
    (h : (decide (f.removeChild.size = 1) && f.value.isNone) = true) : f.removeChild.passes = true := by
  obtain ⟨hsize, hvalue⟩ := Bool.and_eq_true_iff.mp h
  unfold RaxNode.passes
  rw [removeChild_value, hvalue, hsize]
  simp

end Children

/-! ## Nodes that are freed -/

section Cleanup

variable {f : Frame V} {stack : List (Frame V)} {h : RaxNode V} {freed : Nat}

/-- A place in a tree that is the map `m` and had `n` nodes. -/
structure Placed (m : List UInt8 → Option V) (n : Nat) (u : Unlinked V) : Prop where
  place : At (plug u.stack u.h) u.stack u.h
  get : around u.stack u.h.get = m
  nodes : stackNodes u.stack + u.h.nodes + u.freed = n
  passes : u.trycompress = true → u.h.passes = true

/-- The loop stops at the first parent of some use, or at the head. -/
theorem unlink_placed (hok : ∀ g ∈ f :: stack, g.Ok) :
    Placed (around (f :: stack) empty) (stackNodes (f :: stack) + freed) (unlink f stack freed) := by
  induction stack generalizing f freed with
  | nil =>
    have hf := hok f List.mem_cons_self
    refine ⟨⟨fun g hg => absurd hg List.not_mem_nil, removeChild_sound hf, removeChild_isNode f,
      fun hne => absurd rfl hne, rfl⟩, removeChild_get hf, ?_, removeChild_passes f⟩
    show 0 + f.removeChild.nodes + freed = 0 + f.nodes + freed
    rw [removeChild_nodes]
  | cons g stack ih =>
    have hf := hok f List.mem_cons_self
    have hrest : ∀ e ∈ g :: stack, e.Ok := fun e he => hok e (List.mem_cons_of_mem _ he)
    rw [unlink]
    split
    case isTrue hpass =>
      -- the parent is freed as well, and its own parent is looked at
      obtain ⟨haround, hnodes⟩ := passes_empty hpass
      have hplaced : Placed (around (g :: stack) empty) (stackNodes (g :: stack) + (freed + 1))
          (unlink g stack (freed + 1)) := ih hrest
      refine ⟨hplaced.place, ?_, ?_, hplaced.passes⟩
      · rw [hplaced.get]
        show _ = around (g :: stack) (f.around empty)
        rw [haround]
      · rw [hplaced.nodes]
        show _ = stackNodes (g :: stack) + f.nodes + freed
        rw [hnodes]
        omega
    case isFalse hpass =>
      refine ⟨⟨hrest, removeChild_sound hf, removeChild_isNode f,
        fun _ => removeChild_live (Bool.eq_false_iff.mpr hpass), rfl⟩, ?_, ?_, removeChild_passes f⟩
      · show around (g :: stack) f.removeChild.get = around (g :: stack) (f.around empty)
        rw [removeChild_get hf]
      · show stackNodes (g :: stack) + f.removeChild.nodes + freed = stackNodes (g :: stack) + f.nodes + freed
        rw [removeChild_nodes]

/-- A node without a value and children is the new node. -/
theorem new_of_empty (hsound : h.Sound) (hnode : h.isNode = true) (hsize : h.size = 0) (hvalue : h.value = none) :
    h = .new := by
  cases hsound with
  | inline v => cases hnode
  | @compr value data child hlong hfits hs hl =>
    have hzero : data.length = 0 := hsize
    omega
  | @plain value children hsorted hs hl hslots =>
    have hzero : (children.map Prod.fst).length = 0 := hsize
    rw [List.length_map] at hzero
    have hnone : value = none := hvalue
    rw [hnone, List.length_eq_zero_iff.mp hzero]
    rfl

theorem cleanup_placed (hok : ∀ g ∈ stack, g.Ok) (hsound : h.Sound) (hnode : h.isNode = true) :
    Placed (around stack h.get) (stackNodes stack + h.nodes) (cleanup stack h) := by
  unfold cleanup
  split
  case isTrue hempty =>
    have hnew := new_of_empty hsound hnode hempty.1 (Option.isNone_iff_eq_none.mp hempty.2)
    subst hnew
    cases stack with
    | nil =>
      exact ⟨⟨hok, hsound, hnode, fun hne => absurd rfl hne, rfl⟩, rfl, rfl, by simp [raxRemoveCleanup]⟩
    | cons f stack =>
      rw [new_get]
      exact unlink_placed hok
  case isFalse hfull =>
    -- nothing is freed; a single child may have become part of a chain
    have hlive : h.Live := by
      rintro rfl
      exact hfull ⟨rfl, rfl⟩
    refine ⟨⟨hok, hsound, hnode, fun _ => hlive, rfl⟩, rfl, rfl, fun htry => ?_⟩
    obtain ⟨hsize, hvalue⟩ := Bool.and_eq_true_iff.mp htry
    show RaxNode.passes h = true
    unfold RaxNode.passes
    rw [hvalue, hsize]
    simp

end Cleanup

/-! ## Chains -/

section Chains

variable {t h : RaxNode V} {stack : List (Frame V)} {fuel n k : Nat}

theorem fill_passes (f : Frame V) (h : RaxNode V) : (f.fill h).passes = f.passes := by
  cases f with
  | compr value data => rfl
  | plain value left c right =>
    have hsize : (Frame.plain value left c right).size = (RaxNode.plain value (left ++ (c, h) :: right)).size := by
      simp [Frame.size, RaxNode.size, RaxNode.data]
      omega
    show (value.isNone && (false || decide (RaxNode.size _ = 1)))
      = (value.isNone && (false || decide (Frame.size _ = 1)))
    rw [hsize]
    rfl

/-- The first node of a chain is a place in the same tree. -/
theorem chainStart_at (hat : At t stack h) (hpass : h.passes = true) :
    At t (chainStart stack h).1 (chainStart stack h).2 ∧ (chainStart stack h).2.passes = true := by
  induction stack generalizing h with
  | nil => exact ⟨hat, hpass⟩
  | cons f stack ih =>
    rw [chainStart]
    split
    case isTrue hf =>
      have hup : At t stack (f.fill h) := by
        have hf := hat.ok f List.mem_cons_self
        have hsound := hf.fill_sound hat.sound (hat.live (List.cons_ne_nil _ _)) (.inl hat.node)
        have hok : ∀ g ∈ stack, g.Ok := fun g hg => hat.ok g (List.mem_cons_of_mem _ hg)
        exact ⟨hok, hsound, fill_isNode f h, fun _ => fill_live f h, hat.plug⟩
      exact ih hup (by rw [fill_passes, hf])
    case isFalse hf => exact ⟨hat, hpass⟩

/-- A node that only passes on has its letters in front of its child. -/
structure Link (h child : RaxNode V) : Prop where
  last : h.lastChild = some child
  sound : child.Sound
  live : child.Live
  get : h.get = chain none h.data child.get
  nodes : h.nodes = child.nodes + 1
  letters : 1 ≤ h.size
  fits : h.size ≤ raxNodeMaxSize

theorem passes_link (hsound : h.Sound) (hnode : h.isNode = true) (hpass : h.passes = true) :
    ∃ child, Link h child := by
  obtain ⟨hvalue, hsingle⟩ := Bool.and_eq_true_iff.mp hpass
  rw [Option.isNone_iff_eq_none] at hvalue
  cases hsound with
  | inline v => cases hnode
  | @compr value data child hlong hfits hs hl =>
    have hnone : value = none := hvalue
    subst hnone
    have hpos : 1 ≤ data.length := by omega
    exact ⟨child, rfl, hs, hl, rfl, rfl, hpos, hfits⟩
  | @plain value children hsorted hs hl hslots =>
    have hnone : value = none := hvalue
    subst hnone
    have hone : children.length = 1 := by simpa [RaxNode.iscompr, RaxNode.size, RaxNode.data] using hsingle
    obtain ⟨⟨c, child⟩, rfl⟩ := List.length_eq_one_iff.mp hone
    have hmem : (c, child) ∈ [(c, child)] := List.mem_cons_self
    refine ⟨child, rfl, hs _ hmem, hl _ hmem, single_get none c child, ?_, Nat.le_refl 1, ?_⟩
    · show nodesOf [(c, child)] + 1 = _
      simp [nodesOf]
    · show 1 ≤ raxNodeMaxSize
      decide

/-- The second scan reads a chain: its letters, and the child behind them. -/
structure Copied (h : RaxNode V) (out : List UInt8 × RaxNode V × Nat) : Prop where
  get : h.get = chain none out.1 out.2.1.get
  sound : out.2.1.Sound
  live : out.2.1.Live
  nodes : h.nodes = out.2.1.nodes + out.2.2
  letters : h.size + out.2.2 ≤ out.1.length + 1
  first : 1 ≤ h.size
  freed : 1 ≤ out.2.2

theorem Copied.ne_nil {out : List UInt8 × RaxNode V × Nat} (h' : Copied h out) : out.1 ≠ [] := by
  have hletters := h'.letters
  have hfirst := h'.first
  have hfreed := h'.freed
  apply List.ne_nil_of_length_pos
  omega

theorem chainCopy_copied (hsound : h.Sound) (hnode : h.isNode = true) (hpass : h.passes = true)
    (hfuel : h.nodes ≤ fuel) : Copied h (chainCopy fuel h) := by
  induction fuel generalizing h with
  | zero =>
    obtain ⟨child, hlink⟩ := passes_link hsound hnode hpass
    have hpos := hlink.nodes
    omega
  | succ fuel ih =>
    obtain ⟨child, hlink⟩ := passes_link hsound hnode hpass
    simp only [chainCopy, hlink.last]
    split
    case isTrue hend =>
      exact ⟨hlink.get, hlink.sound, hlink.live, hlink.nodes, Nat.le_refl _, hlink.letters, Nat.le_refl 1⟩
    case isFalse hmore =>
      rw [not_or, Bool.not_eq_false, Bool.not_eq_false] at hmore
      have hnodes := hlink.nodes
      have hrest := ih hlink.sound hmore.1 hmore.2 (by omega)
      have hdata : h.data ≠ [] := List.ne_nil_of_length_pos hlink.letters
      have hletters := hrest.letters
      have hfirst := hrest.first
      refine ⟨?_, hrest.sound, hrest.live, ?_, ?_, hlink.letters, Nat.le_add_left 1 _⟩
      · rw [hlink.get, hrest.get, ← chain_append hdata hrest.ne_nil]
      · rw [hnodes, hrest.nodes]
        rfl
      · show h.size + _ ≤ (h.data ++ _).length + 1
        rw [List.length_append]
        show h.data.length + ((chainCopy fuel child).2.2 + 1) ≤ _
        omega

/-- The two scans agree on a chain that fits. -/
theorem chainSize_chainCopy (hsound : h.Sound) (hnode : h.isNode = true) (hpass : h.passes = true)
    (hfuel : h.nodes ≤ fuel) (hfits : k + (chainCopy fuel h).1.length ≤ raxNodeMaxSize) :
    chainSize fuel h (n + 1) (k + h.size) = (n + (chainCopy fuel h).2.2, k + (chainCopy fuel h).1.length) := by
  induction fuel generalizing h n k with
  | zero =>
    obtain ⟨child, hlink⟩ := passes_link hsound hnode hpass
    have hpos := hlink.nodes
    omega
  | succ fuel ih =>
    obtain ⟨child, hlink⟩ := passes_link hsound hnode hpass
    simp only [chainCopy, chainSize, hlink.last] at hfits ⊢
    by_cases hend : child.isNode = false ∨ child.passes = false
    · rw [if_pos hend, if_pos hend]
      rfl
    · rw [if_neg hend] at hfits
      rw [if_neg hend, if_neg hend]
      rw [not_or, Bool.not_eq_false, Bool.not_eq_false] at hend
      have hnodes := hlink.nodes
      have hcopied : Copied child (chainCopy fuel child) :=
        chainCopy_copied hlink.sound hend.1 hend.2 (by omega)
      have hletters := hcopied.letters
      have hfreed := hcopied.freed
      dsimp only at hfits
      rw [List.length_append] at hfits
      have hroom : ¬ k + h.size + child.size > raxNodeMaxSize := by
        have hsize : h.size = h.data.length := rfl
        omega
      rw [if_neg hroom]
      have hrest := ih hlink.sound hend.1 hend.2 (n := n + 1) (k := k + h.size) (by omega) (by
        have hsize : h.size = h.data.length := rfl
        omega)
      rw [hrest]
      dsimp only
      rw [List.length_append]
      show (_, k + h.data.length + _) = (_, _)
      rw [Nat.add_assoc n, Nat.add_comm 1, Nat.add_assoc k]

/-- Behind every node of some use there is a key. -/
theorem exists_key (hsound : h.Sound) (hlive : h.Live) : ∃ k, h.get k ≠ none := by
  induction hsound with
  | inline v => exact ⟨[], by simp [RaxNode.get]⟩
  | @compr value data child hlong hfits hs hl ih =>
    obtain ⟨k, hk⟩ := ih hl
    have hdata : data ≠ [] := by
      rintro rfl
      simp at hlong
    refine ⟨data ++ k, ?_⟩
    show chain value data child.get (data ++ k) ≠ none
    rw [chain_append_key hdata]
    exact hk
  | @plain value children hsorted hs hl hslots ih =>
    cases children with
    | nil =>
      cases value with
      | none => exact absurd rfl hlive
      | some v => exact ⟨[], Option.some_ne_none v⟩
    | cons e children =>
      obtain ⟨c, child⟩ := e
      obtain ⟨k, hk⟩ := ih (c, child) List.mem_cons_self (hl (c, child) List.mem_cons_self)
      refine ⟨c :: k, ?_⟩
      show edgesOf ((c, child) :: children) c k ≠ none
      rw [edgesOf, if_pos rfl]
      exact hk

/-- A chain becomes one node. -/
theorem recompress_spec (hat : At t stack h) (hpass : h.passes = true)
    (hkeys : ∀ k, t.get k ≠ none → k.length ≤ raxNodeMaxSize) :
    ∃ t' freed made, recompress stack h = some (t', freed, made) ∧ Rooted t' ∧ t'.get = t.get ∧
      t'.nodes + freed = t.nodes + made := by
  obtain ⟨hstart, hpass⟩ := chainStart_at hat hpass
  unfold recompress
  generalize chainStart stack h = out at hstart hpass
  obtain ⟨stack, start⟩ := out
  dsimp only at hstart hpass ⊢
  have hcopied := chainCopy_copied hstart.sound hstart.node hpass (Nat.le_refl _)
  generalize hcopy : chainCopy start.nodes start = copied at hcopied
  obtain ⟨letters, child, freed⟩ := copied
  -- the letters of the chain are part of a key
  have hfits : letters.length ≤ raxNodeMaxSize := by
    obtain ⟨k, hk⟩ := exists_key hcopied.sound hcopied.live
    have hkey : t.get (path stack ++ (letters ++ k)) ≠ none := by
      rw [hstart.get_path, hcopied.get, chain_append_key hcopied.ne_nil]
      exact hk
    have hle := hkeys _ hkey
    rw [List.length_append, List.length_append] at hle
    omega
  have hscan := chainSize_chainCopy (n := 0) (k := 0) hstart.sound hstart.node hpass (Nat.le_refl _) (by
    rw [hcopy]
    dsimp only
    omega)
  rw [Nat.zero_add, Nat.zero_add, hcopy] at hscan
  rw [hscan]
  dsimp only
  split
  case isTrue hlong =>
    have hshort : ¬ letters.length > 0 + letters.length := by omega
    rw [if_neg hshort]
    have hletters : 2 ≤ letters.length := by
      have hcount : start.size + freed ≤ letters.length + 1 := hcopied.letters
      have hfirst := hcopied.first
      omega
    have hnew : (RaxNode.compr none letters child).Sound := .compr none hletters hfits hcopied.sound hcopied.live
    refine ⟨_, _, _, rfl, plug_sound hstart.ok hnew rfl fun _ => fill_live (.compr none letters) child, ?_, ?_⟩
    · rw [plug_get hstart.ok, hstart.get, hcopied.get]
      rfl
    · have hnodes : start.nodes = child.nodes + freed := hcopied.nodes
      rw [← hstart.plug, plug_nodes, plug_nodes, hnodes]
      show _ + (child.nodes + 1) + _ = _
      omega
  case isFalse hshort =>
    refine ⟨_, _, _, rfl, plug_sound hstart.ok hstart.sound hstart.node hstart.live, ?_, ?_⟩
    · rw [hstart.plug]
    · rw [hstart.plug]

end Chains

/-! ## Removal -/

section Remove

variable {r : Tree V} {s : List UInt8} {m : List UInt8 → Option V} {u : Unlinked V}

theorem postdelete_spec (hu : Placed m r.numnodes u) (hkeys : ∀ k, m k ≠ none → k.length ≤ raxNodeMaxSize) :
    ∃ r', postdelete r u = some r' ∧ Rooted r'.head ∧ r'.head.get = m ∧ r'.numele = r.numele - 1 ∧
      r'.numnodes = r'.head.nodes := by
  have hplug : (plug u.stack u.h).get = m := by rw [plug_get hu.place.ok, hu.get]
  have hnodes : r.numnodes - u.freed = (plug u.stack u.h).nodes := by
    rw [plug_nodes, ← hu.nodes]
    omega
  unfold postdelete
  dsimp only
  split
  case isTrue htry =>
    obtain ⟨t', freed, made, hout, hrooted, hget, hcount⟩ :=
      recompress_spec hu.place (hu.passes htry) (by rw [hplug]; exact hkeys)
    rw [hout]
    refine ⟨_, rfl, hrooted, hget.trans hplug, rfl, ?_⟩
    show r.numnodes - u.freed + made - freed = t'.nodes
    rw [hnodes]
    omega
  case isFalse htry =>
    refine ⟨_, rfl, plug_sound hu.place.ok hu.place.sound hu.place.node hu.place.live, hplug, rfl, hnodes⟩

/-- The tree without a key. -/
structure Removes (r : Tree V) (s : List UInt8) (r' : Tree V) : Prop where
  rooted : Rooted r'.head
  get : r'.head.get = Function.update r.head.get s none
  numele : r'.numele = r.numele - if (r.head.get s).isNone then 0 else 1
  numnodes : r'.numnodes = r'.head.nodes

/-- Nothing is there to be removed. -/
theorem removes_absent (hroot : Rooted r.head) (hnodes : r.numnodes = r.head.nodes) (hnone : r.head.get s = none) :
    ∃ r', some (r, none) = some (r', r.head.get s) ∧ Removes r s r' := by
  refine ⟨r, by rw [hnone], hroot, ?_, ?_, hnodes⟩
  · rw [← hnone, Function.update_eq_self]
  · rw [hnone]
    rfl

/-- A value is gone, and the tree is cleaned up behind it. -/
theorem removes_present {v : V} (hkeys : ∀ k, k ≠ s → r.head.get k ≠ none → k.length ≤ raxNodeMaxSize)
    (hsome : r.head.get s = some v) (hu : Placed (Function.update r.head.get s none) r.numnodes u) :
    ∃ r', (postdelete r u).map (fun r => (r, some v)) = some (r', r.head.get s) ∧ Removes r s r' := by
  have hless : ∀ k, Function.update r.head.get s none k ≠ none → k.length ≤ raxNodeMaxSize := by
    intro k hk
    by_cases hs : k = s
    · rw [hs, Function.update_self] at hk
      exact absurd rfl hk
    · rw [Function.update_of_ne hs] at hk
      exact hkeys k hs hk
  obtain ⟨r', hout, hrooted, hget, hnumele, hcount⟩ := postdelete_spec hu hless
  refine ⟨r', by rw [hout, hsome]; rfl, hrooted, hget, ?_, hcount⟩
  rw [hsome]
  exact hnumele

/-- A node that loses its value stays a node. -/
theorem cleanup_found {stack : List (Frame V)} {h : RaxNode V} (hnodes : r.numnodes = r.head.nodes)
    (hat : At r.head stack h) (hkey : s = path stack) :
    Placed (Function.update r.head.get s none) r.numnodes (cleanup stack (h.setValue none)) := by
  have hplaced := cleanup_placed hat.ok (setValue_sound hat.sound none) (by rw [setValue_isNode, hat.node])
  have hget : around stack (h.setValue none).get = Function.update r.head.get s none := by
    rw [setValue_get hat.node, hat.hole.update, ← hat.get, hkey, List.append_nil]
  have hcount : stackNodes stack + (h.setValue none).nodes = r.numnodes := by
    rw [setValue_nodes, ← plug_nodes, hat.plug, hnodes]
  rw [hget, hcount] at hplaced
  exact hplaced

/-- A value in a slot is gone with its letter. -/
theorem cleanup_inline {stack : List (Frame V)} {f : Frame V} {v : V} (hnodes : r.numnodes = r.head.nodes)
    (hok : ∀ g ∈ f :: stack, g.Ok) (hplug : plug (f :: stack) (.inline v) = r.head) (hkey : s = path (f :: stack)) :
    Placed (Function.update r.head.get s none) r.numnodes (cleanup stack f.removeChild) := by
  have hf := hok f List.mem_cons_self
  have hplaced := cleanup_placed (fun g hg => hok g (List.mem_cons_of_mem _ hg)) (removeChild_sound hf)
    (removeChild_isNode f)
  have hget : around stack f.removeChild.get = Function.update r.head.get s none := by
    have hgone : (empty : List UInt8 → Option V) = Function.update (RaxNode.inline v).get [] none := by
      rw [inline_get, Function.update_idem]
      exact (Function.update_eq_self [] empty).symm
    rw [removeChild_get hf]
    show around (f :: stack) empty = _
    rw [hgone, (hole_around hok).update, ← plug_get hok, hplug, hkey, List.append_nil]
  have hcount : stackNodes stack + f.removeChild.nodes = r.numnodes := by
    rw [hnodes, ← hplug, plug_nodes, removeChild_nodes]
    rfl
  rw [hget, hcount] at hplaced
  exact hplaced

/-- A removal is an update of the map, where no key that stays is longer than a node. -/
theorem raxRemove_spec (h : Rooted r.head) (hnodes : r.numnodes = r.head.nodes)
    (s : List UInt8) (hkeys : ∀ k, k ≠ s → r.head.get k ≠ none → k.length ≤ raxNodeMaxSize) :
    ∃ r', raxRemove r s = some (r', r.head.get s) ∧ Removes r s r' := by
  have hfind := raxFind_get h s
  unfold raxFind at hfind
  unfold raxRemove
  have hstops := walk_stops h s
  generalize r.walk s = walk at hstops hfind
  cases hstops with
  | @found stack node hat hkey =>
    have hvalue : node.value = r.head.get s := by simpa using hfind
    dsimp only
    cases hold : node.value with
    | none =>
      rw [if_pos (.inr (.inr rfl))]
      exact removes_absent h hnodes (by rw [← hvalue, hold])
    | some v =>
      rw [if_neg (by simp)]
      exact removes_present hkeys (by rw [← hvalue, hold]) (cleanup_found hnodes hat hkey)
  | @middle stack value front back child hat hfront hback hkey =>
    have hlen : front.length ≠ 0 := fun h => hfront (List.length_eq_zero_iff.mp h)
    dsimp only
    rw [if_pos (.inr (.inl ⟨rfl, hlen⟩))]
    apply removes_absent h hnodes
    rw [← hfind]
    simp [RaxNode.iscompr, hfront]
  | @mismatch stack value front back rest c d child hat hne hkey =>
    dsimp only
    rw [if_pos (.inl (List.cons_ne_nil c rest))]
    apply removes_absent h hnodes
    rw [← hfind]
    simp
  | @missing stack value children c rest hat hc hkey =>
    dsimp only
    rw [if_pos (.inl (List.cons_ne_nil c rest))]
    apply removes_absent h hnodes
    rw [← hfind]
    simp
  | @inline stack f v rest hok hslot hplug hkey =>
    dsimp only
    cases rest with
    | cons c rest =>
      rw [if_pos (List.cons_ne_nil c rest)]
      apply removes_absent h hnodes
      rw [← hfind]
      simp
    | nil =>
      rw [if_neg (not_not.mpr rfl)]
      rw [List.append_nil] at hkey
      have hsome : r.head.get s = some v := by
        rw [← hfind]
        rfl
      exact removes_present hkeys hsome (cleanup_inline hnodes hok hplug hkey)

end Remove

end Spark.Rax
