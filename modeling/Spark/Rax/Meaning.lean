import Mathlib.Data.List.Pairwise
import Spark.Lib.Trie
import Spark.Rax.Tree

/-!
# What a radix tree holds

* **`RaxNode.get`** — the map that a tree is.
* **`Sound`** — the trees the functions build: letters in order, strings that fit their nodes, values only in the
  slots that can hold them, and no node without a use.
* **`Frame.Ok`**, **`plug_get`** — the same of a tree with a hole, which stands behind a string.
* **`raxLowWalk_stops`** — how a walk stops.
* **`raxFind_get`** — a lookup reads the map.
-/

namespace Spark.Rax

open Trie

variable {V : Type}

/-! ## The map -/

mutual
/-- The values of a tree. -/
def RaxNode.get : RaxNode V → List UInt8 → Option V
  | .inline v => chain (some v) [] empty
  | .compr value data child => chain value data child.get
  | .plain value children => branch value (edgesOf children)
def edgesOf : List (UInt8 × RaxNode V) → UInt8 → List UInt8 → Option V
  | [], _ => empty
  | (v, child) :: rest, c => if v = c then child.get else edgesOf rest c
end

section Edges

variable {left right children : List (UInt8 × RaxNode V)} {t : RaxNode V} {c : UInt8}

theorem edgesOf_missing (hc : c ∉ children.map Prod.fst) : edgesOf children c = empty := by
  induction children with
  | nil => rfl
  | cons e children ih =>
    obtain ⟨v, child⟩ := e
    rw [List.map_cons, List.mem_cons, not_or] at hc
    rw [edgesOf, if_neg fun h => hc.1 h.symm, ih hc.2]

/-- A child is the map behind its letter. -/
theorem edgesOf_split (hc : c ∉ left.map Prod.fst) :
    edgesOf (left ++ (c, t) :: right) = Function.update (edgesOf (left ++ right)) c t.get := by
  funext d
  induction left with
  | nil =>
    rw [List.nil_append, List.nil_append, edgesOf]
    by_cases hd : c = d
    · rw [if_pos hd, hd, Function.update_self]
    · rw [if_neg hd, Function.update_of_ne fun h => hd h.symm]
  | cons e left ih =>
    obtain ⟨v, child⟩ := e
    rw [List.map_cons, List.mem_cons, not_or] at hc
    rw [List.cons_append, List.cons_append, edgesOf, ih hc.2]
    by_cases hv : v = d
    · have hd : d ≠ c := by
        rintro rfl
        exact hc.1 hv.symm
      rw [if_pos hv, Function.update_of_ne hd, edgesOf, if_pos hv]
    · rw [if_neg hv]
      by_cases hd : d = c
      · rw [hd, Function.update_self, Function.update_self]
      · rw [Function.update_of_ne hd, Function.update_of_ne hd, edgesOf, if_neg hv]

end Edges

/-! ## Frames -/

namespace Frame

/-- The letters between a parent and its child. -/
def path : Frame V → List UInt8
  | .compr _ data => data
  | .plain _ _ c _ => [c]

/-- The map around the child. -/
def around : Frame V → (List UInt8 → Option V) → List UInt8 → Option V
  | .compr value data, m => chain value data m
  | .plain value left c right, m => branch value (Function.update (edgesOf (left ++ right)) c m)

/-- The slot of the child. -/
def slot : Frame V → Nat
  | .compr _ _ => 0
  | .plain _ left _ _ => left.length

end Frame

def path : List (Frame V) → List UInt8
  | [] => []
  | f :: stack => path stack ++ f.path

def around : List (Frame V) → (List UInt8 → Option V) → List UInt8 → Option V
  | [], m => m
  | f :: stack, m => around stack (f.around m)

/-! ## Soundness -/

/-- A node of some use: a key, or one with children. -/
def RaxNode.Live (t : RaxNode V) : Prop := t ≠ .new

/-- Values stand only in the slots that the bitmap knows. -/
def InSlots (children : List (UInt8 × RaxNode V)) : Prop :=
  ∀ i c v, children[i]? = some (c, .inline v) → i < raxLeafSlots

inductive RaxNode.Sound : RaxNode V → Prop where
  | inline (v : V) : RaxNode.Sound (.inline v)
  | compr (value : Option V) {data : List UInt8} {child : RaxNode V} (hlong : 2 ≤ data.length)
      (hfits : data.length ≤ raxNodeMaxSize) (hsound : RaxNode.Sound child) (hlive : child.Live) :
      RaxNode.Sound (.compr value data child)
  | plain (value : Option V) {children : List (UInt8 × RaxNode V)}
      (hsorted : (children.map Prod.fst).Pairwise (· < ·)) (hsound : ∀ e ∈ children, RaxNode.Sound e.2)
      (hlive : ∀ e ∈ children, e.2.Live) (hslots : InSlots children) : RaxNode.Sound (.plain value children)

/-- A frame whose hole can be filled again. -/
inductive Frame.Ok : Frame V → Prop where
  | compr (value : Option V) {data : List UInt8} (hlong : 2 ≤ data.length) (hfits : data.length ≤ raxNodeMaxSize) :
      Frame.Ok (.compr value data)
  | plain (value : Option V) {left right : List (UInt8 × RaxNode V)} {c : UInt8}
      (hsorted : (left.map Prod.fst ++ c :: right.map Prod.fst).Pairwise (· < ·))
      (hsound : ∀ e ∈ left ++ right, e.2.Sound) (hlive : ∀ e ∈ left ++ right, e.2.Live) (hleft : InSlots left)
      (hright : ∀ i d v, right[i]? = some (d, .inline v) → left.length + 1 + i < raxLeafSlots) :
      Frame.Ok (.plain value left c right)

section Frames

variable {f : Frame V} {t : RaxNode V} {stack : List (Frame V)}

theorem inline_live (v : V) : (RaxNode.inline v).Live := by
  intro h
  cases h

theorem fill_live (f : Frame V) (t : RaxNode V) : (f.fill t).Live := by
  cases f with
  | compr value data =>
    intro h
    cases h
  | plain value left c right =>
    intro h
    have hnil : left ++ (c, t) :: right = [] := (RaxNode.plain.inj h).2
    simp at hnil

theorem fill_isNode (f : Frame V) (t : RaxNode V) : (f.fill t).isNode = true := by
  cases f with
  | compr value data => rfl
  | plain value left c right => rfl

theorem Frame.Ok.get_fill (h : f.Ok) (t : RaxNode V) : (f.fill t).get = f.around t.get := by
  cases h with
  | compr value hlong hfits => rfl
  | @plain value left right c hsorted hsound hlive hleft hright =>
    have hc : c ∉ left.map Prod.fst := by
      intro hmem
      exact absurd ((List.pairwise_append.mp hsorted).2.2 c hmem c List.mem_cons_self) (by simp)
    show branch value (edgesOf (left ++ (c, t) :: right)) = _
    rw [edgesOf_split hc]
    rfl

theorem Frame.Ok.hole (h : f.Ok) : Hole f.around f.path := by
  cases h with
  | compr value hlong hfits =>
    apply hole_chain
    rintro rfl
    simp at hlong
  | plain value hsorted hsound hlive hleft hright => exact hole_branch value _ _

/-- A filled frame is sound; a value goes into the slots of the bitmap only. -/
theorem Frame.Ok.fill_sound (h : f.Ok) (hsound : t.Sound) (hlive : t.Live)
    (hslot : t.isNode = true ∨ f.slot < raxLeafSlots) : (f.fill t).Sound := by
  cases h with
  | compr value hlong hfits => exact .compr value hlong hfits hsound hlive
  | @plain value left right c hsorted hsounds hlives hleft hright =>
    refine .plain value ?_ (fun e he => ?_) (fun e he => ?_) fun i d v hi => ?_
    · rw [List.map_append, List.map_cons]
      exact hsorted
    · rcases List.mem_append.mp he with hl | hr
      · exact hsounds e (List.mem_append_left _ hl)
      · rcases List.mem_cons.mp hr with rfl | hr
        · exact hsound
        · exact hsounds e (List.mem_append_right _ hr)
    · rcases List.mem_append.mp he with hl | hr
      · exact hlives e (List.mem_append_left _ hl)
      · rcases List.mem_cons.mp hr with rfl | hr
        · exact hlive
        · exact hlives e (List.mem_append_right _ hr)
    · by_cases hbefore : i < left.length
      · rw [List.getElem?_append_left hbefore] at hi
        exact hleft i d v hi
      · rw [List.getElem?_append_right (Nat.le_of_not_lt hbefore)] at hi
        cases hk : i - left.length with
        | zero =>
          rw [hk, List.getElem?_cons_zero] at hi
          have hvalue : t = .inline v := congrArg Prod.snd (Option.some.inj hi)
          rcases hslot with hnode | hslot
          · rw [hvalue] at hnode
            cases hnode
          · have hslot' : left.length < raxLeafSlots := hslot
            omega
        | succ k =>
          rw [hk, List.getElem?_cons_succ] at hi
          have hlt := hright k d v hi
          omega

theorem getElem?_split {left right : List (UInt8 × RaxNode V)} {c : UInt8} {i : Nat} :
    (left ++ (c, t) :: right)[left.length + 1 + i]? = right[i]? := by
  rw [List.getElem?_append_right (by omega), show left.length + 1 + i - left.length = i + 1 by omega,
    List.getElem?_cons_succ]

/-- The frame around a child of a sound node. -/
theorem RaxNode.Sound.frame {value : Option V} {left right : List (UInt8 × RaxNode V)} {c : UInt8}
    (h : (RaxNode.plain value (left ++ (c, t) :: right)).Sound) :
    (Frame.plain value left c right).Ok ∧ t.Sound ∧ t.Live ∧ (t.isNode = true ∨ left.length < raxLeafSlots) := by
  cases h with
  | plain _ hsorted hsound hlive hslots =>
    have hmem : (c, t) ∈ left ++ (c, t) :: right := by simp
    refine ⟨?_, hsound _ hmem, hlive _ hmem, ?_⟩
    · refine .plain value ?_ (fun e he => ?_) (fun e he => ?_) (fun i d v hi => ?_) fun i d v hi => ?_
      · rw [List.map_append, List.map_cons] at hsorted
        exact hsorted
      · exact hsound e (by simp at he ⊢; tauto)
      · exact hlive e (by simp at he ⊢; tauto)
      · apply hslots i d v
        have hlt : i < left.length := (List.getElem?_eq_some_iff.mp hi).1
        rw [List.getElem?_append_left hlt]
        exact hi
      · apply hslots (left.length + 1 + i) d v
        rw [getElem?_split]
        exact hi
    · cases t with
      | inline v =>
        right
        apply hslots left.length c v
        rw [List.getElem?_append_right (Nat.le_refl _), Nat.sub_self]
        rfl
      | compr value data child => exact .inl rfl
      | plain value children => exact .inl rfl

end Frames

/-! ## Stacks -/

section Stacks

variable {t h : RaxNode V} {stack : List (Frame V)}

theorem plug_get (hok : ∀ f ∈ stack, f.Ok) (h : RaxNode V) : (plug stack h).get = around stack h.get := by
  induction stack generalizing h with
  | nil => rfl
  | cons f stack ih =>
    show (plug stack (f.fill h)).get = around stack (f.around h.get)
    rw [ih (fun g hg => hok g (List.mem_cons_of_mem _ hg)), (hok f List.mem_cons_self).get_fill]

theorem hole_around (hok : ∀ f ∈ stack, f.Ok) : Hole (around stack) (path stack) := by
  induction stack with
  | nil => exact Hole.nil
  | cons f stack ih =>
    have hrest := ih fun g hg => hok g (List.mem_cons_of_mem _ hg)
    exact hrest.comp (hok f List.mem_cons_self).hole

/-- A sound node behind a stack is a sound tree. -/
theorem plug_sound (hok : ∀ f ∈ stack, f.Ok) (hsound : h.Sound) (hnode : h.isNode = true)
    (hlive : stack ≠ [] → h.Live) : (plug stack h).Sound ∧ (plug stack h).isNode = true := by
  induction stack generalizing h with
  | nil => exact ⟨hsound, hnode⟩
  | cons f stack ih =>
    have hfill := (hok f List.mem_cons_self).fill_sound hsound (hlive (List.cons_ne_nil _ _)) (.inl hnode)
    exact ih (fun g hg => hok g (List.mem_cons_of_mem _ hg)) hfill (fill_isNode f h) fun _ => fill_live f h

/-- The node `h` stands in the tree `t`, behind a stack of its parents. -/
structure At (t : RaxNode V) (stack : List (Frame V)) (h : RaxNode V) : Prop where
  ok : ∀ f ∈ stack, f.Ok
  sound : h.Sound
  node : h.isNode = true
  live : stack ≠ [] → h.Live
  plug : plug stack h = t

theorem At.get (hat : At t stack h) : t.get = around stack h.get := by
  rw [← hat.plug]
  exact plug_get hat.ok h

theorem At.hole (hat : At t stack h) : Hole (around stack) (path stack) := hole_around hat.ok

/-- What a node in a tree says about a key that passes it. -/
theorem At.get_path (hat : At t stack h) (k : List UInt8) : t.get (path stack ++ k) = h.get k := by
  rw [hat.get, hat.hole.at_path]

end Stacks

/-! ## Walks -/

section Walks

variable {t h : RaxNode V} {stack : List (Frame V)} {key : List UInt8}

/-- How a walk for `key` stops in the tree `t`. -/
inductive Stops (t : RaxNode V) (key : List UInt8) : Walk V → Prop where
  | found {stack : List (Frame V)} {h : RaxNode V} (hat : At t stack h) (hkey : key = path stack) :
      Stops t key (.node stack h [] 0)
  | middle {stack : List (Frame V)} {value : Option V} {front back : List UInt8} {child : RaxNode V}
      (hat : At t stack (.compr value (front ++ back) child)) (hfront : front ≠ []) (hback : back ≠ [])
      (hkey : key = path stack ++ front) :
      Stops t key (.node stack (.compr value (front ++ back) child) [] front.length)
  | mismatch {stack : List (Frame V)} {value : Option V} {front back rest : List UInt8} {c d : UInt8}
      {child : RaxNode V} (hat : At t stack (.compr value (front ++ d :: back) child)) (hne : c ≠ d)
      (hkey : key = path stack ++ (front ++ c :: rest)) :
      Stops t key (.node stack (.compr value (front ++ d :: back) child) (c :: rest) front.length)
  | missing {stack : List (Frame V)} {value : Option V} {children : List (UInt8 × RaxNode V)} {c : UInt8}
      {rest : List UInt8} (hat : At t stack (.plain value children)) (hc : c ∉ children.map Prod.fst)
      (hkey : key = path stack ++ c :: rest) : Stops t key (.node stack (.plain value children) (c :: rest) 0)
  | inline {stack : List (Frame V)} {f : Frame V} {v : V} {rest : List UInt8} (hok : ∀ g ∈ f :: stack, g.Ok)
      (hslot : f.slot < raxLeafSlots) (hplug : plug (f :: stack) (.inline v) = t)
      (hkey : key = path (f :: stack) ++ rest) : Stops t key (.inline stack f v rest)

theorem matchLen_split (data s : List UInt8) :
    ∃ front back back', data = front ++ back ∧ s = front ++ back' ∧ matchLen data s = front.length ∧
      (back = [] ∨ back' = [] ∨ ∃ d b c b', back = d :: b ∧ back' = c :: b' ∧ c ≠ d) := by
  induction data generalizing s with
  | nil => exact ⟨[], [], s, rfl, rfl, by cases s <;> rfl, .inl rfl⟩
  | cons v data ih =>
    cases s with
    | nil => exact ⟨[], v :: data, [], rfl, rfl, rfl, .inr (.inl rfl)⟩
    | cons c s =>
      rw [matchLen]
      by_cases hv : v = c
      · obtain ⟨front, back, back', rfl, rfl, hlen, hcases⟩ := ih s
        subst hv
        rw [if_pos rfl, hlen]
        exact ⟨v :: front, back, back', rfl, rfl, rfl, hcases⟩
      · rw [if_neg hv]
        exact ⟨[], v :: data, c :: s, rfl, rfl, rfl, .inr (.inr ⟨v, data, c, s, rfl, rfl, fun h => hv h.symm⟩)⟩

theorem findChild_none {children : List (UInt8 × RaxNode V)} {c : UInt8} (hfind : findChild c children = none) :
    c ∉ children.map Prod.fst := by
  induction children with
  | nil => exact List.not_mem_nil
  | cons e children ih =>
    obtain ⟨v, child⟩ := e
    rw [findChild] at hfind
    split at hfind
    case isTrue => cases hfind
    case isFalse hv =>
      rw [List.map_cons, List.mem_cons, not_or]
      exact ⟨fun h => hv h.symm, ih (Option.map_eq_none_iff.mp hfind)⟩

theorem findChild_some {children left right : List (UInt8 × RaxNode V)} {c : UInt8}
    (hfind : findChild c children = some (left, t, right)) : children = left ++ (c, t) :: right := by
  induction children generalizing left with
  | nil => cases hfind
  | cons e children ih =>
    obtain ⟨v, child⟩ := e
    rw [findChild] at hfind
    split at hfind
    case isTrue hv =>
      cases hfind
      rw [hv]
      rfl
    case isFalse hv =>
      obtain ⟨⟨l, t', r⟩, hrest, heq⟩ := Option.map_eq_some_iff.mp hfind
      cases heq
      rw [ih hrest]
      rfl

/-- A step down from a node that is in the tree. -/
theorem At.down {f : Frame V} {child : RaxNode V} (hat : At t stack (f.fill child)) (hf : f.Ok) (hsound : child.Sound)
    (hnode : child.isNode = true) (hlive : child.Live) : At t (f :: stack) child where
  ok g hg := by
    rcases List.mem_cons.mp hg with rfl | hg
    · exact hf
    · exact hat.ok g hg
  sound := hsound
  node := hnode
  live _ := hlive
  plug := hat.plug

theorem raxLowWalk_stops {fuel : Nat} {rest : List UInt8} (hat : At t stack h) (hfuel : rest.length ≤ fuel)
    (hkey : key = path stack ++ rest) : Stops t key (raxLowWalk fuel stack h rest) := by
  induction fuel generalizing stack h rest with
  | zero =>
    have hnil : rest = [] := List.length_eq_zero_iff.mp (Nat.le_zero.mp hfuel)
    subst hnil
    rw [List.append_nil] at hkey
    exact .found hat hkey
  | succ fuel ih =>
    cases rest with
    | nil =>
      rw [List.append_nil] at hkey
      cases h <;> exact .found hat hkey
    | cons c rest =>
      rw [List.length_cons] at hfuel
      cases h with
      | inline v => exact absurd hat.node (by simp [RaxNode.isNode])
      | compr value data child =>
        obtain ⟨front, back, back', hdata, hrest, hlen, hcases⟩ := matchLen_split data (c :: rest)
        subst hdata
        have hdrop : (c :: rest).drop front.length = back' := by rw [hrest, List.drop_left]
        rw [hrest] at hkey
        cases hat.sound with
        | compr _ hlong hfits hsound hlive =>
        by_cases hback : back = []
        · -- the whole of the string is there
          subst hback
          rw [List.append_nil] at hat hlong hfits hlen ⊢
          have hf : (Frame.compr value front).Ok := .compr value hlong hfits
          have hshort : back'.length ≤ fuel := by
            have hlength := congrArg List.length hrest
            rw [List.length_cons, List.length_append] at hlength
            omega
          have hkey' : key = path (.compr value front :: stack) ++ back' := by
            rw [hkey, ← List.append_assoc]
            rfl
          cases child with
          | inline v =>
            have hslot : (Frame.compr value front).slot < raxLeafSlots := by
              show 0 < 13
              decide
            simp only [raxLowWalk, hlen, hdrop, ne_eq, not_true_eq_false, if_false]
            refine .inline (fun g hg => ?_) hslot hat.plug hkey'
            rcases List.mem_cons.mp hg with rfl | hg
            · exact hf
            · exact hat.ok g hg
          | compr value' data' child' =>
            simp only [raxLowWalk, hlen, hdrop, ne_eq, not_true_eq_false, if_false]
            exact ih (hat.down hf hsound rfl hlive) hshort hkey'
          | plain value' children =>
            simp only [raxLowWalk, hlen, hdrop, ne_eq, not_true_eq_false, if_false]
            exact ih (hat.down hf hsound rfl hlive) hshort hkey'
        · -- the walk stops inside of the node: the key ends there, or the letters differ
          have hne : front.length ≠ (front ++ back).length := by
            rw [List.length_append]
            have hpos := List.length_pos_of_ne_nil hback
            omega
          have hwalk : raxLowWalk (fuel + 1) stack (.compr value (front ++ back) child) (c :: rest)
              = .node stack (.compr value (front ++ back) child) back' front.length := by
            cases child <;> simp only [raxLowWalk, hlen, hdrop, hne, ne_eq, not_false_eq_true, if_true]
          rw [hwalk]
          rcases hcases with hnil | hnil | ⟨d, b, c', b', rfl, rfl, hcd⟩
          · exact absurd hnil hback
          · subst hnil
            rw [List.append_nil] at hkey hrest
            have hfront : front ≠ [] := by
              rw [← hrest]
              exact List.cons_ne_nil _ _
            exact .middle hat hfront hback hkey
          · exact .mismatch hat hcd hkey
      | plain value children =>
        -- a letter of a plain node: no child, a value in a slot, or a node to go on from
        rw [raxLowWalk]
        cases hfind : findChild c children with
        | none => exact .missing hat (findChild_none hfind) hkey
        | some found =>
          obtain ⟨left, child, right⟩ := found
          have hsplit := findChild_some hfind
          subst hsplit
          obtain ⟨hf, hsound, hlive, hslot⟩ := hat.sound.frame
          have hkey' : key = path (.plain value left c right :: stack) ++ rest := by
            rw [hkey]
            show _ = (path stack ++ [c]) ++ rest
            rw [List.append_assoc]
            rfl
          cases child with
          | inline v =>
            rcases hslot with hnode | hslot
            · exact absurd hnode (by simp [RaxNode.isNode])
            · refine .inline (fun g hg => ?_) hslot hat.plug hkey'
              rcases List.mem_cons.mp hg with rfl | hg
              · exact hf
              · exact hat.ok g hg
          | compr value' data' child' =>
            exact ih (hat.down hf hsound rfl hlive) (by omega) hkey'
          | plain value' children' =>
            exact ih (hat.down hf hsound rfl hlive) (by omega) hkey'

end Walks

/-! ## Lookup -/

section Lookup

variable {r : Tree V}

theorem value_get (h : RaxNode V) : h.get [] = h.value := by
  cases h <;> rfl

/-- A sound tree has a node for its head. -/
def Rooted (t : RaxNode V) : Prop := t.Sound ∧ t.isNode = true

theorem walk_stops (h : Rooted r.head) (s : List UInt8) : Stops r.head s (r.walk s) := by
  have hat : At r.head [] r.head :=
    ⟨fun f hf => absurd hf List.not_mem_nil, h.1, h.2, fun hne => absurd rfl hne, rfl⟩
  exact raxLowWalk_stops hat (Nat.le_refl _) rfl

/-- A lookup reads the map. -/
theorem raxFind_get (h : Rooted r.head) (s : List UInt8) : raxFind r s = r.head.get s := by
  unfold raxFind
  have hstops := walk_stops h s
  generalize r.walk s = walk at hstops
  cases hstops with
  | @found stack h hat hkey =>
    rw [hkey, ← List.append_nil (path stack), hat.get_path, value_get]
    simp
  | @middle stack value front back child hat hfront hback hkey =>
    have hoff : (RaxNode.compr value (front ++ back) child).get front = none := by
      apply chain_off hfront
      intro hpre
      have hle := hpre.length_le
      rw [List.length_append] at hle
      have hpos := List.length_pos_of_ne_nil hback
      omega
    rw [hkey, hat.get_path, hoff]
    simp [RaxNode.iscompr, hfront]
  | @mismatch stack value front back rest c d child hat hne hkey =>
    have hoff : (RaxNode.compr value (front ++ d :: back) child).get (front ++ c :: rest) = none := by
      apply chain_off (by simp)
      intro hpre
      have htails := (List.prefix_append_right_inj front).mp hpre
      exact hne (List.cons_prefix_cons.mp htails).1.symm
    rw [hkey, hat.get_path, hoff]
    simp
  | @missing stack value children c rest hat hc hkey =>
    have hoff : (RaxNode.plain value children).get (c :: rest) = none := by
      show edgesOf children c rest = none
      rw [edgesOf_missing hc]
      rfl
    rw [hkey, hat.get_path, hoff]
    simp
  | @inline stack f v rest hok hslot hplug hkey =>
    have hget : r.head.get (path (f :: stack) ++ rest) = (RaxNode.inline v).get rest := by
      rw [← hplug, plug_get hok, (hole_around hok).at_path]
    rw [hkey, hget]
    show (if rest = [] then some v else none) = chain (some v) [] empty rest
    unfold chain empty
    simp

end Lookup

end Spark.Rax
