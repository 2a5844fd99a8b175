import Spark.Rax.Runs

/-!
# A removal that copies too many letters

The first scan of a recompression stops where the letters no longer fit one node; the second scan goes on to the end
of the chain.

* **`Copied.single`** — the letters of a chain that leads to the only key are that key.
* **`insertChars_walk`**, **`cleanup_chain`** — what has grown from nothing is freed as a whole.
* **`raxRemove_overflows`** — two keys that part in the first node of a long one.
-/

namespace Spark.Rax

open Trie

variable {V : Type}

/-! ## The scans -/

section Scans

variable {h child : RaxNode V} {fuel : Nat} {s : List UInt8} {v : V}

/-- The first scan only adds nodes, and stays within one node. -/
theorem chainSize_bounds (nodes comprsize : Nat) (hfits : comprsize ≤ raxNodeMaxSize) :
    nodes ≤ (chainSize fuel h nodes comprsize).1 ∧ (chainSize fuel h nodes comprsize).2 ≤ raxNodeMaxSize := by
  induction fuel generalizing h nodes comprsize with
  | zero => exact ⟨Nat.le_refl _, hfits⟩
  | succ fuel ih =>
    rw [chainSize]
    cases h.lastChild with
    | none => exact ⟨Nat.le_refl _, hfits⟩
    | some child =>
      dsimp only
      split
      case isTrue => exact ⟨Nat.le_refl _, hfits⟩
      case isFalse =>
        split
        case isTrue => exact ⟨Nat.le_refl _, hfits⟩
        case isFalse hroom =>
          obtain ⟨hnodes, hsize⟩ := ih (nodes + 1) (comprsize + child.size) (Nat.le_of_not_lt hroom) (h := child)
          exact ⟨Nat.le_of_succ_le hnodes, hsize⟩

/-- The second scan stops only where the chain ends. -/
theorem chainCopy_end (hsound : h.Sound) (hnode : h.isNode = true) (hpass : h.passes = true)
    (hfuel : h.nodes ≤ fuel) :
    (chainCopy fuel h).2.1.isNode = false ∨ (chainCopy fuel h).2.1.passes = false := by
  induction fuel generalizing h with
  | zero =>
    obtain ⟨child, hlink⟩ := passes_link hsound hnode hpass
    have hpos := hlink.nodes
    omega
  | succ fuel ih =>
    obtain ⟨child, hlink⟩ := passes_link hsound hnode hpass
    simp only [chainCopy, hlink.last]
    split
    case isTrue hend => exact hend
    case isFalse hmore =>
      rw [not_or, Bool.not_eq_false, Bool.not_eq_false] at hmore
      have hnodes := hlink.nodes
      exact ih hlink.sound hmore.1 hmore.2 (by omega)

/-- A tree of one key that does not pass on is that key. -/
theorem end_key (hsound : child.Sound) (hlive : child.Live) (hend : child.isNode = false ∨ child.passes = false)
    (hone : ∀ k k', child.get k ≠ none → child.get k' ≠ none → k = k') : child.get [] ≠ none := by
  intro hnone
  rw [value_get] at hnone
  cases hsound with
  | inline v => cases hnone
  | @compr value data child hlong hfits hs hl =>
    have hvalue : value = none := hnone
    subst hvalue
    rcases hend with hend | hend <;> cases hend
  | @plain value children hsorted hs hl hslots =>
    have hvalue : value = none := hnone
    subst hvalue
    cases children with
    | nil => exact hlive rfl
    | cons e children =>
      cases children with
      | nil => rcases hend with hend | hend <;> cases hend
      | cons e' children =>
        -- two letters lead to two keys
        obtain ⟨c, t⟩ := e
        obtain ⟨c', t'⟩ := e'
        have hne : c ≠ c' := by
          intro heq
          have hlt := (List.pairwise_cons.mp hsorted).1 c' List.mem_cons_self
          rw [heq] at hlt
          exact absurd hlt (by simp)
        have hmem' : (c', t') ∈ (c, t) :: (c', t') :: children := List.mem_cons_of_mem _ List.mem_cons_self
        obtain ⟨k, hk⟩ := exists_key (hs (c, t) List.mem_cons_self) (hl (c, t) List.mem_cons_self)
        obtain ⟨k', hk'⟩ := exists_key (hs _ hmem') (hl _ hmem')
        have hsame := hone (c :: k) (c' :: k')
          (by
            show edgesOf ((c, t) :: (c', t') :: children) c k ≠ none
            rw [edgesOf, if_pos rfl]
            exact hk)
          (by
            show edgesOf ((c, t) :: (c', t') :: children) c' k' ≠ none
            rw [edgesOf, if_neg hne, edgesOf, if_pos rfl]
            exact hk')
        exact hne (List.cons.inj hsame).1

/-- The letters of a chain that leads to the only key are that key. -/
theorem Copied.single {out : List UInt8 × RaxNode V × Nat} (hcopied : Copied h out)
    (hend : out.2.1.isNode = false ∨ out.2.1.passes = false) (hget : h.get = Function.update empty s (some v)) :
    out.1 = s := by
  have hkey (k : List UInt8) (hk : out.2.1.get k ≠ none) : out.1 ++ k = s := by
    by_contra hne
    have hval : h.get (out.1 ++ k) ≠ none := by
      rw [hcopied.get, chain_append_key hcopied.ne_nil]
      exact hk
    rw [hget, Function.update_of_ne hne] at hval
    exact hval rfl
  have hnil := end_key hcopied.sound hcopied.live hend fun k k' hk hk' =>
    List.append_cancel_left ((hkey k hk).trans (hkey k' hk').symm)
  rw [← hkey [] hnil, List.append_nil]

end Scans

/-! ## Two keys that part in the first node of a long one -/

section Run

variable {p a : List UInt8} {c d : UInt8} {v w : V} {stack : List (Frame V)} {child tail : RaxNode V}

theorem matchLen_mismatch (p a b : List UInt8) (hcd : c ≠ d) : matchLen (p ++ c :: a) (p ++ d :: b) = p.length := by
  induction p with
  | nil => exact if_neg hcd
  | cons x p ih =>
    show (if x = x then matchLen (p ++ c :: a) (p ++ d :: b) + 1 else 0) = _
    rw [if_pos rfl, ih, List.length_cons]

theorem matchLen_front (p b : List UInt8) : matchLen p (p ++ b) = p.length := by
  induction p with
  | nil => cases b <;> rfl
  | cons x p ih =>
    show (if x = x then matchLen p (p ++ b) + 1 else 0) = _
    rw [if_pos rfl, ih, List.length_cons]

/-- The first key fills a node, and goes on behind it. -/
theorem raxInsert_long (v : V) {s : List UInt8} (hlong : raxNodeMaxSize < s.length) :
    ∃ tail, (raxInsert raxNew s v).1.head = .compr none (s.take raxNodeMaxSize) tail ∧ tail.Sound ∧ tail.Live ∧
      tail.get = Function.update empty (s.drop raxNodeMaxSize) (some v) := by
  cases s with
  | nil => exact absurd hlong (Nat.not_lt_zero _)
  | cons x xs =>
    have hshort : ((x :: xs).drop raxNodeMaxSize).length ≤ xs.length := by
      rw [List.length_drop, List.length_cons]
      have hpos : 0 < raxNodeMaxSize := by decide
      omega
    have hgrows := insertChars_grows v ((x :: xs).drop raxNodeMaxSize) new_sound hshort (by simp)
    refine ⟨_, ?_, hgrows.sound, hgrows.live, ?_⟩
    · have hxs : xs ≠ [] := by
        rintro rfl
        have hone : 1 ≤ raxNodeMaxSize := by decide
        exact absurd hlong (Nat.not_lt.mpr hone)
      have hmin : min (x :: xs).length raxNodeMaxSize = raxNodeMaxSize := Nat.min_eq_right (Nat.le_of_lt hlong)
      show (insertChars v (xs.length + 1) none [] (x :: xs)).node = _
      rw [insertChars, if_pos ⟨rfl, hxs⟩, hmin]
      dsimp only
      rw [if_neg (Nat.ne_of_lt hlong)]
    · rw [hgrows.get]
      exact congrArg (fun m => Function.update m _ _) new_get

theorem walk_mismatch (hp : p ≠ []) (hcd : c ≠ d) (a b : List UInt8) (tail : RaxNode V) :
    raxLowWalk (p ++ d :: b).length [] (.compr none (p ++ c :: a) tail) (p ++ d :: b)
      = .node [] (.compr none (p ++ c :: a) tail) (d :: b) p.length := by
  cases p with
  | nil => exact absurd rfl hp
  | cons x p =>
    have hmatch : matchLen (x :: p ++ c :: a) (x :: (p ++ d :: b)) = (x :: p).length :=
      matchLen_mismatch (x :: p) a b hcd
    have hdrop : (x :: (p ++ d :: b)).drop (x :: p).length = d :: b := by simp
    have hne : (x :: p).length ≠ (x :: p ++ c :: a).length := by
      rw [List.length_append, List.length_cons, List.length_cons]
      omega
    show raxLowWalk ((p ++ d :: b).length + 1) [] (.compr none (x :: p ++ c :: a) tail) (x :: (p ++ d :: b)) = _
    cases tail <;> simp only [raxLowWalk, hmatch, hdrop, hne, ne_eq, not_false_eq_true, if_true]

/-- What stands behind the letter of the second key. -/
def partTail (w : V) : List UInt8 → RaxNode V
  | [] => .inline w
  | b => (insertChars w b.length none [] b).node

/-- The second key splits the node of the first one. -/
theorem raxInsert_part (hp : p ≠ []) (hcd : c ≠ d) {r : Tree V} (hhead : r.head = .compr none (p ++ c :: a) tail)
    (b : List UInt8) (w : V) :
    ∃ left right, left ++ right = [(c, postfixNode none a tail)] ∧
      (raxInsert r (p ++ d :: b) w).1.head
        = (trimmedFrame none p).fill (.plain none (left ++ (d, partTail w b) :: right)) := by
  have hlen : p.length ≠ 0 := fun h => hp (List.length_eq_zero_iff.mp h)
  have hletter : (p ++ c :: a).getD p.length 0 = c := by simp
  have hdrop : (p ++ c :: a).drop (p.length + 1) = a := by simp
  have hwalk : r.walk (p ++ d :: b) = .node [] (.compr none (p ++ c :: a) tail) (d :: b) p.length := by
    unfold Tree.walk
    rw [hhead]
    exact walk_mismatch hp hcd a b tail
  generalize hpostfix : postfixNode none a tail = postfixed
  have hpos : raxNodeFindChildPos [(c, postfixed)] d ≤ 1 := by
    unfold raxNodeFindChildPos
    exact (List.takeWhile_sublist _).length_le
  have hslot : raxNodeFindChildPos [(c, postfixed)] d < raxLeafSlots := Nat.lt_of_le_of_lt hpos (by decide)
  refine ⟨[(c, postfixed)].take (raxNodeFindChildPos [(c, postfixed)] d),
    [(c, postfixed)].drop (raxNodeFindChildPos [(c, postfixed)] d), List.take_append_drop _ _, ?_⟩
  unfold raxInsert raxGenericInsert
  rw [hwalk]
  simp only [reduceCtorEq, false_and, if_false, hletter, hdrop, hlen, List.take_left, hpostfix]
  show plug [trimmedFrame none p] (insertChars w (b.length + 1) none [(c, postfixed)] (d :: b)).node = _
  rw [insertChars, if_neg (by simp)]
  cases b with
  | nil =>
    rw [if_pos ⟨rfl, hslot⟩]
    rfl
  | cons x b =>
    rw [if_neg fun h => List.cons_ne_nil x b h.1]
    rfl

/-- A key that is longer than a trimmed node goes to the node behind it. -/
theorem raxLowWalk_trimmed (hp : p ≠ []) (d : UInt8) (b : List UInt8) (children : List (UInt8 × RaxNode V)) :
    ∃ n, raxLowWalk (p ++ d :: b).length [] ((trimmedFrame none p).fill (.plain none children)) (p ++ d :: b)
      = raxLowWalk (b.length + n + 1) [trimmedFrame none p] (.plain none children) (d :: b) := by
  cases p with
  | nil => exact absurd rfl hp
  | cons x p =>
    cases p with
    | nil =>
      refine ⟨0, ?_⟩
      show raxLowWalk ((d :: b).length + 1) [] (.plain none [(x, .plain none children)]) (x :: d :: b) = _
      have hfind : findChild x [(x, RaxNode.plain none children)] = some ([], .plain none children, []) := if_pos rfl
      rw [raxLowWalk, hfind]
      rfl
    | cons y p =>
      have hmatch : matchLen (x :: y :: p) (x :: (y :: p ++ d :: b)) = (x :: y :: p).length :=
        matchLen_front (x :: y :: p) (d :: b)
      have hdrop : (x :: (y :: p ++ d :: b)).drop (x :: y :: p).length = d :: b := by simp
      have hfuel : (y :: p ++ d :: b).length = b.length + (p.length + 1) + 1 := by
        rw [List.length_append, List.length_cons, List.length_cons]
        omega
      refine ⟨p.length + 1, ?_⟩
      show raxLowWalk ((y :: p ++ d :: b).length + 1) [] (.compr none (x :: y :: p) (.plain none children))
        (x :: (y :: p ++ d :: b)) = _
      rw [raxLowWalk, hmatch, hdrop, hfuel]
      · exact if_neg (not_not.mpr rfl)
      · intro w hw
        cases hw

/-- What has grown from nothing is a chain that ends in its value. -/
theorem insertChars_walk {fuel : Nat} (w : V) (b : List UInt8) (hb : b ≠ []) (hfuel : b.length ≤ fuel) :
    ∃ (stack : List (Frame V)) (f : Frame V), (∀ g ∈ f :: stack, g.passes = true) ∧
      (insertChars w fuel none [] b).node.isNode = true ∧
      ∀ base n, raxLowWalk (b.length + n) base (insertChars w fuel none [] b).node b
        = .inline (stack ++ base) f w [] := by
  induction fuel generalizing b with
  | zero => exact absurd (List.length_eq_zero_iff.mp (Nat.le_zero.mp hfuel)) hb
  | succ fuel ih =>
    cases b with
    | nil => exact absurd rfl hb
    | cons x rest =>
      have hcount (n : Nat) : (x :: rest).length + n = rest.length + n + 1 := by
        rw [List.length_cons]
        omega
      have hall : matchLen (x :: rest) (x :: rest) = (x :: rest).length := by
        have hfront := matchLen_front (x :: rest) []
        rwa [List.append_nil] at hfront
      rw [List.length_cons] at hfuel
      rw [insertChars]
      by_cases hrest : rest = []
      · -- one letter
        subst hrest
        refine ⟨[], .plain none [] x [], by simp [Frame.passes, Frame.value, Frame.iscompr, Frame.size], rfl,
          fun base n => ?_⟩
        have hfind : findChild x [(x, RaxNode.inline w)] = some ([], .inline w, []) := if_pos rfl
        rw [hcount]
        show raxLowWalk _ base (.plain none [(x, .inline w)]) [x] = _
        rw [raxLowWalk, hfind]
        rfl
      · rw [if_pos ⟨rfl, hrest⟩]
        dsimp only
        split
        case isTrue hwhole =>
          refine ⟨[], .compr none (x :: rest), by simp [Frame.passes, Frame.value, Frame.iscompr], rfl,
            fun base n => ?_⟩
          rw [hcount, raxLowWalk, hall, List.drop_length]
          exact if_neg (not_not.mpr rfl)
        case isFalse hmore =>
          obtain ⟨hcut, hlt⟩ := comprsize_cut hmore
          rw [hcut]
          have hpos : 0 < raxNodeMaxSize := by decide
          have hdroplen : ((x :: rest).drop raxNodeMaxSize).length = (x :: rest).length - raxNodeMaxSize :=
            List.length_drop
          have htakelen : ((x :: rest).take raxNodeMaxSize).length = raxNodeMaxSize := by
            rw [List.length_take]
            omega
          rw [List.length_cons] at hlt hdroplen
          obtain ⟨stack, f, hpass, hnode, hwalk⟩ := ih ((x :: rest).drop raxNodeMaxSize)
            (by
              apply List.ne_nil_of_length_pos
              omega)
            (by omega)
          refine ⟨stack ++ [.compr none ((x :: rest).take raxNodeMaxSize)], f, fun g hg => ?_, rfl, fun base n => ?_⟩
          · rw [← List.cons_append, List.mem_append, List.mem_singleton] at hg
            rcases hg with hg | rfl
            · exact hpass g hg
            · rfl
          · have hmatch : matchLen ((x :: rest).take raxNodeMaxSize) (x :: rest)
                = ((x :: rest).take raxNodeMaxSize).length := by
              have hfront := matchLen_front ((x :: rest).take raxNodeMaxSize) ((x :: rest).drop raxNodeMaxSize)
              rwa [List.take_append_drop] at hfront
            have hfuel' : rest.length + n = ((x :: rest).drop raxNodeMaxSize).length + (raxNodeMaxSize - 1 + n) := by
              omega
            rw [hcount, raxLowWalk, hmatch]
            · rw [if_neg (not_not.mpr rfl), htakelen, hfuel', hwalk, List.append_assoc]
              rfl
            · intro v hv
              rw [hv] at hnode
              cases hnode

/-- The chain behind a parent with another child is freed as a whole. -/
theorem unlink_chain {f : Frame V} (g g' : Frame V) (base : List (Frame V)) (n : Nat)
    (hpass : ∀ e ∈ f :: stack, e.passes = true) :
    ∃ n', unlink f (stack ++ g :: g' :: base) n = unlink g (g' :: base) n' := by
  induction stack generalizing f n with
  | nil => exact ⟨n + 1, if_pos (hpass f List.mem_cons_self)⟩
  | cons e stack ih =>
    obtain ⟨n', hrest⟩ := ih (n + 1) fun e' he' => hpass e' (List.mem_cons_of_mem _ he')
    exact ⟨n', (if_pos (hpass f List.mem_cons_self)).trans hrest⟩

theorem cleanup_chain {f g : Frame V} (g' : Frame V) (base : List (Frame V))
    (hpass : ∀ e ∈ f :: stack, e.passes = true) (hg : g.passes = false) :
    ∃ n, cleanup (stack ++ g :: g' :: base) f.removeChild
      = ⟨g' :: base, g.removeChild, n, decide (g.removeChild.size = 1) && g.value.isNone⟩ := by
  have hempty : f.removeChild.size = 0 ∧ f.removeChild.value.isNone := by
    have hf := hpass f List.mem_cons_self
    unfold Frame.passes at hf
    obtain ⟨hvalue, hsingle⟩ := Bool.and_eq_true_iff.mp hf
    rw [removeChild_value]
    refine ⟨?_, hvalue⟩
    cases f with
    | compr value data => rfl
    | plain value left x right =>
      have hsize : left.length + 1 + right.length = 1 := of_decide_eq_true hsingle
      show ((left ++ right).map Prod.fst).length = 0
      rw [List.length_map, List.length_append]
      omega
  unfold cleanup
  rw [if_pos hempty]
  have hlast (n : Nat) : unlink g (g' :: base) n
      = ⟨g' :: base, g.removeChild, n, decide (g.removeChild.size = 1) && g.value.isNone⟩ :=
    if_neg (by rw [hg]; exact Bool.false_ne_true)
  cases stack with
  | nil => exact ⟨1, hlast 1⟩
  | cons e stack =>
    obtain ⟨n, hn⟩ := unlink_chain g g' base 1 fun e' he' => hpass e' (List.mem_cons_of_mem _ he')
    exact ⟨n, hn.trans (hlast n)⟩

theorem findChild_split {left right : List (UInt8 × RaxNode V)} (hd : d ∉ left.map Prod.fst) :
    findChild d (left ++ (d, child) :: right) = some (left, child, right) := by
  induction left with
  | nil => exact if_pos rfl
  | cons e left ih =>
    obtain ⟨x, t⟩ := e
    rw [List.map_cons, List.mem_cons, not_or] at hd
    rw [List.cons_append, findChild, if_neg fun h => hd.1 h.symm, ih hd.2]
    rfl

/-- The first scan finds the node behind a trimmed one, and not the whole of the chain. -/
theorem recompress_overflow {postfixed : RaxNode V} (hp : p ≠ []) (hfits : p.length < raxNodeMaxSize)
    (hsound : (RaxNode.plain none [(c, postfixed)]).Sound)
    (hget : (RaxNode.plain none [(c, postfixed)]).get = Function.update empty (c :: a) (some v))
    (hlong : raxNodeMaxSize < p.length + 1 + a.length) :
    recompress [trimmedFrame none p] (.plain none [(c, postfixed)]) = none := by
  obtain ⟨hok, hpath, hnodes, haround⟩ := trimmedFrame_spec (none : Option V) hp (Nat.le_of_lt hfits)
  have hframe : (trimmedFrame (none : Option V) p).passes = true := by
    cases p with
    | nil => exact absurd rfl hp
    | cons x p => cases p <;> rfl
  have hlive : (RaxNode.plain none [(c, postfixed)]).Live := fill_live (.plain none [] c []) postfixed
  generalize hnode : RaxNode.plain none [(c, postfixed)] = node at hsound hget hlive
  have hnodepass : node.passes = true := by rw [← hnode]; rfl
  have hisnode : node.isNode = true := by rw [← hnode]; rfl
  have hsize : node.size = 1 := by rw [← hnode]; rfl
  have hstart : chainStart [trimmedFrame none p] node = ([], (trimmedFrame none p).fill node) := by
    rw [chainStart, if_pos hframe]
    rfl
  have hpass : ((trimmedFrame none p).fill node).passes = true := by rw [fill_passes, hframe]
  have hstartsound := hok.fill_sound hsound hlive (.inl hisnode)
  have hlast : ((trimmedFrame none p).fill node).lastChild = some node := by
    cases p with
    | nil => exact absurd rfl hp
    | cons x p => cases p <;> rfl
  have hstartsize : ((trimmedFrame none p).fill node).size = p.length := by
    cases p with
    | nil => exact absurd rfl hp
    | cons x p => cases p <;> rfl
  have hstartget : ((trimmedFrame none p).fill node).get = Function.update empty (p ++ c :: a) (some v) := by
    rw [hok.get_fill, haround, hget, (hole_chain hp).update, chain_none_empty]
  have hstartnode := fill_isNode (trimmedFrame none p) node
  generalize (trimmedFrame none p).fill node = start at hstart hpass hstartsound hlast hstartsize hstartget hstartnode
  have hletters := (chainCopy_copied hstartsound hstartnode hpass (Nat.le_refl _)).single
    (chainCopy_end hstartsound hstartnode hpass (Nat.le_refl _)) hstartget
  obtain ⟨child, hlink⟩ := passes_link hstartsound hstartnode hpass
  have hcount := hlink.nodes
  generalize hscan : chainSize start.nodes start 1 start.size = scan
  have hbounds : 2 ≤ scan.1 ∧ scan.2 ≤ raxNodeMaxSize := by
    rw [← hscan, hcount, chainSize, hlast]
    have hmore : ¬ (node.isNode = false ∨ node.passes = false) := by simp [hisnode, hnodepass]
    have hroom : ¬ start.size + node.size > raxNodeMaxSize := by omega
    dsimp only
    rw [if_neg hmore, if_neg hroom]
    exact chainSize_bounds 2 _ (Nat.le_of_not_lt hroom)
  unfold recompress
  rw [hstart]
  dsimp only
  rw [hscan]
  have hnodes2 : scan.1 > 1 := hbounds.1
  have hover : (chainCopy start.nodes start).1.length > scan.2 := by
    rw [hletters, List.length_append, List.length_cons]
    omega
  rw [if_pos hnodes2, if_pos hover]

/-- The walk to the second key ends in a chain of its own; once the chain is freed, the node at the split has one
child again. -/
theorem walk_part {r : Tree V} {left right : List (UInt8 × RaxNode V)} {postfixed : RaxNode V} (hp : p ≠ [])
    (hcd : c ≠ d) (hsplit : left ++ right = [(c, postfixed)]) (b : List UInt8) (w : V)
    (hhead : r.head = (trimmedFrame none p).fill (.plain none (left ++ (d, partTail w b) :: right))) :
    ∃ stack f n, r.walk (p ++ d :: b) = .inline stack f w [] ∧
      cleanup stack f.removeChild = ⟨[trimmedFrame none p], .plain none [(c, postfixed)], n, true⟩ := by
  have hd : d ∉ left.map Prod.fst := by
    intro hmem
    have hletters : d ∈ (left ++ right).map Prod.fst := by
      rw [List.map_append]
      exact List.mem_append_left _ hmem
    rw [hsplit] at hletters
    exact hcd (List.mem_singleton.mp hletters).symm
  have hchild : (Frame.plain none left d right).removeChild = .plain none [(c, postfixed)] :=
    congrArg (RaxNode.plain none) hsplit
  obtain ⟨n, hwalk⟩ := raxLowWalk_trimmed hp d b (left ++ (d, partTail w b) :: right)
  unfold Tree.walk
  rw [hhead, hwalk]
  cases b with
  | nil =>
    refine ⟨[trimmedFrame none p], .plain none left d right, 0, ?_, ?_⟩
    · rw [raxLowWalk, findChild_split hd]
      rfl
    · rw [hchild]
      rfl
  | cons x b =>
    obtain ⟨stack, f, hpass, hnode, htail⟩ := insertChars_walk w (x :: b) (List.cons_ne_nil x b) (Nat.le_refl _)
    have hg : (Frame.plain none left d right).passes = false := by
      have hlen := congrArg List.length hsplit
      rw [List.length_append, List.length_singleton] at hlen
      have hsize : ¬ left.length + 1 + right.length = 1 := by omega
      exact decide_eq_false hsize
    obtain ⟨n', hclean⟩ := cleanup_chain (trimmedFrame none p) [] hpass hg
    refine ⟨stack ++ [.plain none left d right, trimmedFrame none p], f, n', ?_, ?_⟩
    · have htree : partTail w (x :: b) = (insertChars w (x :: b).length none [] (x :: b)).node := rfl
      rw [raxLowWalk, findChild_split hd, htree]
      generalize (insertChars w (x :: b).length none [] (x :: b)).node = t at hnode htail
      cases t with
      | inline v => cases hnode
      | compr value data child => exact htail [.plain none left d right, trimmedFrame none p] n
      | plain value children => exact htail [.plain none left d right, trimmedFrame none p] n
    · rw [hclean, hchild]
      rfl

/-- Two keys part in the first node of the first one: the removal of the second one copies too many letters, if and
only if the first one, which stays, does not fit one node. -/
theorem raxRemove_overflows (p a b : List UInt8) (c d : UInt8) (v w : V) (hp : p ≠ []) (hcd : c ≠ d)
    (hfits : p.length < raxNodeMaxSize) :
    raxNew.run [.insert (p ++ c :: a) v, .insert (p ++ d :: b) w, .remove (p ++ d :: b)] = none ↔
      raxNodeMaxSize < (p ++ c :: a).length := by
  constructor
  · -- with the first key in one node, the removal is one from the map
    intro hnone
    by_contra hshort
    have hfirst := raxGenericInsert_spec (r := raxNew) ⟨new_sound, rfl⟩ (p ++ c :: a) v true
    have hsecond := raxGenericInsert_spec hfirst.rooted (p ++ d :: b) w true
    have hnodes : (raxGenericInsert raxNew (p ++ c :: a) v true).1.numnodes
        = (raxGenericInsert raxNew (p ++ c :: a) v true).1.head.nodes := by
      have hcount := hfirst.nodes
      have hnew : (raxNew : Tree V).numnodes = (raxNew : Tree V).head.nodes := rfl
      omega
    have hget := hsecond.get
    rw [if_pos (.inl rfl), hfirst.get, if_pos (.inl rfl)] at hget
    obtain ⟨r, hremove, -⟩ := raxRemove_spec hsecond.rooted (by have hcount := hsecond.nodes; omega) (p ++ d :: b)
      fun k hk hvalue => by
        rw [hget, Function.update_of_ne hk] at hvalue
        by_cases hkey : k = p ++ c :: a
        · rw [hkey]
          exact Nat.le_of_not_lt hshort
        · rw [Function.update_of_ne hkey] at hvalue
          exact absurd (congrFun new_get k) hvalue
    simp only [Tree.run, Tree.step, raxInsert, Option.bind_some, hremove, Option.map_some] at hnone
    cases hnone
  · intro hlong
    have hover : raxNodeMaxSize < p.length + 1 + a.length := by
      rw [List.length_append, List.length_cons] at hlong
      omega
    have hroom : raxNodeMaxSize - p.length = raxNodeMaxSize - p.length - 1 + 1 := by omega
    generalize hn : raxNodeMaxSize - p.length - 1 = n at hroom
    have htake : (p ++ c :: a).take raxNodeMaxSize = p ++ c :: a.take n := by
      rw [List.take_append, List.take_of_length_le (Nat.le_of_lt hfits), hroom, List.take_succ_cons]
    have hdrop : (p ++ c :: a).drop raxNodeMaxSize = a.drop n := by
      rw [List.drop_append, List.drop_of_length_le (Nat.le_of_lt hfits), hroom, List.drop_succ_cons, List.nil_append]
    obtain ⟨tail, hfirst, hsound, hlive, hget⟩ := raxInsert_long v hlong
    rw [htake] at hfirst
    rw [hdrop] at hget
    obtain ⟨left, right, hsplit, hhead⟩ := raxInsert_part hp hcd hfirst b w
    obtain ⟨stack, f, freed, hwalk, hclean⟩ := walk_part hp hcd hsplit b w hhead
    obtain ⟨hnode, -, hchain⟩ := splitNode_spec none c (a.take n) (by
      rw [List.length_take]
      omega) hsound hlive
    have hmap : (RaxNode.plain none [(c, postfixNode none (a.take n) tail)]).get
        = Function.update empty (c :: a) (some v) := by
      rw [hchain, hget, (hole_chain (List.cons_ne_nil c _)).update, chain_none_empty, List.cons_append,
        List.take_append_drop]
    -- what is left is a chain of three nodes or more, the first two of which fit one node
    have hnone := recompress_overflow hp hfits hnode hmap hover
    have hremove :
        raxRemove (raxInsert (raxInsert raxNew (p ++ c :: a) v).1 (p ++ d :: b) w).1 (p ++ d :: b) = none := by
      unfold raxRemove
      rw [hwalk]
      dsimp only
      rw [if_neg (not_not.mpr rfl), hclean]
      unfold postdelete
      simp only [hnone, Option.map_none, if_true]
    simp only [Tree.run, Tree.step, Option.bind_some, hremove, Option.map_none, Option.bind_none]

/-- A block of 70000 letters, and one that parts from it at the second letter. -/
theorem raxRemove_overflows_sample :
    raxNew.run [.insert ([60] ++ 124 :: List.replicate 69998 97) 1, .insert ([60] ++ 47 :: [97]) 2,
      .remove ([60] ++ 47 :: [97])] = none :=
  (raxRemove_overflows [60] (List.replicate 69998 97) [97] 124 47 1 2 (by decide) (by decide) (by decide)).mpr (by
    rw [List.length_append, List.length_singleton, List.length_cons, List.length_replicate]
    decide)

end Run

end Spark.Rax
