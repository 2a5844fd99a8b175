import Mathlib.Data.Nat.Notation

/-!
# The radix tree

Strings and their values in a tree whose single-child chains are one node each (`radix_tree.c`). A value whose node
would have no children stands in the slot of its parent itself, if it is one of the first slots.

* **`RaxNode`**, **`Tree`** — `raxNode` and `rax`.
* **`raxLowWalk`** — the way down, with the parents on a stack.
* **`raxFind`**, **`raxGenericInsert`** — reading and writing.
* **`raxRemove`** — the way up again: nodes without a use are freed, and what has become a chain becomes one node.

A stack of parents, each with a hole for the child that was followed, and the node behind it are the tree: a link that
is written back is a hole that is filled. Values are pointers, which may be null. The layout of a node in memory is
left out, and allocations succeed.
-/

namespace Spark.Rax

variable {V : Type}

/-- A child slot: a value in it (`leafbitmap`), or a node with its value, if it is a key. A compressed node has its
string and one child, a plain one a child for each letter. -/
inductive RaxNode (V : Type) where
  | inline (v : V)
  | compr (value : Option V) (data : List UInt8) (child : RaxNode V)
  | plain (value : Option V) (children : List (UInt8 × RaxNode V))

/-- `rax`. -/
structure Tree (V : Type) where
  head : RaxNode V
  numele : Nat
  numnodes : Nat

/-- `RAX_NODE_MAX_SIZE`. -/
def raxNodeMaxSize : Nat := 65535

/-- The slots that the bitmap knows. -/
def raxLeafSlots : Nat := 13

namespace RaxNode

def isNode : RaxNode V → Bool
  | .inline _ => false
  | _ => true

/-- The value of a key; `iskey` is that there is one. -/
def value : RaxNode V → Option V
  | .inline v => some v
  | .compr value _ _ => value
  | .plain value _ => value

def setValue (value : Option V) : RaxNode V → RaxNode V
  | .inline v => .inline v
  | .compr _ data child => .compr value data child
  | .plain _ children => .plain value children

def iscompr : RaxNode V → Bool
  | .compr _ _ _ => true
  | _ => false

def data : RaxNode V → List UInt8
  | .inline _ => []
  | .compr _ data _ => data
  | .plain _ children => children.map Prod.fst

def size (h : RaxNode V) : Nat := h.data.length

/-- `raxNewNode` without children. -/
def new : RaxNode V := .plain none []

/-- The child behind `raxNodeLastChildPtr`. -/
def lastChild : RaxNode V → Option (RaxNode V)
  | .inline _ => none
  | .compr _ _ child => some child
  | .plain _ children => children.getLast?.map Prod.snd

end RaxNode

mutual
/-- The nodes of a tree, as `raxRecursiveFree` counts them down. -/
def RaxNode.nodes : RaxNode V → Nat
  | .inline _ => 0
  | .compr _ _ child => child.nodes + 1
  | .plain _ children => nodesOf children + 1
def nodesOf : List (UInt8 × RaxNode V) → Nat
  | [] => 0
  | (_, child) :: rest => child.nodes + nodesOf rest
end

/-- `raxNew`. -/
def raxNew : Tree V := ⟨.new, 0, 1⟩

/-! ## The way down -/

/-- A parent with a hole for its child. -/
inductive Frame (V : Type) where
  | compr (value : Option V) (data : List UInt8)
  | plain (value : Option V) (left : List (UInt8 × RaxNode V)) (c : UInt8) (right : List (UInt8 × RaxNode V))

namespace Frame

/-- The link from the parent is written. -/
def fill : Frame V → RaxNode V → RaxNode V
  | .compr value data, child => .compr value data child
  | .plain value left c right, child => .plain value (left ++ (c, child) :: right)

def value : Frame V → Option V
  | .compr value _ => value
  | .plain value _ _ _ => value

def iscompr : Frame V → Bool
  | .compr _ _ => true
  | .plain _ _ _ _ => false

def size : Frame V → Nat
  | .compr _ data => data.length
  | .plain _ left _ right => left.length + 1 + right.length

/-- `raxRemoveChild`. -/
def removeChild : Frame V → RaxNode V
  | .compr value _ => .plain value []
  | .plain value left _ right => .plain value (left ++ right)

end Frame

/-- The tree that a stack of parents and the node behind it are. -/
def plug : List (Frame V) → RaxNode V → RaxNode V
  | [], h => h
  | f :: stack, h => plug stack (f.fill h)

/-- The letters that a chain and a key have in common, counted. -/
def matchLen : List UInt8 → List UInt8 → Nat
  | v :: data, c :: s => if v = c then matchLen data s + 1 else 0
  | _, _ => 0

/-- The child of a letter, between the ones on its left and on its right. -/
def findChild (c : UInt8) :
    List (UInt8 × RaxNode V) → Option (List (UInt8 × RaxNode V) × RaxNode V × List (UInt8 × RaxNode V))
  | [] => none
  | (v, child) :: rest =>
    if v = c then some ([], child, rest)
    else (findChild c rest).map fun found => ((v, child) :: found.1, found.2.1, found.2.2)

/-- Where a walk stops: at a node, with the rest of the key and the split position, or at a value in a slot of a
node, which is the frame. -/
inductive Walk (V : Type) where
  | node (stack : List (Frame V)) (h : RaxNode V) (rest : List UInt8) (splitpos : Nat)
  | inline (stack : List (Frame V)) (h : Frame V) (v : V) (rest : List UInt8)

/-- `raxLowWalk`; each turn takes a letter of the key. -/
def raxLowWalk : Nat → List (Frame V) → RaxNode V → List UInt8 → Walk V
  | 0, stack, h, rest => .node stack h rest 0
  | fuel + 1, stack, h, rest =>
    match h, rest with
    | .compr value data child, c :: rest' =>
      let j := matchLen data (c :: rest')
      if j ≠ data.length then .node stack h ((c :: rest').drop j) j
      else
        match child with
        | .inline v => .inline stack (.compr value data) v ((c :: rest').drop j)
        | child => raxLowWalk fuel (.compr value data :: stack) child ((c :: rest').drop j)
    | .plain value children, c :: rest' =>
      match findChild c children with
      | none => .node stack h (c :: rest') 0
      | some (left, .inline v, right) => .inline stack (.plain value left c right) v rest'
      | some (left, child, right) => raxLowWalk fuel (.plain value left c right :: stack) child rest'
    | h, rest => .node stack h rest 0

/-- A walk from the head. -/
def Tree.walk (r : Tree V) (s : List UInt8) : Walk V := raxLowWalk s.length [] r.head s

/-- `raxFind`. -/
def raxFind (r : Tree V) (s : List UInt8) : Option V :=
  match r.walk s with
  | .inline _ _ v rest => if rest = [] then some v else none
  | .node _ h rest splitpos => if rest ≠ [] ∨ (h.iscompr ∧ splitpos ≠ 0) then none else h.value

/-! ## Insertion -/

/-- `raxNodeFindChildPos`. -/
def raxNodeFindChildPos (children : List (UInt8 × RaxNode V)) (c : UInt8) : Nat :=
  (children.takeWhile fun e => decide (e.1 ≤ c)).length

/-- `raxNewValueNode`. -/
def raxNewValueNode (v : V) : RaxNode V := .plain (some v) []

/-- The value in slot 12 becomes a node where slot 13 follows; the number of nodes that this makes. -/
def materializeLast (pos : Nat) (children : List (UInt8 × RaxNode V)) : List (UInt8 × RaxNode V) × Nat :=
  match children[raxLeafSlots - 1]? with
  | some (e, .inline v) =>
    if pos ≤ raxLeafSlots - 1 then (children.set (raxLeafSlots - 1) (e, raxNewValueNode v), 1) else (children, 0)
  | _ => (children, 0)

/-- `raxAddChildNoAlloc`, and the child that is then stored; the number of nodes that this makes beside the child. -/
def raxAddChildNoAlloc (children : List (UInt8 × RaxNode V)) (c : UInt8) (child : RaxNode V) :
    List (UInt8 × RaxNode V) × Nat :=
  let pos := raxNodeFindChildPos children c
  let (children, made) := materializeLast pos children
  (children.take pos ++ (c, child) :: children.drop pos, made)

/-- What the loop over the missing letters leaves: the node it started at, and the nodes and keys it has made. -/
structure Grown (V : Type) where
  node : RaxNode V
  numnodes : Nat
  numele : Nat

/-- The loop over the missing letters, from a node that is not compressed; each turn takes one of them. -/
def insertChars (v : V) : Nat → Option V → List (UInt8 × RaxNode V) → List UInt8 → Grown V
  | _, value, children, [] => ⟨.plain (some v) children, 0, if value.isSome then 0 else 1⟩
  | 0, value, children, _ :: _ => ⟨.plain value children, 0, 0⟩
  | fuel + 1, value, children, c :: rest =>
    if children = [] ∧ rest ≠ [] then
      let comprsize := min (c :: rest).length raxNodeMaxSize
      if comprsize = (c :: rest).length then ⟨.compr value (c :: rest) (.inline v), 0, 1⟩
      else
        let grown := insertChars v fuel none [] ((c :: rest).drop comprsize)
        ⟨.compr value ((c :: rest).take comprsize) grown.node, grown.numnodes + 1, grown.numele⟩
    else if rest = [] ∧ raxNodeFindChildPos children c < raxLeafSlots then
      let added := raxAddChildNoAlloc children c (.inline v)
      ⟨.plain value added.1, added.2, 1⟩
    else
      let grown := insertChars v fuel none [] rest
      let added := raxAddChildNoAlloc children c grown.node
      ⟨.plain value added.1, added.2 + grown.numnodes + 1, grown.numele⟩

/-- A string in front of a child: compressed if it is longer than one letter, and no node if it is empty. -/
def postfixNode (value : Option V) (data : List UInt8) (child : RaxNode V) : RaxNode V :=
  match data with
  | [] => child
  | [c] => .plain value [(c, child)]
  | data => .compr value data child

/-- The part of a compressed node in front of a split. -/
def trimmedFrame (value : Option V) : List UInt8 → Frame V
  | [c] => .plain value [] c []
  | data => .compr value data

/-- `raxGenericInsert`: the tree, the old value, and whether the key is new. -/
def raxGenericInsert (r : Tree V) (s : List UInt8) (v : V) (overwrite : Bool) : Tree V × Option V × Bool :=
  match r.walk s with
  | .inline stack f old rest =>
    match rest with
    | [] => ({ r with head := plug stack (f.fill (.inline (if overwrite then v else old))) }, some old, false)
    | c :: rest =>
      -- the value gets a node of its own, which then grows
      let grown := insertChars v (c :: rest).length (some old) [] (c :: rest)
      (⟨plug stack (f.fill grown.node), r.numele + grown.numele, r.numnodes + 1 + grown.numnodes⟩, none, true)
  | .node stack h rest j =>
    if rest = [] ∧ (h.iscompr = false ∨ j = 0) then
      match h.value with
      | some old => ({ r with head := plug stack (if overwrite then h.setValue (some v) else h) }, some old, false)
      | none => ({ r with head := plug stack (h.setValue (some v)), numele := r.numele + 1 }, none, true)
    else
      match h, rest with
      | .compr value data child, c :: rest =>
        -- a mismatch: the node is split at the letter, and grows there
        let letter := data.getD j 0
        let postfixLen := data.length - j - 1
        let postfixed := postfixNode none (data.drop (j + 1)) child
        let made := (if j = 0 then 0 else 1) + if postfixLen = 0 then 0 else 1
        let splitValue := if j = 0 then value else none
        let grown := insertChars v (c :: rest).length splitValue [(letter, postfixed)] (c :: rest)
        let stack := if j = 0 then stack else trimmedFrame value (data.take j) :: stack
        (⟨plug stack grown.node, r.numele + grown.numele, r.numnodes + made + grown.numnodes⟩, none, true)
      | .compr value data child, [] =>
        -- the key ends inside of the node
        let postfixed := postfixNode (some v) (data.drop j) child
        (⟨plug (trimmedFrame value (data.take j) :: stack) postfixed, r.numele + 1, r.numnodes + 1⟩, none, true)
      | .plain value children, rest =>
        let grown := insertChars v rest.length value children rest
        (⟨plug stack grown.node, r.numele + grown.numele, r.numnodes + grown.numnodes⟩, none, true)
      | .inline _, _ => (r, none, false)

/-- `raxInsert`. -/
def raxInsert (r : Tree V) (s : List UInt8) (v : V) : Tree V × Option V × Bool := raxGenericInsert r s v true

/-- `raxTryInsert`. -/
def raxTryInsert (r : Tree V) (s : List UInt8) (v : V) : Tree V × Option V × Bool := raxGenericInsert r s v false

/-! ## Removal -/

/-- A node that is no key and has a single child. -/
def RaxNode.passes (h : RaxNode V) : Bool := h.value.isNone && (h.iscompr || decide (h.size = 1))

def Frame.passes (f : Frame V) : Bool := f.value.isNone && (f.iscompr || decide (f.size = 1))

/-- A place in the tree, the nodes that were freed to get there, and whether it may have become part of a chain. -/
structure Unlinked (V : Type) where
  stack : List (Frame V)
  h : RaxNode V
  freed : Nat
  trycompress : Bool

/-- The loop of `raxRemoveCleanup`, from the parent `f` of a node that is freed. -/
def unlink (f : Frame V) : List (Frame V) → Nat → Unlinked V
  | [], freed => ⟨[], f.removeChild, freed, decide (f.removeChild.size = 1) && f.value.isNone⟩
  | g :: stack, freed =>
    if f.passes then unlink g stack (freed + 1)
    else ⟨g :: stack, f.removeChild, freed, decide (f.removeChild.size = 1) && f.value.isNone⟩

/-- `raxRemoveCleanup`; at the head there is nothing to free. -/
def raxRemoveCleanup (stack : List (Frame V)) (h : RaxNode V) : Unlinked V :=
  match stack with
  | [] => ⟨[], h, 0, false⟩
  | f :: stack => unlink f stack 1

/-- Up to the first node of a chain. -/
def chainStart : List (Frame V) → RaxNode V → List (Frame V) × RaxNode V
  | [], h => ([], h)
  | f :: stack, h => if f.passes then chainStart stack (f.fill h) else (f :: stack, h)

/-- The first scan: the nodes of a chain and their letters, counted, as far as these fit one node. -/
def chainSize : Nat → RaxNode V → Nat → Nat → Nat × Nat
  | 0, _, nodes, comprsize => (nodes, comprsize)
  | fuel + 1, h, nodes, comprsize =>
    match h.lastChild with
    | none => (nodes, comprsize)
    | some child =>
      if child.isNode = false ∨ child.passes = false then (nodes, comprsize)
      else if comprsize + child.size > raxNodeMaxSize then (nodes, comprsize)
      else chainSize fuel child (nodes + 1) (comprsize + child.size)

/-- The second scan: the letters of a chain, the child behind it, and the nodes that are freed. -/
def chainCopy : Nat → RaxNode V → List UInt8 × RaxNode V × Nat
  | 0, h => ([], h, 0)
  | fuel + 1, h =>
    match h.lastChild with
    | none => ([], h, 0)
    | some child =>
      if child.isNode = false ∨ child.passes = false then (h.data, child, 1)
      else
        let more := chainCopy fuel child
        (h.data ++ more.1, more.2.1, more.2.2 + 1)

/-- The recompression of `raxRemove`, with the nodes that are freed and made for it; none where the second scan writes
more letters than the first one has found room for. -/
def recompress (stack : List (Frame V)) (h : RaxNode V) : Option (RaxNode V × Nat × Nat) :=
  let (stack, start) := chainStart stack h
  let (nodes, comprsize) := chainSize start.nodes start 1 start.size
  if nodes > 1 then
    let (letters, child, freed) := chainCopy start.nodes start
    if letters.length > comprsize then none
    else some (plug stack (.compr none letters child), freed, 1)
  else some (plug stack start, 0, 0)

/-- From `postdelete` on. -/
def postdelete (r : Tree V) (u : Unlinked V) : Option (Tree V) :=
  let numnodes := r.numnodes - u.freed
  if u.trycompress then
    (recompress u.stack u.h).map fun out => ⟨out.1, r.numele - 1, numnodes + out.2.2 - out.2.1⟩
  else some ⟨plug u.stack u.h, r.numele - 1, numnodes⟩

/-- A node that has lost its value, or a child: one without children is freed, one with a single child may be part
of a chain. -/
def cleanup (stack : List (Frame V)) (h : RaxNode V) : Unlinked V :=
  if h.size = 0 ∧ h.value.isNone then raxRemoveCleanup stack h
  else ⟨stack, h, 0, decide (h.size = 1) && h.value.isNone⟩

/-- `raxRemove`: the tree, and the value that is gone, if the key was there; none where it writes behind
the letters of a node. -/
def raxRemove (r : Tree V) (s : List UInt8) : Option (Tree V × Option V) :=
  match r.walk s with
  | .inline stack f v rest =>
    if rest ≠ [] then some (r, none) else (postdelete r (cleanup stack f.removeChild)).map fun r => (r, some v)
  | .node stack h rest j =>
    if rest ≠ [] ∨ (h.iscompr ∧ j ≠ 0) ∨ h.value = none then some (r, none)
    else (postdelete r (cleanup stack (h.setValue none))).map fun r => (r, h.value)

/-- The assertion at the end of `raxFree`, which counts every node down. -/
def raxFree (r : Tree V) : Bool := decide (r.numnodes = r.head.nodes)

end Spark.Rax
