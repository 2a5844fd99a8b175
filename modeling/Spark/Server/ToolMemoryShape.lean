import Spark.Rax.Runs
import Spark.Server.ToolMemory
import Mathlib.Algebra.BigOperators.Group.List.Lemmas
import Mathlib.Algebra.GroupWithZero.Nat
import Mathlib.Data.List.Perm.Subperm

/-!
# The shape of the tool memory

`Shape m l blocks cells` says what the pointers of a tool memory make up: `l` are the entries from the
last used one on, `blocks` are the blocks, and `cells p` are the entries that share the block `p`. The
two trees are sound and index exactly these, the reference counts and the byte count are exact. Each
operation gets one lemma here, about its `l`, `blocks` and `cells`; a key that goes into a tree fits one
node there, so that no removal writes behind the letters of a node.
-/

namespace Spark.Server

open LinkedList

namespace ToolMemory

def entryBytes (m : ToolMemory) (e : Nat) : Nat := (m.entryAt e).elim 0 fun x => x.bytes
def blockBytes (m : ToolMemory) (p : Nat) : Nat := (m.blockAt p).elim 0 fun b => b.bytes

/-- The map from ids to entries that the tree `by_id` stands for. -/
def ids (m : ToolMemory) : List UInt8 → Option Nat := m.byId.head.get

/-- The map from texts to blocks that the tree `by_block` stands for. -/
def texts (m : ToolMemory) : List UInt8 → Option Nat := m.byBlock.head.get

structure Shape (m : ToolMemory) (l blocks : List Nat) (cells : Nat → List Nat) : Prop where
  lru : m.lru.Holds l
  entryAt : ∀ e, e ∈ l ↔ ∃ x, m.entryAt e = some x
  idTree : Rax.Represents m.byId m.ids
  byId : ∀ id e, m.ids id = some e ↔ ∃ x, m.entryAt e = some x ∧ x.id = id
  nodupBlocks : blocks.Nodup
  blockAt : ∀ p, p ∈ blocks ↔ ∃ b, m.blockAt p = some b
  blockTree : Rax.Represents m.byBlock m.texts
  byBlock : ∀ dsml p, m.texts dsml = some p ↔ ∃ b, m.blockAt p = some b ∧ b.dsml = dsml
  entryId : ∀ e x, m.entryAt e = some x → x.id ≠ [] ∧ x.bytes = x.id.length + 1 + sizeofToolMemoryEntry
  entryBlock : ∀ e x, m.entryAt e = some x → x.block ∈ blocks
  blockText : ∀ p b, m.blockAt p = some b →
    b.dsml ≠ [] ∧ b.len = b.dsml.length ∧ b.bytes = b.dsml.length + 1 + sizeofToolMemoryBlock
  blockRefs : ∀ p b, m.blockAt p = some b → b.refs = (cells p).length
  blockChain : ∀ p b, m.blockAt p = some b → Chain m.blockNext b.entries (cells p)
  nodupCells : ∀ p, (cells p).Nodup
  memCells : ∀ p e, e ∈ cells p ↔ ∃ x, m.entryAt e = some x ∧ x.block = p
  entries : m.entries = l.length
  bytes : m.bytes = (l.map m.entryBytes).sum + (blocks.map m.blockBytes).sum
  freshEntries : ∀ e ∈ l, e < m.fresh
  freshBlocks : ∀ p ∈ blocks, p < m.fresh

theorem ids_empty (maxEntries : Int) (maxBytes : Nat) (id : List UInt8) : (empty maxEntries maxBytes).ids id = none :=
  congrFun Rax.raxNew_represents.get id

theorem texts_empty (maxEntries : Int) (maxBytes : Nat) (dsml : List UInt8) :
    (empty maxEntries maxBytes).texts dsml = none :=
  congrFun Rax.raxNew_represents.get dsml

theorem shape_empty (maxEntries : Int) (maxBytes : Nat) :
    (empty maxEntries maxBytes).Shape [] [] fun _ => [] where
  lru := Links.holds_empty
  entryAt e := by simp [empty]
  idTree := Rax.raxNew_represents.self
  byId id e := by
    rw [ids_empty]
    simp [empty]
  nodupBlocks := List.nodup_nil
  blockAt p := by simp [empty]
  blockTree := Rax.raxNew_represents.self
  byBlock dsml p := by
    rw [texts_empty]
    simp [empty]
  entryId e x h := by simp [empty] at h
  entryBlock e x h := by simp [empty] at h
  blockText p b h := by simp [empty] at h
  blockRefs p b h := by simp [empty] at h
  blockChain p b h := by simp [empty] at h
  nodupCells p := List.nodup_nil
  memCells p e := by simp [empty]
  entries := rfl
  bytes := rfl
  freshEntries e h := by simp at h
  freshBlocks p h := by simp at h

variable {m : ToolMemory} {l blocks : List Nat} {cells : Nat → List Nat}

theorem Shape.entry (h : m.Shape l blocks cells) {e : Nat} (he : e ∈ l) : ∃ x, m.entryAt e = some x :=
  (h.entryAt e).mp he

theorem Shape.block (h : m.Shape l blocks cells) {e : Nat} {x : ToolMemoryEntry}
    (hx : m.entryAt e = some x) : ∃ b, m.blockAt x.block = some b :=
  (h.blockAt x.block).mp (h.entryBlock e x hx)

theorem Shape.mem (h : m.Shape l blocks cells) {e : Nat} {x : ToolMemoryEntry}
    (hx : m.entryAt e = some x) : e ∈ l := (h.entryAt e).mpr ⟨x, hx⟩

theorem Shape.mem_cells (h : m.Shape l blocks cells) {e : Nat} {x : ToolMemoryEntry}
    (hx : m.entryAt e = some x) : e ∈ cells x.block := (h.memCells x.block e).mpr ⟨x, hx, rfl⟩

theorem Shape.cells_subset (h : m.Shape l blocks cells) (p : Nat) : cells p ⊆ l := by
  intro e he
  obtain ⟨x, hx, -⟩ := (h.memCells p e).mp he
  exact h.mem hx

theorem Shape.length_cells (h : m.Shape l blocks cells) (p : Nat) : (cells p).length ≤ m.fresh := by
  have hsub : cells p ⊆ List.range m.fresh := by
    intro e he
    exact List.mem_range.mpr (h.freshEntries e (h.cells_subset p he))
  have hlen := ((h.nodupCells p).subperm hsub).length_le
  rwa [List.length_range] at hlen

theorem Shape.length_le (h : m.Shape l blocks cells) : l.length ≤ m.fresh := by
  have hsub : l ⊆ List.range m.fresh := by
    intro e he
    exact List.mem_range.mpr (h.freshEntries e he)
  have hlen := (h.lru.nodup.subperm hsub).length_le
  rwa [List.length_range] at hlen

/-- An id names one entry, and a text one block. -/
theorem Shape.id_inj (h : m.Shape l blocks cells) {e e' : Nat} {x x' : ToolMemoryEntry}
    (hx : m.entryAt e = some x) (hx' : m.entryAt e' = some x') (hid : x.id = x'.id) : e = e' := by
  have h1 : m.ids x'.id = some e := (h.byId x'.id e).mpr ⟨x, hx, hid⟩
  have h2 : m.ids x'.id = some e' := (h.byId x'.id e').mpr ⟨x', hx', rfl⟩
  exact Option.some.inj (h1.symm.trans h2)

theorem Shape.dsml_inj (h : m.Shape l blocks cells) {p p' : Nat} {b b' : ToolMemoryBlock}
    (hb : m.blockAt p = some b) (hb' : m.blockAt p' = some b') (hdsml : b.dsml = b'.dsml) : p = p' := by
  have h1 : m.texts b'.dsml = some p := (h.byBlock b'.dsml p).mpr ⟨b, hb, hdsml⟩
  have h2 : m.texts b'.dsml = some p' := (h.byBlock b'.dsml p').mpr ⟨b', hb', rfl⟩
  exact Option.some.inj (h1.symm.trans h2)

/-! ## What the shape depends on -/

section View

variable {α β γ : Type} {v : β → γ} {f g : Option β}

theorem exists_view (h : f.map v = g.map v) (P : γ → Prop) :
    (∃ b, f = some b ∧ P (v b)) ↔ ∃ b, g = some b ∧ P (v b) := by
  have hview (f : Option β) : (∃ b, f = some b ∧ P (v b)) ↔ ∃ c, f.map v = some c ∧ P c := by cases f <;> simp
  rw [hview f, h, ← hview g]

theorem forall_view (h : f.map v = g.map v) (P : γ → Prop) :
    (∀ b, f = some b → P (v b)) ↔ ∀ b, g = some b → P (v b) := by
  have hview (f : Option β) : (∀ b, f = some b → P (v b)) ↔ ∀ c, f.map v = some c → P c := by cases f <;> simp
  rw [hview f, h, ← hview g]

theorem some_view (h : f.map v = g.map v) : (∃ b, f = some b) ↔ ∃ b, g = some b := by
  simpa using exists_view h fun _ => True

variable [DecidableEq α] {t : α → Option β} {a a' : α} {b b' : β}

theorem update_view (hb : t a = some b) (hv : v b' = v b) (a' : α) :
    (Function.update t a (some b') a').map v = (t a').map v := by
  by_cases ha : a' = a
  · rw [ha, Function.update_self, hb, Option.map_some, Option.map_some, hv]
  · rw [Function.update_of_ne ha]

theorem update_eq_some : Function.update t a none a' = some b ↔ a' ≠ a ∧ t a' = some b := by
  by_cases ha : a' = a
  · simp [ha]
  · simp [ha]

theorem update_some_iff (ha : t a = none) :
    Function.update t a (some b') a' = some b ↔ (a' = a ∧ b' = b) ∨ t a' = some b := by
  by_cases h : a' = a
  · simp [h, ha]
  · simp [h]

theorem exists_insert (ha : t a = none) (P : β → Prop) :
    (∃ c, Function.update t a (some b) a' = some c ∧ P c) ↔ (a' = a ∧ P b) ∨ ∃ c, t a' = some c ∧ P c := by
  by_cases h : a' = a
  · simp [h, ha]
  · simp [h]

end View

/-- What the shape says of an entry. -/
def entryView (x : ToolMemoryEntry) : List UInt8 × Nat × Nat := (x.id, x.block, x.bytes)

/-- What the shape says of a block, the entries apart. -/
def blockView (b : ToolMemoryBlock) : List UInt8 × Nat × Nat := (b.dsml, b.len, b.bytes)

theorem entryBytes_view {m' : ToolMemory} {e : Nat}
    (h : (m'.entryAt e).map entryView = (m.entryAt e).map entryView) :
    m'.entryBytes e = m.entryBytes e := by
  have hview (m : ToolMemory) :
      m.entryBytes e = ((m.entryAt e).map entryView).elim 0 fun x => x.2.2 := by
    rw [entryBytes]
    cases m.entryAt e <;> rfl
  rw [hview m', h, ← hview m]

theorem blockBytes_view {m' : ToolMemory} {p : Nat}
    (h : (m'.blockAt p).map blockView = (m.blockAt p).map blockView) :
    m'.blockBytes p = m.blockBytes p := by
  have hview (m : ToolMemory) :
      m.blockBytes p = ((m.blockAt p).map blockView).elim 0 fun b => b.2.2 := by
    rw [blockBytes]
    cases m.blockAt p <;> rfl
  rw [hview m', h, ← hview m]

/-- Two tables that agree on a list have the same sum over it. -/
theorem sum_congr {f g : Nat → Nat} (h : ∀ e ∈ l, f e = g e) : (l.map f).sum = (l.map g).sum := by
  rw [List.map_congr_left h]

/-- An entry that is written in place may change its stamp and its source. -/
theorem Shape.setEntry (h : m.Shape l blocks cells) {e : Nat} {x y : ToolMemoryEntry}
    (hx : m.entryAt e = some x) (hy : entryView y = entryView x) : (m.setEntry e (some y)).Shape l blocks cells := by
  have hview : ∀ e', ((m.setEntry e (some y)).entryAt e').map entryView =
      (m.entryAt e').map entryView := update_view hx hy
  exact { h with
    entryAt := fun e' => (h.entryAt e').trans (some_view (hview e')).symm
    byId := fun id e' => (h.byId id e').trans (exists_view (hview e') fun x => x.1 = id).symm
    entryId := fun e' => (forall_view (hview e') fun x => x.1 ≠ [] ∧
      x.2.2 = x.1.length + 1 + sizeofToolMemoryEntry).mpr (h.entryId e')
    entryBlock := fun e' => (forall_view (hview e') fun x => x.2.1 ∈ blocks).mpr (h.entryBlock e')
    memCells := fun p e' => (h.memCells p e').trans (exists_view (hview e') fun x => x.2.1 = p).symm
    bytes := by
      have hsame : (m.setEntry e (some y)).entryBytes = m.entryBytes := funext fun e' => entryBytes_view (hview e')
      rw [hsame]
      exact h.bytes }

/-! ## The list of use -/

/-- The order of use and the two clocks are free. -/
theorem Shape.relink (h : m.Shape l blocks cells) {lru : Links Nat} {l' : List Nat} {clock scanClock : UInt64}
    (hlru : lru.Holds l') (hperm : l'.Perm l) :
    { m with lru := lru, clock := clock, scanClock := scanClock }.Shape l' blocks cells :=
  { h with
    lru := hlru
    entryAt := fun e => hperm.mem_iff.trans (h.entryAt e)
    entries := by
      rw [hperm.length_eq]
      exact h.entries
    bytes := by
      have hsum : (l'.map m.entryBytes).sum = (l.map m.entryBytes).sum := (hperm.map _).sum_eq
      show m.bytes = (l'.map m.entryBytes).sum + (blocks.map m.blockBytes).sum
      rw [hsum]
      exact h.bytes
    freshEntries := fun e he => h.freshEntries e (hperm.mem_iff.mp he) }

/-- Touching an entry moves it to the front, and writes its stamp and the clock only. -/
theorem Shape.touch (h : m.Shape l blocks cells) {e : Nat} {x : ToolMemoryEntry} (hx : m.entryAt e = some x) :
    ∃ lru : Links Nat, m.touch e = some ({ m with lru := lru, clock := m.clock + 1 }.setEntry e
        (some { x with stamp := m.clock + 1 })) ∧
      ({ m with lru := lru, clock := m.clock + 1 }.setEntry e
        (some { x with stamp := m.clock + 1 })).Shape (e :: l.erase e) blocks cells := by
  have he : e ∈ l := h.mem hx
  have hshape : ∀ lru : Links Nat, lru.Holds (e :: l.erase e) →
      ({ m with lru := lru, clock := m.clock + 1 }.setEntry e
        (some { x with stamp := m.clock + 1 })).Shape (e :: l.erase e) blocks cells := by
    intro lru hlru
    exact (h.relink hlru (List.perm_cons_erase he).symm).setEntry hx rfl
  by_cases hhead : m.lru.head = some e
  · -- the entry is in front already
    have hl : e :: l.erase e = l := by
      rw [h.lru.head] at hhead
      cases l with
      | nil => simp at he
      | cons y l =>
        obtain rfl := Option.some.inj hhead
        rw [List.erase_cons_head]
    refine ⟨m.lru, ?_, hshape m.lru (hl.symm ▸ h.lru)⟩
    rw [ToolMemory.touch, hx]
    exact if_pos hhead
  · refine ⟨(m.lru.unlink e).linkHead e, ?_, ?_⟩
    · rw [ToolMemory.touch, hx]
      exact if_neg hhead
    · apply hshape
      apply (h.lru.unlink_erase he).linkHead
      exact h.lru.nodup.not_mem_erase

/-! ## Taking an entry out -/

/-- The memory without the entry `e`: its block has a reference less and the chain `c`, and the ids are in `r`. -/
def takeEntry (m : ToolMemory) (e : Nat) (x : ToolMemoryEntry) (b : ToolMemoryBlock) (c : Chained Nat)
    (r : Rax.Tree Nat) : ToolMemory :=
  { m with byId := r, lru := m.lru.unlink e, blockNext := c.next,
           bytes := m.bytes - x.bytes, entries := if m.entries > 0 then m.entries - 1 else m.entries,
           blockAt := Function.update m.blockAt x.block (some { b with entries := c.start, refs := b.refs - 1 }),
           entryAt := Function.update m.entryAt e none }

/-- The memory without the block `p`; the texts are in `q`. -/
def dropBlock (m : ToolMemory) (p : Nat) (b : ToolMemoryBlock) (q : Rax.Tree Nat) : ToolMemory :=
  { m with byBlock := q, bytes := m.bytes - b.bytes,
           blockAt := Function.update m.blockAt p none }

theorem removeEntry_eq {e : Nat} {x : ToolMemoryEntry} {b : ToolMemoryBlock} {c : Chained Nat}
    {r q : Rax.Tree Nat} {v w : Option Nat} (hx : m.entryAt e = some x) (hb : m.blockAt x.block = some b)
    (hc : Chained.unlink e m.fresh none ⟨b.entries, m.blockNext⟩ = some c)
    (hr : Rax.raxRemove m.byId x.id = some (r, v)) (hq : Rax.raxRemove m.byBlock b.dsml = some (q, w)) :
    m.removeEntry e =
      some (if b.refs - 1 > 0 then m.takeEntry e x b c r else (m.takeEntry e x b c r).dropBlock x.block b q) := by
  by_cases hrefs : b.refs - 1 > 0
  · rw [if_pos hrefs]
    simp only [removeEntry, blockUnlinkEntry, releaseBlock, hx, hb, hc, hr, setBlock, setEntry,
      Option.bind_eq_bind, Option.bind_some, Function.update_self, if_pos hrefs, takeEntry,
      Function.update_idem]
  · rw [if_neg hrefs]
    simp only [removeEntry, blockUnlinkEntry, releaseBlock, hx, hb, hc, hr, hq, setBlock, setEntry,
      Option.bind_eq_bind, Option.bind_some, Function.update_self, if_neg hrefs, takeEntry, dropBlock,
      Function.update_idem]

theorem sum_erase {f : Nat → Nat} {e : Nat} (he : e ∈ l) :
    f e + ((l.erase e).map f).sum = (l.map f).sum := by
  have hperm := (List.perm_cons_erase he).map f
  rw [hperm.sum_eq, List.map_cons, List.sum_cons]

theorem Shape.takeEntry (h : m.Shape l blocks cells) {e : Nat} {x : ToolMemoryEntry} {b : ToolMemoryBlock}
    {c : Chained Nat} {r : Rax.Tree Nat} (hx : m.entryAt e = some x) (hb : m.blockAt x.block = some b)
    (hr : Rax.Represents r (Function.update m.ids x.id none)) (hc : Chain c.next c.start ((cells x.block).erase e))
    (hframe : ∀ y, y ∉ cells x.block → c.next y = m.blockNext y) :
    (m.takeEntry e x b c r).Shape (l.erase e) blocks
      (Function.update cells x.block ((cells x.block).erase e)) := by
  have he : e ∈ l := h.mem hx
  have hcell : e ∈ cells x.block := h.mem_cells hx
  have hlen := List.length_erase_of_mem hcell
  have hpos := List.length_pos_of_mem hcell
  have hview : ∀ p, ((m.takeEntry e x b c r).blockAt p).map blockView =
      (m.blockAt p).map blockView := update_view hb rfl
  have hentry : ∀ e' z, (m.takeEntry e x b c r).entryAt e' = some z ↔ e' ≠ e ∧ m.entryAt e' = some z :=
    fun e' z => update_eq_some
  have hapart : ∀ p, p ≠ x.block → ∀ y ∈ cells p, y ∉ cells x.block := by
    intro p hp y hy hy'
    obtain ⟨z, hz, hzp⟩ := (h.memCells p y).mp hy
    obtain ⟨z', hz', hzp'⟩ := (h.memCells x.block y).mp hy'
    obtain rfl := Option.some.inj (hz.symm.trans hz')
    exact hp (hzp.symm.trans hzp')
  exact {
    lru := h.lru.unlink_erase he
    entryAt := by
      intro e'
      rw [h.lru.nodup.mem_erase_iff, h.entryAt e']
      constructor
      · intro ⟨hne, z, hz⟩
        exact ⟨z, (hentry e' z).mpr ⟨hne, hz⟩⟩
      · intro ⟨z, hz⟩
        exact ⟨((hentry e' z).mp hz).1, z, ((hentry e' z).mp hz).2⟩
    idTree := hr.self
    byId := by
      intro id e'
      show r.head.get id = some e' ↔ _
      rw [hr.get, update_eq_some, h.byId id e']
      constructor
      · intro ⟨hne, z, hz, hzid⟩
        refine ⟨z, (hentry e' z).mpr ⟨?_, hz⟩, hzid⟩
        rintro rfl
        obtain rfl := Option.some.inj (hz.symm.trans hx)
        exact hne hzid.symm
      · intro ⟨z, hz, hzid⟩
        obtain ⟨hne, hz⟩ := (hentry e' z).mp hz
        refine ⟨?_, z, hz, hzid⟩
        intro hid
        exact hne (h.id_inj hz hx (hzid.trans hid))
    nodupBlocks := h.nodupBlocks
    blockAt := fun p => (h.blockAt p).trans (some_view (hview p)).symm
    blockTree := h.blockTree
    byBlock := fun dsml p => (h.byBlock dsml p).trans (exists_view (hview p) fun b => b.1 = dsml).symm
    entryId := fun e' z hz => h.entryId e' z ((hentry e' z).mp hz).2
    entryBlock := fun e' z hz => h.entryBlock e' z ((hentry e' z).mp hz).2
    blockText := fun p => (forall_view (hview p) fun b => b.1 ≠ [] ∧ b.2.1 = b.1.length ∧
      b.2.2 = b.1.length + 1 + sizeofToolMemoryBlock).mpr (h.blockText p)
    blockRefs := by
      intro p b' hb'
      have hb'' : Function.update m.blockAt x.block (some { b with entries := c.start, refs := b.refs - 1 }) p =
        some b' := hb'
      by_cases hp : p = x.block
      · subst hp
        rw [Function.update_self] at hb''
        obtain rfl := Option.some.inj hb''
        have hrefs := h.blockRefs x.block b hb
        rw [Function.update_self, hlen]
        show b.refs - 1 = _
        omega
      · rw [Function.update_of_ne hp] at hb''
        rw [Function.update_of_ne hp]
        exact h.blockRefs p b' hb''
    blockChain := by
      intro p b' hb'
      have hb'' : Function.update m.blockAt x.block (some { b with entries := c.start, refs := b.refs - 1 }) p =
        some b' := hb'
      by_cases hp : p = x.block
      · subst hp
        rw [Function.update_self] at hb''
        obtain rfl := Option.some.inj hb''
        rw [Function.update_self]
        exact hc
      · rw [Function.update_of_ne hp] at hb''
        rw [Function.update_of_ne hp]
        exact (h.blockChain p b' hb'').congr fun y hy => hframe y (hapart p hp y hy)
    nodupCells := by
      intro p
      by_cases hp : p = x.block
      · rw [hp, Function.update_self]
        exact (h.nodupCells x.block).erase e
      · rw [Function.update_of_ne hp]
        exact h.nodupCells p
    memCells := by
      intro p e'
      by_cases hp : p = x.block
      · subst hp
        rw [Function.update_self, (h.nodupCells x.block).mem_erase_iff, h.memCells x.block e']
        constructor
        · intro ⟨hne, z, hz, hzp⟩
          exact ⟨z, (hentry e' z).mpr ⟨hne, hz⟩, hzp⟩
        · intro ⟨z, hz, hzp⟩
          exact ⟨((hentry e' z).mp hz).1, z, ((hentry e' z).mp hz).2, hzp⟩
      · rw [Function.update_of_ne hp, h.memCells p e']
        constructor
        · intro ⟨z, hz, hzp⟩
          refine ⟨z, (hentry e' z).mpr ⟨?_, hz⟩, hzp⟩
          rintro rfl
          obtain rfl := Option.some.inj (hz.symm.trans hx)
          exact hp hzp.symm
        · intro ⟨z, hz, hzp⟩
          exact ⟨z, ((hentry e' z).mp hz).2, hzp⟩
    entries := by
      have hl := List.length_pos_of_mem he
      have hentries := h.entries
      show (if m.entries > 0 then m.entries - 1 else m.entries) = _
      rw [List.length_erase_of_mem he, if_pos (by omega)]
      omega
    bytes := by
      have hsum := sum_erase (f := m.entryBytes) he
      have hmine : m.entryBytes e = x.bytes := by rw [entryBytes, hx]; rfl
      have hentries : ((l.erase e).map (m.takeEntry e x b c r).entryBytes).sum =
          ((l.erase e).map m.entryBytes).sum := by
        apply sum_congr
        intro e' he'
        have hne : e' ≠ e := (h.lru.nodup.mem_erase_iff.mp he').1
        show (Function.update m.entryAt e none e').elim 0 _ = (m.entryAt e').elim 0 _
        rw [Function.update_of_ne hne]
      have hblocks : (blocks.map (m.takeEntry e x b c r).blockBytes).sum = (blocks.map m.blockBytes).sum :=
        sum_congr fun p _ => blockBytes_view (hview p)
      show m.bytes - x.bytes = _
      rw [hentries, hblocks, h.bytes, ← hsum, hmine]
      omega
    freshEntries := fun e' he' => h.freshEntries e' (List.mem_of_mem_erase he')
    freshBlocks := h.freshBlocks }

theorem Shape.dropBlock (h : m.Shape l blocks cells) {p : Nat} {b b' : ToolMemoryBlock} {q : Rax.Tree Nat}
    (hq : Rax.Represents q (Function.update m.texts b'.dsml none)) (hb : m.blockAt p = some b)
    (hdsml : b'.dsml = b.dsml) (hbytes : b'.bytes = b.bytes) (hcells : cells p = []) :
    (m.dropBlock p b' q).Shape l (blocks.erase p) cells := by
  have hp : p ∈ blocks := (h.blockAt p).mpr ⟨b, hb⟩
  have hblock : ∀ p' z, (m.dropBlock p b' q).blockAt p' = some z ↔ p' ≠ p ∧ m.blockAt p' = some z :=
    fun p' z => update_eq_some
  exact { h with
    nodupBlocks := h.nodupBlocks.erase p
    blockAt := by
      intro p'
      rw [h.nodupBlocks.mem_erase_iff, h.blockAt p']
      constructor
      · intro ⟨hne, z, hz⟩
        exact ⟨z, (hblock p' z).mpr ⟨hne, hz⟩⟩
      · intro ⟨z, hz⟩
        exact ⟨((hblock p' z).mp hz).1, z, ((hblock p' z).mp hz).2⟩
    blockTree := hq.self
    byBlock := by
      intro dsml p'
      show q.head.get dsml = some p' ↔ _
      rw [hq.get, update_eq_some, h.byBlock dsml p']
      constructor
      · intro ⟨hne, z, hz, hzd⟩
        refine ⟨z, (hblock p' z).mpr ⟨?_, hz⟩, hzd⟩
        rintro rfl
        obtain rfl := Option.some.inj (hz.symm.trans hb)
        exact hne (hzd.symm.trans hdsml.symm)
      · intro ⟨z, hz, hzd⟩
        obtain ⟨hne, hz⟩ := (hblock p' z).mp hz
        refine ⟨?_, z, hz, hzd⟩
        intro hd
        exact hne (h.dsml_inj hz hb (hzd.trans (hd.trans hdsml)))
    entryBlock := by
      intro e x hx
      rw [h.nodupBlocks.mem_erase_iff]
      refine ⟨?_, h.entryBlock e x hx⟩
      rintro rfl
      have hmem := h.mem_cells hx
      rw [hcells] at hmem
      exact absurd hmem (by simp)
    blockText := fun p' z hz => h.blockText p' z ((hblock p' z).mp hz).2
    blockRefs := fun p' z hz => h.blockRefs p' z ((hblock p' z).mp hz).2
    blockChain := fun p' z hz => h.blockChain p' z ((hblock p' z).mp hz).2
    bytes := by
      have hsum := sum_erase (f := m.blockBytes) hp
      have hmine : m.blockBytes p = b.bytes := by rw [blockBytes, hb]; rfl
      have hblocks : ((blocks.erase p).map (m.dropBlock p b' q).blockBytes).sum =
          ((blocks.erase p).map m.blockBytes).sum := by
        apply sum_congr
        intro p' hp'
        have hne : p' ≠ p := (h.nodupBlocks.mem_erase_iff.mp hp').1
        show (Function.update m.blockAt p none p').elim 0 _ = (m.blockAt p').elim 0 _
        rw [Function.update_of_ne hne]
      show m.bytes - b'.bytes = (l.map m.entryBytes).sum + _
      rw [hblocks, h.bytes, ← hsum, hmine, hbytes]
      omega
    freshBlocks := fun p' hp' => h.freshBlocks p' (List.mem_of_mem_erase hp') }

/-! ## Putting an entry in -/

/-- The memory with a new block for `dsml`, which no entry uses yet. -/
def addBlock (m : ToolMemory) (dsml : List UInt8) : ToolMemory :=
  { m with byBlock := (Rax.raxInsert m.byBlock dsml m.fresh).1,
           bytes := m.bytes + (dsml.length + 1 + sizeofToolMemoryBlock), fresh := m.fresh + 1,
           blockAt := Function.update m.blockAt m.fresh
             (some { dsml := dsml, len := dsml.length, bytes := dsml.length + 1 + sizeofToolMemoryBlock,
                     refs := 0, seen := 0, entries := none }) }

theorem Shape.addBlock (h : m.Shape l blocks cells) {dsml : List UInt8} (hdsml : dsml ≠ [])
    (hlen : dsml.length ≤ Rax.raxNodeMaxSize) (hnew : m.texts dsml = none) :
    (m.addBlock dsml).Shape l (m.fresh :: blocks) cells ∧ cells m.fresh = [] := by
  have hinserted := (Rax.raxInsert_represents h.blockTree hlen m.fresh).1
  have hfresh : m.fresh ∉ blocks := fun hp => Nat.lt_irrefl _ (h.freshBlocks _ hp)
  have hnone : m.blockAt m.fresh = none :=
    Option.eq_none_iff_forall_ne_some.mpr fun b hb => hfresh ((h.blockAt _).mpr ⟨b, hb⟩)
  have hcells : cells m.fresh = [] := by
    apply List.eq_nil_iff_forall_not_mem.mpr
    intro e he
    obtain ⟨x, hx, hxp⟩ := (h.memCells m.fresh e).mp he
    exact hfresh (hxp ▸ h.entryBlock e x hx)
  obtain ⟨new, htable, htext, hrefs, hentries, hbytes⟩ : ∃ new : ToolMemoryBlock,
      (m.addBlock dsml).blockAt = Function.update m.blockAt m.fresh (some new) ∧
        (new.dsml = dsml ∧ new.len = dsml.length) ∧ new.refs = 0 ∧ new.entries = none ∧
          new.bytes = dsml.length + 1 + sizeofToolMemoryBlock := ⟨_, rfl, ⟨rfl, rfl⟩, rfl, rfl, rfl⟩
  have hcases : ∀ p b, (m.addBlock dsml).blockAt p = some b → (p = m.fresh ∧ new = b) ∨ m.blockAt p = some b := by
    intro p b hb
    rw [htable] at hb
    exact (update_some_iff hnone).mp hb
  refine ⟨?_, hcells⟩
  exact { h with
    nodupBlocks := List.nodup_cons.mpr ⟨hfresh, h.nodupBlocks⟩
    blockAt := by
      intro p
      rw [List.mem_cons, h.blockAt p, htable]
      simpa using (@exists_insert _ _ _ m.blockAt m.fresh p new hnone fun _ => True).symm
    blockTree := hinserted.self
    byBlock := by
      intro text p
      show (Rax.raxInsert m.byBlock dsml m.fresh).1.head.get text = some p ↔ _
      rw [hinserted.get, update_some_iff hnew, h.byBlock text p, htable, exists_insert hnone, htext.1]
      exact or_congr_left ⟨fun hsame => ⟨hsame.2.symm, hsame.1.symm⟩, fun hsame => ⟨hsame.2.symm, hsame.1.symm⟩⟩
    entryBlock := fun e x hx => List.mem_cons_of_mem _ (h.entryBlock e x hx)
    blockText := by
      intro p b hb
      rcases hcases p b hb with ⟨-, rfl⟩ | hb'
      · rw [hbytes, htext.1, htext.2]
        exact ⟨hdsml, rfl, rfl⟩
      · exact h.blockText p b hb'
    blockRefs := by
      intro p b hb
      rcases hcases p b hb with ⟨rfl, rfl⟩ | hb'
      · rw [hrefs, hcells]
        rfl
      · exact h.blockRefs p b hb'
    blockChain := by
      intro p b hb
      rcases hcases p b hb with ⟨rfl, rfl⟩ | hb'
      · rw [hentries, hcells]
        rfl
      · exact h.blockChain p b hb'
    bytes := by
      have hblocks : (blocks.map (m.addBlock dsml).blockBytes).sum = (blocks.map m.blockBytes).sum := by
        apply sum_congr
        intro p hp
        have hne : p ≠ m.fresh := fun hpf => hfresh (hpf ▸ hp)
        rw [blockBytes, blockBytes, htable, Function.update_of_ne hne]
      have hmine : (m.addBlock dsml).blockBytes m.fresh = dsml.length + 1 + sizeofToolMemoryBlock := by
        rw [blockBytes, htable, Function.update_self, ← hbytes]
        rfl
      show m.bytes + _ = (l.map m.entryBytes).sum + _
      rw [List.map_cons, List.sum_cons, hblocks, hmine, h.bytes]
      omega
    freshEntries := fun e he => Nat.lt_succ_of_lt (h.freshEntries e he)
    freshBlocks := by
      intro p hp
      show p < m.fresh + 1
      rcases List.mem_cons.mp hp with rfl | hp
      · exact Nat.lt_succ_self _
      · exact Nat.lt_succ_of_lt (h.freshBlocks p hp) }

/-- The memory with a new entry `id` of the block `p`. -/
def addEntry (m : ToolMemory) (id : List UInt8) (p : Nat) (b : ToolMemoryBlock) (source : ToolMemorySource) :
    ToolMemory :=
  { m with clock := m.clock + 1, fresh := m.fresh + 1,
           blockNext := Function.update m.blockNext m.fresh b.entries,
           entryAt := Function.update m.entryAt m.fresh
             (some { id := id, block := p, bytes := id.length + 1 + sizeofToolMemoryEntry,
                     stamp := m.clock + 1, source := source }),
           blockAt := Function.update m.blockAt p (some { b with entries := some m.fresh, refs := b.refs + 1 }),
           byId := (Rax.raxInsert m.byId id m.fresh).1, lru := m.lru.linkHead m.fresh,
           entries := m.entries + 1, bytes := m.bytes + (id.length + 1 + sizeofToolMemoryEntry) }

theorem Shape.addEntry (h : m.Shape l blocks cells) {id : List UInt8} {p : Nat} {b : ToolMemoryBlock}
    {source : ToolMemorySource} (hid : id ≠ []) (hlen : id.length ≤ Rax.raxNodeMaxSize) (hnew : m.ids id = none)
    (hb : m.blockAt p = some b) :
    (m.addEntry id p b source).Shape (m.fresh :: l) blocks (Function.update cells p (m.fresh :: cells p)) := by
  have hinserted := (Rax.raxInsert_represents h.idTree hlen m.fresh).1
  have hfresh : m.fresh ∉ l := fun he => Nat.lt_irrefl _ (h.freshEntries _ he)
  have hnone : m.entryAt m.fresh = none :=
    Option.eq_none_iff_forall_ne_some.mpr fun x hx => hfresh (h.mem hx)
  have hcell : ∀ p', m.fresh ∉ cells p' := fun p' he => hfresh (h.cells_subset p' he)
  have hp : p ∈ blocks := (h.blockAt p).mpr ⟨b, hb⟩
  obtain ⟨new, htable, hnewId, hnewBlock, hnewBytes⟩ : ∃ new : ToolMemoryEntry,
      (m.addEntry id p b source).entryAt = Function.update m.entryAt m.fresh (some new) ∧ new.id = id ∧
        new.block = p ∧ new.bytes = id.length + 1 + sizeofToolMemoryEntry := ⟨_, rfl, rfl, rfl, rfl⟩
  have hcases : ∀ e x, (m.addEntry id p b source).entryAt e = some x →
      (e = m.fresh ∧ new = x) ∨ m.entryAt e = some x := by
    intro e x hx
    rw [htable] at hx
    exact (update_some_iff hnone).mp hx
  have hblock : ∀ p' b', (m.addEntry id p b source).blockAt p' = some b' →
      (p' = p ∧ b' = { b with entries := some m.fresh, refs := b.refs + 1 }) ∨
      (p' ≠ p ∧ m.blockAt p' = some b') := by
    intro p' b' hb'
    by_cases hp' : p' = p
    · subst hp'
      have hself : (m.addEntry id p' b source).blockAt p' =
          some { b with entries := some m.fresh, refs := b.refs + 1 } := Function.update_self ..
      exact .inl ⟨rfl, (Option.some.inj (hself.symm.trans hb')).symm⟩
    · exact .inr ⟨hp', (Function.update_of_ne hp' _ _).symm.trans hb'⟩
  have hview : ∀ p', ((m.addEntry id p b source).blockAt p').map blockView =
      (m.blockAt p').map blockView := update_view hb rfl
  exact {
    lru := h.lru.linkHead hfresh
    entryAt := by
      intro e
      rw [List.mem_cons, h.entryAt e, htable]
      simpa using (@exists_insert _ _ _ m.entryAt m.fresh e new hnone fun _ => True).symm
    idTree := hinserted.self
    byId := by
      intro id' e
      show (Rax.raxInsert m.byId id m.fresh).1.head.get id' = some e ↔ _
      rw [hinserted.get, update_some_iff hnew, h.byId id' e, htable, exists_insert hnone, hnewId]
      exact or_congr_left ⟨fun hsame => ⟨hsame.2.symm, hsame.1.symm⟩, fun hsame => ⟨hsame.2.symm, hsame.1.symm⟩⟩
    nodupBlocks := h.nodupBlocks
    blockAt := fun p' => (h.blockAt p').trans (some_view (hview p')).symm
    blockTree := h.blockTree
    byBlock := fun dsml p' => (h.byBlock dsml p').trans (exists_view (hview p') fun b => b.1 = dsml).symm
    entryId := by
      intro e x hx
      rcases hcases e x hx with ⟨-, rfl⟩ | hx'
      · rw [hnewBytes, hnewId]
        exact ⟨hid, rfl⟩
      · exact h.entryId e x hx'
    entryBlock := by
      intro e x hx
      rcases hcases e x hx with ⟨-, rfl⟩ | hx'
      · rwa [hnewBlock]
      · exact h.entryBlock e x hx'
    blockText := fun p' => (forall_view (hview p') fun b => b.1 ≠ [] ∧ b.2.1 = b.1.length ∧
      b.2.2 = b.1.length + 1 + sizeofToolMemoryBlock).mpr (h.blockText p')
    blockRefs := by
      intro p' b' hb'
      rcases hblock p' b' hb' with ⟨rfl, rfl⟩ | ⟨hne, hb''⟩
      · rw [Function.update_self, List.length_cons]
        show b.refs + 1 = _
        rw [h.blockRefs p' b hb]
        rfl
      · rw [Function.update_of_ne hne]
        exact h.blockRefs p' b' hb''
    blockChain := by
      intro p' b' hb'
      rcases hblock p' b' hb' with ⟨rfl, rfl⟩ | ⟨hne, hb''⟩
      · rw [Function.update_self]
        exact (h.blockChain p' b hb).push (hcell p')
      · rw [Function.update_of_ne hne]
        apply (h.blockChain p' b' hb'').congr
        intro y hy
        have hyf : y ≠ m.fresh := fun hyf => hcell p' (hyf ▸ hy)
        exact Function.update_of_ne hyf _ _
    nodupCells := by
      intro p'
      by_cases hp' : p' = p
      · rw [hp', Function.update_self]
        exact List.nodup_cons.mpr ⟨hcell p, h.nodupCells p⟩
      · rw [Function.update_of_ne hp']
        exact h.nodupCells p'
    memCells := by
      intro p' e
      rw [htable, exists_insert hnone, hnewBlock]
      by_cases hp' : p' = p
      · rw [hp', Function.update_self, List.mem_cons, h.memCells p e, and_iff_left rfl]
      · rw [Function.update_of_ne hp', h.memCells p' e]
        exact (or_iff_right fun hsame => hp' hsame.2.symm).symm
    entries := by
      show m.entries + 1 = _
      rw [h.entries, List.length_cons]
      rfl
    bytes := by
      have hentries : (l.map (m.addEntry id p b source).entryBytes).sum = (l.map m.entryBytes).sum := by
        apply sum_congr
        intro e he
        have hne : e ≠ m.fresh := fun hef => hfresh (hef ▸ he)
        rw [entryBytes, entryBytes, htable, Function.update_of_ne hne]
      have hblocks : (blocks.map (m.addEntry id p b source).blockBytes).sum = (blocks.map m.blockBytes).sum :=
        sum_congr fun p' _ => blockBytes_view (hview p')
      have hmine : (m.addEntry id p b source).entryBytes m.fresh = id.length + 1 + sizeofToolMemoryEntry := by
        rw [entryBytes, htable, Function.update_self, ← hnewBytes]
        rfl
      show m.bytes + _ = _
      rw [List.map_cons, List.sum_cons, hentries, hblocks, hmine, h.bytes]
      omega
    freshEntries := by
      intro e he
      show e < m.fresh + 1
      rcases List.mem_cons.mp he with rfl | he
      · exact Nat.lt_succ_self _
      · exact Nat.lt_succ_of_lt (h.freshEntries e he)
    freshBlocks := fun p' hp' => Nat.lt_succ_of_lt (h.freshBlocks p' hp') }

end ToolMemory

end Spark.Server
