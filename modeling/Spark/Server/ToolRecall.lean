import Spark.Lib.Lru
import Spark.Server.ToolMemoryShape
import Mathlib.Algebra.Order.BigOperators.Group.List
import Mathlib.Algebra.Order.Group.Nat
import Mathlib.Data.List.Dedup

/-!
# The tool memory as a map

What the tool memory is for is a map from ids to texts that keeps the ids used last. `Recall` is that
map, with the budgets of the code, and `Represents m a` says that the pointers of `m` hold the map `a`.
Every operation of the code is the operation of the map.
-/

namespace Spark.Server

open LinkedList

/-- The bytes that the code counts for a list of remembered calls: a text is counted once. -/
def recallCost (items : List (List UInt8 × List UInt8)) : Nat :=
  (items.map fun x => x.1.length + 1 + sizeofToolMemoryEntry).sum +
    ((items.map Prod.snd).dedup.map fun dsml => dsml.length + 1 + sizeofToolMemoryBlock).sum

def recallFits (maxEntries : Int) (maxBytes : Nat) (items : List (List UInt8 × List UInt8)) : Bool :=
  decide (items.length ≤ maxEntries) && decide (recallCost items ≤ maxBytes)

theorem sum_le_of_subperm {α : Type} {f : α → Nat} {l l' : List α} (h : l.Subperm l') :
    (l.map f).sum ≤ (l'.map f).sum := by
  obtain ⟨l'', hperm, hsub⟩ := h
  rw [← (hperm.map f).sum_eq]
  exact (hsub.map f).sum_le_sum fun _ _ => Nat.zero_le _

theorem recallCost_le {l l' : List (List UInt8 × List UInt8)} (h : l.Subperm l') :
    recallCost l ≤ recallCost l' := by
  have htexts : (l.map Prod.snd).dedup.Subperm (l'.map Prod.snd).dedup := by
    apply (List.nodup_dedup _).subperm
    intro dsml hdsml
    rw [List.mem_dedup, List.mem_map] at hdsml ⊢
    obtain ⟨x, hx, hxd⟩ := hdsml
    exact ⟨x, h.subset hx, hxd⟩
  exact Nat.add_le_add (sum_le_of_subperm h) (sum_le_of_subperm htexts)

theorem closed_recallFits (maxEntries : Int) (maxBytes : Nat) : Lru.Closed (recallFits maxEntries maxBytes) := by
  intro l l' hsub hfits
  rw [recallFits, Bool.and_eq_true, decide_eq_true_iff, decide_eq_true_iff] at hfits ⊢
  have hlen := hsub.length_le
  have hcost := recallCost_le hsub
  omega

/-- The remembered calls from the last used one on, and where each came from. -/
structure Recall where
  items : List (List UInt8 × List UInt8)
  source : List UInt8 → ToolMemorySource

namespace Recall

def put (fits : List (List UInt8 × List UInt8) → Bool) (a : Recall) (id dsml : List UInt8)
    (source : ToolMemorySource) : Recall :=
  if id = [] ∨ dsml = [] then
    a
  else
    { items := Lru.prune fits (Lru.use id dsml a.items)
      source := Function.update a.source id
        (if Lru.find id a.items = some dsml ∧ source = .disk then a.source id else source) }

def touch (a : Recall) (id : List UInt8) : Recall := { a with items := Lru.touch id a.items }

def find (a : Recall) (id : List UInt8) : Option (List UInt8) := Lru.find id a.items

end Recall

namespace ToolMemory

def textOf (m : ToolMemory) (e : Nat) : List UInt8 :=
  ((m.entryAt e).bind fun x => m.blockAt x.block).elim [] fun b => b.dsml

def item (m : ToolMemory) (e : Nat) : List UInt8 × List UInt8 :=
  ((m.entryAt e).elim [] fun x => x.id, m.textOf e)

/-- The list of use is `l`, and every block has an entry. -/
def Keeps (m : ToolMemory) (l : List Nat) : Prop :=
  ∃ blocks cells, m.Shape l blocks cells ∧ ∀ p ∈ blocks, cells p ≠ []

/-- The entries `l` say in `m'` what they say in `m`. -/
structure Frame (m m' : ToolMemory) (l : List Nat) : Prop where
  item : ∀ e ∈ l, m'.item e = m.item e
  source : ∀ e ∈ l, (m'.entryAt e).map (fun x => x.source) = (m.entryAt e).map fun x => x.source
  maxEntries : m'.maxEntries = m.maxEntries
  maxBytes : m'.maxBytes = m.maxBytes

theorem Frame.trans {m₁ m₂ m₃ : ToolMemory} {l l' : List Nat} (h : Frame m₁ m₂ l) (h' : Frame m₂ m₃ l')
    (hsub : l' ⊆ l) : Frame m₁ m₃ l' where
  item e he := (h'.item e he).trans (h.item e (hsub he))
  source e he := (h'.source e he).trans (h.source e (hsub he))
  maxEntries := h'.maxEntries.trans h.maxEntries
  maxBytes := h'.maxBytes.trans h.maxBytes

variable {m m' : ToolMemory} {l blocks : List Nat} {cells : Nat → List Nat} {e : Nat} {x : ToolMemoryEntry}
  {b : ToolMemoryBlock}

theorem item_eq (hx : m.entryAt e = some x) (hb : m.blockAt x.block = some b) : m.item e = (x.id, b.dsml) := by
  simp [item, textOf, hx, hb]

theorem Frame.items (h : Frame m m' l) : l.map m'.item = l.map m.item := List.map_congr_left h.item

/-- Entries and blocks that keep what they say. -/
theorem Shape.frame (h : m.Shape l blocks cells) {l' : List Nat} (hsub : l' ⊆ l)
    (hentry : ∀ e ∈ l', ∀ x, m.entryAt e = some x → ∃ x', m'.entryAt e = some x' ∧ x'.id = x.id ∧
      x'.block = x.block ∧ x'.source = x.source)
    (hblock : ∀ e ∈ l', ∀ x b, m.entryAt e = some x → m.blockAt x.block = some b →
      ∃ b', m'.blockAt x.block = some b' ∧ b'.dsml = b.dsml)
    (hentries : m'.maxEntries = m.maxEntries) (hbytes : m'.maxBytes = m.maxBytes) : Frame m m' l' where
  item e he := by
    obtain ⟨x, hx⟩ := h.entry (hsub he)
    obtain ⟨b, hb⟩ := h.block hx
    obtain ⟨x', hx', hid, hxb, -⟩ := hentry e he x hx
    obtain ⟨b', hb', hdsml⟩ := hblock e he x b hx hb
    rw [item_eq hx hb, item_eq hx' (hxb ▸ hb'), hid, hdsml]
  source e he := by
    obtain ⟨x, hx⟩ := h.entry (hsub he)
    obtain ⟨x', hx', -, -, hsource⟩ := hentry e he x hx
    simp [hx, hx', hsource]
  maxEntries := hentries
  maxBytes := hbytes

theorem Keeps.nodup (h : m.Keeps l) : l.Nodup := by
  obtain ⟨blocks, cells, hshape, -⟩ := h
  exact hshape.lru.nodup

theorem Keeps.length_le (h : m.Keeps l) : l.length ≤ m.fresh := by
  obtain ⟨blocks, cells, hshape, -⟩ := h
  exact hshape.length_le

/-- The byte count of the code is the cost of what is remembered. -/
theorem Keeps.bytes (h : m.Keeps l) : m.bytes = recallCost (l.map m.item) := by
  obtain ⟨blocks, cells, hshape, htight⟩ := h
  have hentries : (l.map m.entryBytes).sum =
      ((l.map m.item).map fun x => x.1.length + 1 + sizeofToolMemoryEntry).sum := by
    rw [List.map_map]
    apply sum_congr
    intro e he
    obtain ⟨x, hx⟩ := hshape.entry he
    simp [entryBytes, item, hx, (hshape.entryId e x hx).2]
  let text : Nat → List UInt8 := fun p => (m.blockAt p).elim [] fun b => b.dsml
  have hblocks : (blocks.map m.blockBytes).sum =
      ((blocks.map text).map fun dsml => dsml.length + 1 + sizeofToolMemoryBlock).sum := by
    rw [List.map_map]
    apply sum_congr
    intro p hp
    obtain ⟨b, hb⟩ := (hshape.blockAt p).mp hp
    simp [blockBytes, text, hb, (hshape.blockText p b hb).2.2]
  have hnodup : (blocks.map text).Nodup := by
    apply hshape.nodupBlocks.map_on
    intro p hp p' hp' heq
    obtain ⟨b, hb⟩ := (hshape.blockAt p).mp hp
    obtain ⟨b', hb'⟩ := (hshape.blockAt p').mp hp'
    apply hshape.dsml_inj hb hb'
    simpa [text, hb, hb'] using heq
  have hperm : (blocks.map text).Perm ((l.map m.item).map Prod.snd).dedup := by
    apply (List.perm_ext_iff_of_nodup hnodup (List.nodup_dedup _)).mpr
    intro dsml
    simp only [List.mem_dedup, List.mem_map, exists_exists_and_eq_and]
    constructor
    · -- a block's text is the text of each of its cells
      rintro ⟨p, hp, htext⟩
      obtain ⟨e, he⟩ := List.exists_mem_of_ne_nil _ (htight p hp)
      obtain ⟨x, hx, rfl⟩ := (hshape.memCells p e).mp he
      refine ⟨e, hshape.mem hx, ?_⟩
      simpa [item, textOf, hx, text] using htext
    · rintro ⟨e, he, htext⟩
      obtain ⟨x, hx⟩ := hshape.entry he
      refine ⟨x.block, hshape.entryBlock e x hx, ?_⟩
      simpa [item, textOf, hx, text] using htext
  rw [hshape.bytes, hentries, hblocks, recallCost, (hperm.map _).sum_eq]

theorem Keeps.entries (h : m.Keeps l) : m.entries = l.length := by
  obtain ⟨blocks, cells, hshape, -⟩ := h
  exact hshape.entries

/-- What fits the limits of a memory. -/
def fits (m : ToolMemory) : List (List UInt8 × List UInt8) → Bool := recallFits m.limitEntries m.limitBytes

theorem Keeps.overLimits (h : m.Keeps l) : m.overLimits = !m.fits (l.map m.item) := by
  rw [ToolMemory.overLimits, fits, recallFits, h.entries, h.bytes, List.length_map]
  by_cases h1 : (l.length : Int) ≤ m.limitEntries
  · by_cases h2 : recallCost (l.map m.item) ≤ m.limitBytes
    · simp [h1, h2]
    · simp [h1, h2, Nat.lt_of_not_le h2]
  · have h1' : m.limitEntries < l.length := by omega
    simp [h1, h1']

theorem limitEntries_nonneg (m : ToolMemory) : 0 ≤ m.limitEntries := by
  unfold limitEntries
  split
  · omega
  · decide

theorem fits_nil (m : ToolMemory) : m.fits [] = true := by
  simp [fits, recallFits, recallCost, limitEntries_nonneg m]

theorem Frame.fits (h : Frame m m' l) : m'.fits = m.fits := by
  unfold ToolMemory.fits limitEntries limitBytes
  rw [h.maxEntries, h.maxBytes]

/-! ## What the operations keep -/

theorem Keeps.removeEntry (h : m.Keeps l) (he : e ∈ l) :
    ∃ m', m.removeEntry e = some m' ∧ m'.Keeps (l.erase e) ∧ Frame m m' (l.erase e) := by
  obtain ⟨blocks, cells, hshape, htight⟩ := h
  obtain ⟨x, hx⟩ := hshape.entry he
  obtain ⟨b, hb⟩ := hshape.block hx
  have hcell : e ∈ cells x.block := hshape.mem_cells hx
  obtain ⟨c, hc, hchain, hframe⟩ := Chained.unlink_start (c := ⟨b.entries, m.blockNext⟩)
    (hshape.blockChain x.block b hb) (hshape.nodupCells x.block) hcell (hshape.length_cells x.block)
  obtain ⟨r, hr, hids⟩ := Rax.raxRemove_represents hshape.idTree x.id
  obtain ⟨q, hq, htexts⟩ := Rax.raxRemove_represents hshape.blockTree b.dsml
  have htake := hshape.takeEntry hx hb hids hchain hframe
  have hrefs := hshape.blockRefs x.block b hb
  have hlen := List.length_erase_of_mem hcell
  have hpos := List.length_pos_of_mem hcell
  have hentry : ∀ e' ∈ l.erase e, ∀ x', m.entryAt e' = some x' →
      (m.takeEntry e x b c r).entryAt e' = some x' := by
    intro e' he' x' hx'
    exact update_eq_some.mpr ⟨(hshape.lru.nodup.mem_erase_iff.mp he').1, hx'⟩
  rw [removeEntry_eq hx hb hc hr hq]
  by_cases hlast : b.refs - 1 > 0
  · -- other entries share the block
    rw [if_pos hlast]
    refine ⟨_, rfl, ⟨blocks, _, htake, ?_⟩, ?_⟩
    · intro p hp
      by_cases hpx : p = x.block
      · rw [hpx, Function.update_self]
        apply List.ne_nil_of_length_pos
        omega
      · rw [Function.update_of_ne hpx]
        exact htight p hp
    · apply hshape.frame List.erase_subset
      · exact fun e' he' x' hx' => ⟨x', hentry e' he' x' hx', rfl, rfl, rfl⟩
      · intro e' he' x' b' hx' hb'
        by_cases hpx : x'.block = x.block
        · rw [hpx] at hb' ⊢
          obtain rfl := Option.some.inj (hb.symm.trans hb')
          exact ⟨_, Function.update_self .., rfl⟩
        · exact ⟨b', (Function.update_of_ne hpx _ _).trans hb', rfl⟩
      · rfl
      · rfl
  · -- the block goes with its last entry
    rw [if_neg hlast]
    have hnil : (cells x.block).erase e = [] := List.eq_nil_of_length_eq_zero (by omega)
    have hmine : (m.takeEntry e x b c r).blockAt x.block =
        some { b with entries := c.start, refs := b.refs - 1 } := Function.update_self ..
    have hdrop : ((m.takeEntry e x b c r).dropBlock x.block b q).Shape _ _ _ :=
      htake.dropBlock htexts hmine rfl rfl (by rw [Function.update_self, hnil])
    refine ⟨_, rfl, ⟨_, _, hdrop, ?_⟩, ?_⟩
    · intro p hp
      obtain ⟨hpx, hp⟩ := hshape.nodupBlocks.mem_erase_iff.mp hp
      rw [Function.update_of_ne hpx]
      exact htight p hp
    · apply hshape.frame List.erase_subset
      · exact fun e' he' x' hx' => ⟨x', hentry e' he' x' hx', rfl, rfl, rfl⟩
      · intro e' he' x' b' hx' hb'
        have hpx : x'.block ≠ x.block := by
          intro hpx
          have hmem : e' ∈ (cells x.block).erase e := by
            rw [(hshape.nodupCells x.block).mem_erase_iff]
            exact ⟨(hshape.lru.nodup.mem_erase_iff.mp he').1, hpx ▸ hshape.mem_cells hx'⟩
          rw [hnil] at hmem
          exact absurd hmem (by simp)
        refine ⟨b', ?_, rfl⟩
        show Function.update (Function.update m.blockAt x.block _) x.block none x'.block = some b'
        rw [Function.update_of_ne hpx, Function.update_of_ne hpx, hb']
      · rfl
      · rfl

theorem Keeps.touch (h : m.Keeps l) (hx : m.entryAt e = some x) :
    ∃ m', m.touch e = some m' ∧ m'.Keeps (e :: l.erase e) ∧ Frame m m' l ∧ m'.blockAt = m.blockAt := by
  obtain ⟨blocks, cells, hshape, htight⟩ := h
  obtain ⟨lru, htouch, hshape'⟩ := hshape.touch hx
  refine ⟨_, htouch, ⟨blocks, cells, hshape', htight⟩, ?_, rfl⟩
  apply hshape.frame (List.Subset.refl l)
  · intro e' _ x' hx'
    by_cases he : e' = e
    · subst he
      obtain rfl := Option.some.inj (hx.symm.trans hx')
      exact ⟨_, Function.update_self .., rfl, rfl, rfl⟩
    · exact ⟨x', (Function.update_of_ne he _ _).trans hx', rfl, rfl, rfl⟩
  · exact fun e' _ x' b' _ hb' => ⟨b', hb', rfl⟩
  · rfl
  · rfl

/-- The pruning loop ends within its fuel, and keeps the longest front that fits. -/
theorem Keeps.pruneLoop {fuel : Nat} (h : m.Keeps l) (hfuel : l.length < fuel) :
    ∃ m' l' back, pruneLoop fuel m = some m' ∧ m'.Keeps l' ∧ l = l' ++ back ∧ Frame m m' l' ∧
      l'.map m'.item = Lru.prune m.fits (l.map m.item) := by
  induction fuel generalizing m l with
  | zero => omega
  | succ fuel ih =>
    have hover := h.overLimits
    cases hfits : m.fits (l.map m.item) with
    | true =>
      rw [hfits] at hover
      refine ⟨m, l, [], ?_, h, (List.append_nil l).symm, ?_, (Lru.prune_of_fits hfits).symm⟩
      · simp [ToolMemory.pruneLoop, hover]
      · exact ⟨fun _ _ => rfl, fun _ _ => rfl, rfl, rfl⟩
    | false =>
      rw [hfits] at hover
      rcases List.eq_nil_or_concat' l with rfl | ⟨init, last, rfl⟩
      · rw [List.map_nil, m.fits_nil] at hfits
        exact absurd hfits (by simp)
      · have htail : m.lru.tail = some last := by
          obtain ⟨blocks, cells, hshape, -⟩ := h
          rw [hshape.lru.tail]
          simp
        obtain ⟨m₁, hremove, hkeeps, hframe⟩ := h.removeEntry (e := last) (by simp)
        have hnodup := h.nodup
        have hlast : last ∉ init := fun hmem => (List.disjoint_of_nodup_append hnodup) hmem (by simp)
        have herase : (init ++ [last]).erase last = init := by
          rw [List.erase_append_right _ hlast]
          simp
        rw [herase] at hkeeps hframe
        have hlt : init.length < fuel := by
          rw [List.length_append] at hfuel
          exact Nat.lt_of_succ_lt_succ hfuel
        obtain ⟨m', l', back, hloop, hkeeps', hinit, hframe', hitems⟩ := ih hkeeps hlt
        have hsub : l' ⊆ init := by
          rw [hinit]
          exact List.subset_append_left l' back
        refine ⟨m', l', back ++ [last], ?_, hkeeps', ?_, hframe.trans hframe' hsub, ?_⟩
        · simp [ToolMemory.pruneLoop, hover, htail, hremove, hloop]
        · rw [hinit, List.append_assoc]
        · rw [hitems, hframe.fits, hframe.items, List.map_append, List.map_singleton]
          rw [List.map_append, List.map_singleton] at hfits
          exact (Lru.prune_concat hfits).symm

theorem Keeps.prune (h : m.Keeps l) :
    ∃ m' l' back, m.prune = some m' ∧ m'.Keeps l' ∧ l = l' ++ back ∧ Frame m m' l' ∧
      l'.map m'.item = Lru.prune m.fits (l.map m.item) :=
  h.pruneLoop (Nat.lt_succ_of_le h.length_le)

/-! ## Putting and looking up -/

theorem Keeps.byId (h : m.Keeps l) {id : List UInt8} {e : Nat} :
    m.ids id = some e ↔ ∃ x, m.entryAt e = some x ∧ x.id = id := by
  obtain ⟨blocks, cells, hshape, -⟩ := h
  exact hshape.byId id e

theorem Keeps.entry (h : m.Keeps l) (he : e ∈ l) :
    ∃ x b, m.entryAt e = some x ∧ m.blockAt x.block = some b ∧ m.item e = (x.id, b.dsml) := by
  obtain ⟨blocks, cells, hshape, -⟩ := h
  obtain ⟨x, hx⟩ := hshape.entry he
  obtain ⟨b, hb⟩ := hshape.block hx
  exact ⟨x, b, hx, hb, item_eq hx hb⟩

theorem Keeps.mem (h : m.Keeps l) (hx : m.entryAt e = some x) : e ∈ l := by
  obtain ⟨blocks, cells, hshape, -⟩ := h
  exact hshape.mem hx

theorem Keeps.findEntry (h : m.Keeps l) (id : List UInt8) : m.findEntry id = m.ids id := by
  have htree : Rax.raxFind m.byId id = m.ids id := by
    obtain ⟨blocks, cells, hshape, -⟩ := h
    exact hshape.idTree.find id
  unfold ToolMemory.findEntry
  rw [htree]
  split
  · rename_i hid
    cases hbyId : m.ids id with
    | none => rfl
    | some e =>
      obtain ⟨x, hx, hxid⟩ := h.byId.mp hbyId
      obtain ⟨blocks, cells, hshape, -⟩ := h
      exact absurd (hxid.trans hid) (hshape.entryId e x hx).1
  · rfl

theorem Keeps.keys (h : m.Keeps l) : ((l.map m.item).map Prod.fst).Nodup := by
  rw [List.map_map]
  apply h.nodup.map_on
  intro e he e' he' heq
  obtain ⟨x, b, hx, hb, hitem⟩ := h.entry he
  obtain ⟨x', b', hx', hb', hitem'⟩ := h.entry he'
  obtain ⟨blocks, cells, hshape, -⟩ := h
  apply hshape.id_inj hx hx'
  simpa [hitem, hitem'] using heq

/-- The map finds for an id what the entry of the id says. -/
theorem Keeps.find (h : m.Keeps l) (hx : m.entryAt e = some x) (hb : m.blockAt x.block = some b) :
    Lru.find x.id (l.map m.item) = some b.dsml := by
  rw [Lru.find_eq_some_iff h.keys, ← item_eq hx hb]
  exact List.mem_map_of_mem (h.mem hx)

theorem Keeps.find_none (h : m.Keeps l) {id : List UInt8} :
    Lru.find id (l.map m.item) = none ↔ m.ids id = none := by
  rw [Lru.find_eq_none_iff]
  constructor
  · intro hid
    cases hbyId : m.ids id with
    | none => rfl
    | some e =>
      obtain ⟨x, hx, rfl⟩ := h.byId.mp hbyId
      obtain ⟨x', b, hx', -, hitem⟩ := h.entry (h.mem hx)
      obtain rfl := Option.some.inj (hx.symm.trans hx')
      apply absurd _ hid
      exact List.mem_map.mpr ⟨m.item e, List.mem_map_of_mem (h.mem hx), by rw [hitem]⟩
  · intro hbyId hid
    obtain ⟨_, hmem, rfl⟩ := List.mem_map.mp hid
    obtain ⟨e, he, rfl⟩ := List.mem_map.mp hmem
    obtain ⟨x, b, hx, -, hitem⟩ := h.entry he
    have hsome := h.byId.mpr ⟨x, hx, rfl⟩
    rw [hitem] at hbyId
    rw [hbyId] at hsome
    exact absurd hsome (by simp)

/-- Taking the entry of an id out of the list takes the id out of the map. -/
theorem Keeps.without (h : m.Keeps l) (hx : m.entryAt e = some x) :
    (l.erase e).map m.item = Lru.without x.id (l.map m.item) := by
  obtain ⟨front, back, hl⟩ := List.append_of_mem (h.mem hx)
  have hnodup := h.nodup
  have hkeys := h.keys
  obtain ⟨x', b, hx', -, hitem⟩ := h.entry (h.mem hx)
  obtain rfl := Option.some.inj (hx.symm.trans hx')
  subst hl
  have hfront : e ∉ front := fun hmem => (List.disjoint_of_nodup_append hnodup) hmem (by simp)
  rw [List.erase_append_right _ hfront, List.erase_cons_head]
  rw [List.map_append, List.map_cons, List.map_append, List.map_cons, hitem, List.nodup_middle] at hkeys
  have hid := (List.nodup_cons.mp hkeys).1
  rw [List.mem_append, not_or] at hid
  have hdrop : Lru.without x.id ((x.id, b.dsml) :: back.map m.item) = back.map m.item := by
    show List.filter _ _ = _
    rw [List.filter_cons_of_neg (by simp)]
    exact Lru.without_of_not_mem hid.2
  rw [List.map_append, List.map_append, List.map_cons, hitem, Lru.without_append, hdrop,
    Lru.without_of_not_mem hid.1]

/-- The pointers of `m` hold the map `a`. -/
def Represents (m : ToolMemory) (a : Recall) : Prop :=
  ∃ l, m.Keeps l ∧ a.items = l.map m.item ∧ ∀ e x, m.entryAt e = some x → a.source x.id = x.source

/-- What is remembered stands in the tree, and fits one node there. -/
theorem Represents.text_fits {a : Recall} (h : m.Represents a) {item : List UInt8 × List UInt8}
    (hitem : item ∈ a.items) : item.2.length ≤ Rax.raxNodeMaxSize := by
  obtain ⟨l, hkeeps, hitems, -⟩ := h
  rw [hitems] at hitem
  obtain ⟨e, he, rfl⟩ := List.mem_map.mp hitem
  obtain ⟨x, b, -, hb, heq⟩ := hkeeps.entry he
  obtain ⟨blocks, cells, hshape, -⟩ := hkeeps
  rw [heq]
  apply hshape.blockTree.fits
  rw [(hshape.byBlock b.dsml x.block).mpr ⟨b, hb, rfl⟩]
  exact Option.some_ne_none _

theorem represents_empty (maxEntries : Int) (maxBytes : Nat) (source : List UInt8 → ToolMemorySource) :
    (empty maxEntries maxBytes).Represents ⟨[], source⟩ := by
  refine ⟨[], ⟨[], fun _ => [], shape_empty maxEntries maxBytes, by simp⟩, rfl, ?_⟩
  intro e x hx
  simp [empty] at hx

/-- Sources through a step that keeps a part of the entries. -/
theorem Keeps.sources {l' : List Nat} {source : List UInt8 → ToolMemorySource} (h : m.Keeps l) (h' : m'.Keeps l')
    (hframe : Frame m m' l') (hsub : l' ⊆ l)
    (hsource : ∀ e x, m.entryAt e = some x → source x.id = x.source) :
    ∀ e x, m'.entryAt e = some x → source x.id = x.source := by
  intro e x hx
  have he := h'.mem hx
  obtain ⟨x₀, b₀, hx₀, -, hitem₀⟩ := h.entry (hsub he)
  obtain ⟨x₁, b₁, hx₁, -, hitem₁⟩ := h'.entry he
  obtain rfl := Option.some.inj (hx.symm.trans hx₁)
  have hid : x.id = x₀.id := by
    have hitem := hframe.item e he
    rw [hitem₀, hitem₁] at hitem
    exact congrArg Prod.fst hitem
  have hs := hframe.source e he
  rw [hx, hx₀] at hs
  rw [hid, hsource e x₀ hx₀]
  exact (Option.some.inj hs).symm

theorem Represents.entry_of_find {a : Recall} (h : m.Represents a) {id dsml : List UInt8}
    (hfind : a.find id = some dsml) :
    ∃ e x b, m.findEntry id = some e ∧ m.entryAt e = some x ∧ x.id = id ∧ a.source id = x.source ∧
      m.blockAt x.block = some b ∧ b.dsml = dsml := by
  obtain ⟨l, hkeeps, hitems, hsource⟩ := h
  rw [Recall.find, hitems] at hfind
  cases hbyId : m.ids id with
  | none =>
    rw [hkeeps.find_none.mpr hbyId] at hfind
    exact absurd hfind (by simp)
  | some e =>
    obtain ⟨x, hx, rfl⟩ := hkeeps.byId.mp hbyId
    obtain ⟨x', b, hx', hb, -⟩ := hkeeps.entry (hkeeps.mem hx)
    obtain rfl := Option.some.inj (hx.symm.trans hx')
    rw [hkeeps.find hx hb] at hfind
    exact ⟨e, x, b, (hkeeps.findEntry x.id).trans hbyId, hx, rfl, hsource e x hx, hb, Option.some.inj hfind⟩

theorem Represents.findEntry_none {a : Recall} (h : m.Represents a) {id : List UInt8} (hfind : a.find id = none) :
    m.findEntry id = none ∧ m.ids id = none := by
  obtain ⟨l, hkeeps, hitems, -⟩ := h
  rw [Recall.find, hitems, hkeeps.find_none] at hfind
  exact ⟨(hkeeps.findEntry id).trans hfind, hfind⟩

/-- Equal texts are one block. -/
theorem Represents.block_inj {a : Recall} (h : m.Represents a) {p p' : Nat} {b b' : ToolMemoryBlock}
    (hb : m.blockAt p = some b) (hb' : m.blockAt p' = some b') : p = p' ↔ b.dsml = b'.dsml := by
  obtain ⟨l, ⟨blocks, cells, hshape, -⟩, -⟩ := h
  constructor
  · rintro rfl
    rw [Option.some.inj (hb.symm.trans hb')]
  · exact hshape.dsml_inj hb hb'

theorem Represents.lookup_none {a : Recall} (h : m.Represents a) {id : List UInt8} (hfind : a.find id = none) :
    m.lookup id = some (m, none) := by
  rw [ToolMemory.lookup, (h.findEntry_none hfind).1]

theorem Represents.lookup_some {a : Recall} (h : m.Represents a) {id dsml : List UInt8}
    (hfind : a.find id = some dsml) :
    ∃ m' p b, m.lookup id = some (m', some (dsml, a.source id, p)) ∧ m'.Represents (a.touch id) ∧
      m'.fits = m.fits ∧ m'.blockAt = m.blockAt ∧ m.blockAt p = some b ∧ b.dsml = dsml := by
  obtain ⟨e, x, b, hentry, hx, rfl, hsrc, hb, rfl⟩ := h.entry_of_find hfind
  obtain ⟨l, hkeeps, hitems, hsource⟩ := h
  obtain ⟨m', htouch, hkeeps', hframe, hblocks⟩ := hkeeps.touch hx
  have hperm : (e :: l.erase e).Perm l := (List.perm_cons_erase (hkeeps.mem hx)).symm
  have hsub : e :: l.erase e ⊆ l := hperm.subset
  have hframe' : Frame m m' (e :: l.erase e) :=
    ⟨fun e' he' => hframe.item e' (hsub he'), fun e' he' => hframe.source e' (hsub he'), hframe.maxEntries,
      hframe.maxBytes⟩
  refine ⟨m', x.block, b, ?_, ⟨e :: l.erase e, hkeeps', ?_, ?_⟩, hframe.fits, hblocks, hb, rfl⟩
  · simp [ToolMemory.lookup, hentry, hx, hb, htouch, hsrc]
  · show Lru.touch x.id a.items = (e :: l.erase e).map m'.item
    rw [hframe'.items, List.map_cons, item_eq hx hb, hkeeps.without hx, Lru.touch, hitems, hkeeps.find hx hb]
    rfl
  · exact hkeeps.sources hkeeps' hframe' hsub hsource

/-- The block for a text, made if there is none. -/
theorem Keeps.getBlock (h : m.Keeps l) {dsml : List UInt8} (hdsml : dsml ≠ [])
    (hlen : dsml.length ≤ Rax.raxNodeMaxSize) :
    ∃ m₁ p b blocks cells, m.getBlock dsml = some (m₁, p) ∧ m₁.Shape l blocks cells ∧
      (∀ p' ∈ blocks, p' ≠ p → cells p' ≠ []) ∧ m₁.blockAt p = some b ∧ b.dsml = dsml ∧
      m₁.byId = m.byId ∧ m₁.entryAt = m.entryAt ∧ Frame m m₁ l := by
  obtain ⟨blocks, cells, hshape, htight⟩ := h
  have hfind : m.findBlock dsml = m.texts dsml := (if_neg hdsml).trans (hshape.blockTree.find dsml)
  cases hbyBlock : m.texts dsml with
  | some p =>
    obtain ⟨b, hb, hbd⟩ := (hshape.byBlock dsml p).mp hbyBlock
    refine ⟨m, p, b, blocks, cells, ?_, hshape, fun p' hp' _ => htight p' hp', hb, hbd, rfl, rfl, ?_⟩
    · rw [ToolMemory.getBlock, hfind, hbyBlock]
    · exact ⟨fun _ _ => rfl, fun _ _ => rfl, rfl, rfl⟩
  | none =>
    obtain ⟨hshape', -⟩ := hshape.addBlock hdsml hlen hbyBlock
    have hnew := (Rax.raxInsert_represents hshape.blockTree hlen m.fresh).2
    rw [hbyBlock] at hnew
    refine ⟨m.addBlock dsml, m.fresh, _, m.fresh :: blocks, cells, ?_, hshape', ?_, Function.update_self ..,
      rfl, rfl, rfl, ?_⟩
    · rw [ToolMemory.getBlock, hfind, hbyBlock]
      simp [hnew, setBlock, ToolMemory.addBlock]
    · intro p' hp' hne
      exact htight p' ((List.mem_cons.mp hp').resolve_left hne)
    · apply hshape.frame (List.Subset.refl l)
      · exact fun e' _ x' hx' => ⟨x', hx', rfl, rfl, rfl⟩
      · intro e' _ x' b' hx' hb'
        have hne : x'.block ≠ m.fresh := by
          intro hxf
          exact Nat.lt_irrefl _ (hxf ▸ hshape.freshBlocks _ (hshape.entryBlock e' x' hx'))
        exact ⟨b', (Function.update_of_ne hne _ _).trans hb', rfl⟩
      · rfl
      · rfl

theorem insertEntry_eq {m₁ : ToolMemory} {p : Nat} {id dsml : List UInt8} {source : ToolMemorySource}
    (hget : m.getBlock dsml = some (m₁, p)) (hb : m₁.blockAt p = some b)
    (hnew : (Rax.raxInsert m₁.byId id m₁.fresh).2.2 = true) :
    m.insertEntry id dsml source = (m₁.addEntry id p b source).prune := by
  simp [insertEntry, hget, hb, hnew, setEntry, setBlock, addEntry]

/-- A new id is put in front, and the memory is pruned. -/
theorem Keeps.insertEntry (h : m.Keeps l) {id dsml : List UInt8} (hid : id ≠ []) (hdsml : dsml ≠ [])
    (hidLen : id.length ≤ Rax.raxNodeMaxSize) (hdsmlLen : dsml.length ≤ Rax.raxNodeMaxSize)
    (hnew : m.ids id = none) (source : ToolMemorySource) :
    ∃ m' l', m.insertEntry id dsml source = some m' ∧ m'.Keeps l' ∧ m'.fits = m.fits ∧
      l'.map m'.item = Lru.prune m.fits ((id, dsml) :: l.map m.item) ∧
      ∀ (sources : List UInt8 → ToolMemorySource), sources id = source →
        (∀ e x, m.entryAt e = some x → sources x.id = x.source) →
        ∀ e x, m'.entryAt e = some x → sources x.id = x.source := by
  obtain ⟨m₁, p, b, blocks, cells, hget, hshape, htight, hb, hbd, hbyId, hentryAt, hframe⟩ :=
    h.getBlock hdsml hdsmlLen
  have hnew₁ : m₁.ids id = none := by
    rw [ids, hbyId]
    exact hnew
  have hshape₂ : (m₁.addEntry id p b source).Shape (m₁.fresh :: l) blocks _ :=
    hshape.addEntry hid hidLen hnew₁ hb
  have hfreshId := (Rax.raxInsert_represents hshape.idTree hidLen m₁.fresh).2
  rw [hnew₁] at hfreshId
  have hfresh : m₁.fresh ∉ l := fun he => Nat.lt_irrefl _ (hshape.freshEntries _ he)
  have hkeeps₂ : (m₁.addEntry id p b source).Keeps (m₁.fresh :: l) := by
    refine ⟨blocks, _, hshape₂, ?_⟩
    intro p' hp'
    by_cases hpp : p' = p
    · rw [hpp, Function.update_self]
      simp
    · rw [Function.update_of_ne hpp]
      exact htight p' hp' hpp
  have hframe₂ : Frame m₁ (m₁.addEntry id p b source) l := by
    apply hshape.frame (List.Subset.refl l)
    · intro e' he' x' hx'
      have hne : e' ≠ m₁.fresh := fun hef => hfresh (hef ▸ he')
      exact ⟨x', (Function.update_of_ne hne _ _).trans hx', rfl, rfl, rfl⟩
    · intro e' _ x' b' _ hb'
      by_cases hpp : x'.block = p
      · rw [hpp] at hb' ⊢
        obtain rfl := Option.some.inj (hb.symm.trans hb')
        exact ⟨_, Function.update_self .., rfl⟩
      · exact ⟨b', (Function.update_of_ne hpp _ _).trans hb', rfl⟩
    · rfl
    · rfl
  have hmine : (m₁.addEntry id p b source).item m₁.fresh = (id, dsml) := by
    rw [item_eq (Function.update_self ..) (Function.update_self ..)]
    exact congrArg (Prod.mk id) hbd
  obtain ⟨m', l', back, hprune, hkeeps', hl', hframe', hitems⟩ := hkeeps₂.prune
  refine ⟨m', l', (insertEntry_eq hget hb hfreshId).trans hprune, hkeeps', ?_, ?_, ?_⟩
  · rw [hframe'.fits, hframe₂.fits, hframe.fits]
  · rw [hitems, List.map_cons, hmine, hframe₂.items, hframe.items, hframe₂.fits, hframe.fits]
  · intro sources hmySource hsource
    have hsub : l' ⊆ m₁.fresh :: l := by
      rw [hl']
      exact List.subset_append_left l' back
    apply hkeeps₂.sources hkeeps' hframe' hsub
    intro e x hx
    by_cases he : e = m₁.fresh
    · subst he
      have hself : (m₁.addEntry id p b source).entryAt m₁.fresh =
          some { id := id, block := p, bytes := id.length + 1 + sizeofToolMemoryEntry,
                 stamp := m₁.clock + 1, source := source } := Function.update_self ..
      obtain rfl := Option.some.inj (hself.symm.trans hx)
      exact hmySource
    · have hx₁ : m₁.entryAt e = some x := (Function.update_of_ne he _ _).symm.trans hx
      exact hsource e x (hentryAt ▸ hx₁)

theorem Represents.setSource {a : Recall} (h : m.Represents a) (hx : m.entryAt e = some x)
    (source : ToolMemorySource) :
    (m.setEntry e (some { x with source := source })).Represents
      { a with source := Function.update a.source x.id source } := by
  obtain ⟨l, hkeeps, hitems, hsource⟩ := h
  have hkeeps' : (m.setEntry e (some { x with source := source })).Keeps l := by
    obtain ⟨blocks, cells, hshape, htight⟩ := hkeeps
    exact ⟨blocks, cells, hshape.setEntry hx rfl, htight⟩
  have hitem : ∀ e' ∈ l, (m.setEntry e (some { x with source := source })).item e' = m.item e' := by
    intro e' _
    by_cases he : e' = e
    · subst he
      simp [item, textOf, setEntry, hx]
    · simp [item, textOf, setEntry, he]
  refine ⟨l, hkeeps', hitems.trans (List.map_congr_left hitem).symm, ?_⟩
  intro e' y hy
  have hy' : Function.update m.entryAt e (some { x with source := source }) e' = some y := hy
  by_cases he : e' = e
  · rw [he, Function.update_self] at hy'
    obtain rfl := Option.some.inj hy'
    exact Function.update_self ..
  · rw [Function.update_of_ne he] at hy'
    have hid : y.id ≠ x.id := by
      intro hid
      obtain ⟨blocks, cells, hshape, -⟩ := hkeeps
      exact he (hshape.id_inj hy' hx hid)
    exact (Function.update_of_ne hid _ _).trans (hsource e' y hy')

/-- Using an entry again, and then pruning. -/
theorem Represents.use {a : Recall} (h : m.Represents a) (hx : m.entryAt e = some x)
    (hb : m.blockAt x.block = some b) :
    ∃ m₁ m', m.touch e = some m₁ ∧ m₁.prune = some m' ∧ m'.fits = m.fits ∧
      m'.Represents { a with items := Lru.prune m.fits (Lru.use x.id b.dsml a.items) } := by
  obtain ⟨l, hkeeps, hitems, hsource⟩ := h
  obtain ⟨m₁, htouch, hkeeps₁, hframe, -⟩ := hkeeps.touch hx
  obtain ⟨m', l', back, hprune, hkeeps', hl', hframe', hitems'⟩ := hkeeps₁.prune
  have hsub₁ : e :: l.erase e ⊆ l := (List.perm_cons_erase (hkeeps.mem hx)).symm.subset
  have hsub : l' ⊆ l := by
    intro e' he'
    apply hsub₁
    rw [hl']
    exact List.mem_append_left back he'
  have huse : (e :: l.erase e).map m₁.item = Lru.use x.id b.dsml a.items := by
    rw [List.map_congr_left fun e' he' => hframe.item e' (hsub₁ he'), List.map_cons, item_eq hx hb,
      hkeeps.without hx, hitems]
    rfl
  refine ⟨m₁, m', htouch, hprune, hframe'.fits.trans hframe.fits, l', hkeeps', ?_, ?_⟩
  · show Lru.prune m.fits (Lru.use x.id b.dsml a.items) = _
    rw [hitems', huse, hframe.fits]
  · have hall : Frame m m' l' := by
      apply Frame.trans hframe hframe' hsub
    exact hkeeps.sources hkeeps' hall hsub hsource

/-- A put with a new id. -/
theorem Represents.insert {a : Recall} (h : m.Represents a) {id dsml : List UInt8} (hid : id ≠ [])
    (hdsml : dsml ≠ []) (hidLen : id.length ≤ Rax.raxNodeMaxSize) (hdsmlLen : dsml.length ≤ Rax.raxNodeMaxSize)
    (hfind : a.find id = none) (source : ToolMemorySource) :
    ∃ m', m.insertEntry id dsml source = some m' ∧ m'.fits = m.fits ∧
      m'.Represents { items := Lru.prune m.fits (Lru.use id dsml a.items)
                      source := Function.update a.source id source } := by
  have hbyId := (h.findEntry_none hfind).2
  obtain ⟨l, hkeeps, hitems, hsource⟩ := h
  obtain ⟨m', l', hinsert, hkeeps', hfits, hitems', hsources⟩ :=
    hkeeps.insertEntry hid hdsml hidLen hdsmlLen hbyId source
  have hwithout : Lru.without id a.items = a.items :=
    Lru.without_of_not_mem (Lru.find_eq_none_iff.mp hfind)
  refine ⟨m', hinsert, hfits, l', hkeeps', ?_, ?_⟩
  · show Lru.prune m.fits (Lru.use id dsml a.items) = _
    rw [hitems', Lru.use, hwithout, hitems]
  · apply hsources _ (Function.update_self ..)
    intro e x hx
    have hxid : x.id ≠ id := by
      intro hxid
      have hsome := hkeeps.byId.mpr ⟨x, hx, hxid⟩
      rw [hbyId] at hsome
      exact absurd hsome (by simp)
    exact (Function.update_of_ne hxid _ _).trans (hsource e x hx)

/-- `tool_memory_put_locked` puts the call in front of the map and prunes it. -/
theorem Represents.put {a : Recall} (h : m.Represents a) {id dsml : List UInt8}
    (hidLen : id.length ≤ Rax.raxNodeMaxSize) (hdsmlLen : dsml.length ≤ Rax.raxNodeMaxSize)
    (source : ToolMemorySource) :
    ∃ m', m.put id dsml source = some m' ∧ m'.fits = m.fits ∧
      m'.Represents (a.put m.fits id dsml source) := by
  by_cases hempty : id = [] ∨ dsml = []
  · refine ⟨m, if_pos hempty, rfl, ?_⟩
    rw [Recall.put, if_pos hempty]
    exact h
  obtain ⟨hid, hdsml⟩ := not_or.mp hempty
  rw [Recall.put, if_neg hempty, ToolMemory.put, if_neg hempty]
  cases hfind : a.find id with
  | none =>
    rw [(h.findEntry_none hfind).1]
    obtain ⟨m', hinsert, hfits, hrep⟩ := h.insert hid hdsml hidLen hdsmlLen hfind source
    refine ⟨m', hinsert, hfits, ?_⟩
    have hne : Lru.find id a.items ≠ some dsml := by
      rw [show Lru.find id a.items = none from hfind]
      simp
    rw [if_neg fun hsame => hne hsame.1]
    exact hrep
  | some d =>
    obtain ⟨e, x, b, hentry, hx, hxid, hsrc, hb, hbd⟩ := h.entry_of_find hfind
    rw [hentry]
    by_cases hsame : d = dsml
    · -- the id has this text already
      subst hsame
      have hlen : b.len = d.length := by
        obtain ⟨l, ⟨blocks, cells, hshape, -⟩, -⟩ := h
        rw [(hshape.blockText x.block b hb).2.1, hbd]
      let y : ToolMemoryEntry := { x with source := if source = .ram then .ram else x.source }
      have hy : (m.setEntry e (some y)).entryAt e = some y := Function.update_self ..
      obtain ⟨m₁, m', htouch, hprune, hfits, hrep⟩ := (h.setSource hx y.source).use hy hb
      have hput : (m.entryAt e).bind (fun x => (m.blockAt x.block).bind fun b =>
          if b.len = d.length ∧ b.dsml = d then
            ((if source = .ram then m.setEntry e (some { x with source := .ram }) else m).touch e).bind
              ToolMemory.prune
          else (m.removeEntry e).bind fun m => m.insertEntry id d source) = some m' := by
        have hset : (if source = .ram then m.setEntry e (some { x with source := .ram }) else m) =
            m.setEntry e (some y) := by
          cases source with
          | ram => rfl
          | disk =>
            show m = { m with entryAt := Function.update m.entryAt e (some x) }
            rw [← hx, Function.update_eq_self]
        rw [hx, Option.bind_some, hb, Option.bind_some, if_pos ⟨hlen, hbd⟩, hset, htouch]
        exact hprune
      refine ⟨m', hput, hfits, ?_⟩
      have hsources : (if Lru.find id a.items = some d ∧ source = .disk then a.source id else source) =
          y.source := by
        rw [show Lru.find id a.items = some d from hfind, hsrc]
        cases source with
        | ram => simp [y]
        | disk => simp [y]
      rw [hsources, ← hxid, ← hbd]
      exact hrep
    · -- another text: the old entry goes first
      have hdiff : ¬(b.len = dsml.length ∧ b.dsml = dsml) := fun hboth => hsame (hbd.symm.trans hboth.2)
      obtain ⟨l, hkeeps, hitems, hsource⟩ := h
      obtain ⟨m₁, hremove, hkeeps₁, hframe⟩ := hkeeps.removeEntry (hkeeps.mem hx)
      have hrep₁ : m₁.Represents { a with items := Lru.without id a.items } := by
        refine ⟨l.erase e, hkeeps₁, ?_, hkeeps.sources hkeeps₁ hframe List.erase_subset hsource⟩
        show Lru.without id a.items = _
        rw [hframe.items, hkeeps.without hx, hxid, hitems]
      have hfind₁ : Recall.find { a with items := Lru.without id a.items } id = none := by
        rw [Recall.find, Lru.find_eq_none_iff, List.mem_map]
        intro ⟨y, hy, hyid⟩
        exact (Lru.mem_without.mp hy).2 hyid
      obtain ⟨m', hinsert, hfits, hrep⟩ := hrep₁.insert hid hdsml hidLen hdsmlLen hfind₁ source
      refine ⟨m', ?_, hfits.trans hframe.fits, ?_⟩
      · have hput : (m.entryAt e).bind (fun x => (m.blockAt x.block).bind fun b =>
            if b.len = dsml.length ∧ b.dsml = dsml then
              ((if source = .ram then m.setEntry e (some { x with source := .ram }) else m).touch e).bind
                ToolMemory.prune
            else (m.removeEntry e).bind fun m => m.insertEntry id dsml source) = some m' := by
          rw [hx, Option.bind_some, hb, Option.bind_some, if_neg hdiff, hremove]
          exact hinsert
        exact hput
      · have hother : ¬(Lru.find id a.items = some dsml ∧ source = .disk) := by
          intro hboth
          rw [show Lru.find id a.items = some d from hfind] at hboth
          exact hsame (Option.some.inj hboth.1)
        have hwithout : Lru.use id dsml (Lru.without id a.items) = Lru.use id dsml a.items := by
          rw [Lru.use, Lru.use, Lru.without, Lru.without, List.filter_filter]
          simp
        rw [if_neg hother, ← hwithout, ← hframe.fits]
        exact hrep

end ToolMemory

end Spark.Server
