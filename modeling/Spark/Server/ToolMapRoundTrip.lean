import Spark.Server.Markers
import Spark.Server.ToolMap
import Spark.Server.ToolReplay

/-!
# The scan and the entries of a tool map

The map that is written with a prompt holds the calls that are remembered with a block of the prompt: they are what a
scan over its blocks meets, and each is an entry of the file.

* **`scan_spec`** — a scan visits every remembered block of a text once, and marks it.
* **`scanned_perm`** — the entries it meets are those that are remembered with one of the blocks.
* **`measure_items`**, **`write_items`** — their size and their bytes.
* **`load_entries`** — the entries of a file are put into the memory one after the other.
-/

namespace Spark.Server

open FixedCodec

theorem toolBlocks_nil : toolBlocks [] = [] := by decide +kernel

/-! ## The scan -/

section Scan

open LinkedList

variable {m : ToolMemory} {l blocks : List Nat} {cells : Nat → List Nat}

namespace ToolMemory

/-- The memory with other marks of its scans. -/
def remark (m : ToolMemory) (scanClock : UInt64) (marks : Nat → UInt64) : ToolMemory :=
  { m with scanClock, blockAt := fun p => (m.blockAt p).map fun b => { b with seen := marks p } }

theorem remark_self (m : ToolMemory) :
    m.remark m.scanClock (fun p => (m.blockAt p).elim 0 fun b => b.seen) = m := by
  have hblocks : (fun p => (m.blockAt p).map fun b =>
      { b with seen := (m.blockAt p).elim 0 fun b => b.seen }) = m.blockAt := by
    funext p
    cases hblock : m.blockAt p with
    | none => rfl
    | some b => rfl
  rw [remark, hblocks]

theorem remark_block {clock : UInt64} {marks : Nat → UInt64} {p : Nat} {b : ToolMemoryBlock} :
    (m.remark clock marks).blockAt p = some b ↔
      ∃ b', m.blockAt p = some b' ∧ b = { b' with seen := marks p } := by
  show (m.blockAt p).map _ = some b ↔ _
  rw [Option.map_eq_some_iff]
  constructor
  · rintro ⟨b', hb, rfl⟩
    exact ⟨b', hb, rfl⟩
  · rintro ⟨b', hb, rfl⟩
    exact ⟨b', hb, rfl⟩

/-- Marks are nothing to the shape. -/
theorem Shape.remark (h : m.Shape l blocks cells) (clock : UInt64) (marks : Nat → UInt64) :
    (m.remark clock marks).Shape l blocks cells := by
  have hview (p : Nat) : ((m.remark clock marks).blockAt p).map blockView = (m.blockAt p).map blockView := by
    show ((m.blockAt p).map _).map _ = _
    cases m.blockAt p <;> rfl
  exact { h with
    blockAt := fun p => (h.blockAt p).trans (some_view (hview p)).symm
    byBlock := fun dsml p => (h.byBlock dsml p).trans (exists_view (hview p) fun b => b.1 = dsml).symm
    blockText := fun p => (forall_view (hview p) fun b => b.1 ≠ [] ∧ b.2.1 = b.1.length ∧
      b.2.2 = b.1.length + 1 + sizeofToolMemoryBlock).mpr (h.blockText p)
    blockRefs := by
      intro p b hb
      obtain ⟨b', hb', rfl⟩ := remark_block.mp hb
      exact h.blockRefs p b' hb'
    blockChain := by
      intro p b hb
      obtain ⟨b', hb', rfl⟩ := remark_block.mp hb
      exact h.blockChain p b' hb'
    bytes := by
      have hsame : (m.remark clock marks).blockBytes = m.blockBytes := funext fun p => blockBytes_view (hview p)
      rw [hsame]
      exact h.bytes }

theorem remark_item (clock : UInt64) (marks : Nat → UInt64) : (m.remark clock marks).item = m.item := by
  funext e
  show ((m.entryAt e).elim [] _, ((m.entryAt e).bind fun x => (m.blockAt x.block).map _).elim [] _) =
    ((m.entryAt e).elim [] _, ((m.entryAt e).bind fun x => m.blockAt x.block).elim [] _)
  cases m.entryAt e with
  | none => rfl
  | some x =>
    show (_, ((m.blockAt x.block).map _).elim [] _) = (_, (m.blockAt x.block).elim [] _)
    cases m.blockAt x.block with
    | none => rfl
    | some b => rfl

/-- Marks are nothing to the map. -/
theorem Represents.remark {a : Recall} (h : m.Represents a) (clock : UInt64) (marks : Nat → UInt64) :
    (m.remark clock marks).Represents a := by
  obtain ⟨l, ⟨blocks, cells, hshape, htight⟩, hitems, hsource⟩ := h
  refine ⟨l, ⟨blocks, cells, hshape.remark clock marks, htight⟩, ?_, hsource⟩
  rw [remark_item]
  exact hitems

/-- Marking a block. -/
theorem remark_setBlock {clock : UInt64} {marks : Nat → UInt64} {p : Nat} {b : ToolMemoryBlock}
    (hb : m.blockAt p = some b) (scan : UInt64) :
    (m.remark clock marks).setBlock p (some { b with seen := scan }) =
      m.remark clock (Function.update marks p scan) := by
  have hblocks : Function.update (m.remark clock marks).blockAt p (some { b with seen := scan }) =
      (m.remark clock (Function.update marks p scan)).blockAt := by
    funext p'
    by_cases hp : p' = p
    · rw [hp, Function.update_self]
      symm
      apply remark_block.mpr
      exact ⟨b, hb, by rw [Function.update_self]⟩
    · rw [Function.update_of_ne hp]
      show (m.blockAt p').map _ = (m.blockAt p').map _
      rw [Function.update_of_ne hp]
  rw [setBlock, hblocks]
  rfl

theorem chainIds_spec (h : m.Shape l blocks cells) {start : Option Nat} {chain : List Nat} {fuel : Nat}
    (hchain : Chain m.blockNext start chain) (hmem : ∀ e ∈ chain, e ∈ l) (hfuel : chain.length ≤ fuel) :
    m.chainIds fuel start = some (chain.map fun e => (m.item e).1) := by
  induction chain generalizing start fuel with
  | nil =>
    have hend : start = none := hchain
    subst hend
    cases fuel with
    | zero => rfl
    | succ fuel => rfl
  | cons e chain ih =>
    obtain ⟨rfl, hrest⟩ := hchain
    obtain ⟨fuel, rfl⟩ : ∃ n, fuel = n + 1 := ⟨fuel - 1, by rw [List.length_cons] at hfuel; omega⟩
    obtain ⟨x, hx⟩ := h.entry (hmem e List.mem_cons_self)
    have hids : m.chainIds fuel (m.blockNext e) = some (chain.map fun e => (m.item e).1) :=
      ih hrest (fun e' he' => hmem e' (List.mem_cons_of_mem _ he')) (Nat.le_of_succ_le_succ hfuel)
    rw [chainIds, hx, Option.bind_some, hids]
    have hitem : (m.item e).1 = x.id := by
      rw [item, hx]
      rfl
    rw [Option.map_some, List.map_cons, hitem]

/-- The blocks that a scan visits which has visited `done`. -/
def newBlocks (m : ToolMemory) : List Nat → List (List UInt8) → List Nat
  | _, [] => []
  | done, text :: texts =>
    match m.findBlock text with
    | none => newBlocks m done texts
    | some p => if p ∈ done then newBlocks m done texts else p :: newBlocks m (p :: done) texts

/-- The calls of the blocks that a scan visits, in the order it meets them. -/
def scanned (m : ToolMemory) (cells : Nat → List Nat) (done : List Nat) (texts : List (List UInt8)) :
    List (List UInt8 × List UInt8) :=
  (m.newBlocks done texts).flatMap fun p => (cells p).map m.item

end ToolMemory

theorem foldlM_congr {α β : Type} {f g : β → α → Option β} {list : List α}
    (h : ∀ x ∈ list, ∀ acc, f acc x = g acc x) (acc : β) : list.foldlM f acc = list.foldlM g acc := by
  induction list generalizing acc with
  | nil => rfl
  | cons x list ih =>
    rw [List.foldlM_cons, List.foldlM_cons, h x List.mem_cons_self]
    congr 1
    funext acc
    exact ih (fun x hmem => h x (List.mem_cons_of_mem _ hmem)) acc

/-- A visit of an entry, by what it reads of its block. -/
def Visits {β : Type} (visit : ToolMemoryBlock → β → List UInt8 → Option β)
    (visit' : β → List UInt8 × List UInt8 → Option β) : Prop :=
  ∀ b acc id, b.len = b.dsml.length → visit b acc id = visit' acc (id, b.dsml)

open ToolMemory in
/-- A scan visits the entries of each remembered block of its texts, each block once, and leaves marks. -/
theorem scan_spec {β : Type} {visit : ToolMemoryBlock → β → List UInt8 → Option β}
    {visit' : β → List UInt8 × List UInt8 → Option β} (hvisit : Visits visit visit') (h : m.Shape l blocks cells)
    (clock scan : UInt64) (texts : List (List UInt8)) (marks : Nat → UInt64) (done : List Nat) (acc : β)
    (hmarks : ∀ p ∈ blocks, marks p = scan ↔ p ∈ done) :
    ∃ marks', scanBlocks visit scan texts (m.remark clock marks) acc =
        some (m.remark clock marks', (m.scanned cells done texts).foldlM visit' acc) ∧
      ∀ p ∈ blocks, marks' p = marks p ∨ marks' p = scan := by
  induction texts generalizing marks done acc with
  | nil => exact ⟨marks, rfl, fun p _ => .inl rfl⟩
  | cons text texts ih =>
    rw [scanBlocks, ToolMemory.scanned, ToolMemory.newBlocks]
    have hsame : (m.remark clock marks).findBlock text = m.findBlock text := rfl
    rw [hsame]
    cases hfind : m.findBlock text with
    | none => exact ih marks done acc hmarks
    | some p =>
      dsimp only
      -- the block is one of the memory's own
      have hby : m.texts text = some p := by
        rw [ToolMemory.findBlock] at hfind
        split at hfind
        · cases hfind
        · exact (h.blockTree.find text).symm.trans hfind
      obtain ⟨b, hb, -⟩ := (h.byBlock text p).mp hby
      have hp : p ∈ blocks := (h.blockAt p).mpr ⟨b, hb⟩
      have hmarked : (m.remark clock marks).blockAt p = some { b with seen := marks p } :=
        remark_block.mpr ⟨b, hb, rfl⟩
      rw [hmarked, Option.bind_some]
      by_cases hdone : p ∈ done
      · rw [if_pos hdone, if_pos ((hmarks p hp).mpr hdone)]
        exact ih marks done acc hmarks
      · rw [if_neg hdone, if_neg fun hseen => hdone ((hmarks p hp).mp hseen)]
        dsimp only
        have hset := @remark_setBlock m clock marks p b hb scan
        rw [show ({ ({ b with seen := marks p } : ToolMemoryBlock) with seen := scan } : ToolMemoryBlock) =
          { b with seen := scan } from rfl, hset]
        have hshape := h.remark clock (Function.update marks p scan)
        have hids := chainIds_spec hshape (h.blockChain p b hb) (fun e he => h.cells_subset p he) (h.length_cells p)
        rw [remark_item] at hids
        have htext := (h.blockText p b hb).2.1
        -- the entries of the block, as they stand in the map
        have hfold : ((cells p).map fun e => (m.item e).1).foldlM (visit { b with seen := marks p }) acc =
            ((cells p).map m.item).foldlM visit' acc := by
          rw [List.foldlM_map, List.foldlM_map]
          apply foldlM_congr
          intro e he acc
          obtain ⟨x, hx, hxp⟩ := (h.memCells p e).mp he
          have hitem : m.item e = (x.id, b.dsml) := item_eq hx (by rw [hxp]; exact hb)
          rw [hitem]
          exact hvisit _ acc x.id htext
        have hchain : (m.remark clock (Function.update marks p scan)).chainIds
            (m.remark clock (Function.update marks p scan)).fresh b.entries =
              some ((cells p).map fun e => (m.item e).1) := hids
        rw [hchain, Option.bind_some, hfold, List.flatMap_cons, List.foldlM_append]
        cases hmiddle : ((cells p).map m.item).foldlM visit' acc with
        | none =>
          refine ⟨Function.update marks p scan, rfl, fun p' _ => ?_⟩
          by_cases hsame : p' = p
          · rw [hsame, Function.update_self]
            exact .inr rfl
          · rw [Function.update_of_ne hsame]
            exact .inl rfl
        | some middle =>
          obtain ⟨marks', hscan, hkept⟩ := ih (Function.update marks p scan) (p :: done) middle (fun p' hp' => by
            by_cases hsame : p' = p
            · rw [hsame, Function.update_self]
              exact iff_of_true rfl List.mem_cons_self
            · rw [Function.update_of_ne hsame, hmarks p' hp', List.mem_cons, or_iff_right hsame])
          refine ⟨marks', hscan, fun p' hp' => ?_⟩
          rcases hkept p' hp' with hold | hnew
          · by_cases hsame : p' = p
            · rw [hsame, Function.update_self] at hold
              rw [hsame]
              exact .inr hold
            · rw [Function.update_of_ne hsame] at hold
              exact .inl hold
          · exact .inr hnew

end Scan

/-! ## What is scanned -/

section Scanned

variable {m : ToolMemory} {l blocks : List Nat} {cells : Nat → List Nat} {texts : List (List UInt8)}

open ToolMemory

theorem mem_newBlocks {done : List Nat} {p : Nat} :
    p ∈ m.newBlocks done texts ↔ p ∉ done ∧ ∃ text ∈ texts, m.findBlock text = some p := by
  induction texts generalizing done with
  | nil => simp [newBlocks]
  | cons text texts ih =>
    rw [newBlocks]
    cases hfind : m.findBlock text with
    | none =>
      rw [ih]
      simp [hfind]
    | some q =>
      dsimp only
      split
      case isTrue hdone =>
        rw [ih]
        constructor
        · rintro ⟨hp, text', hmem, hfound⟩
          exact ⟨hp, text', List.mem_cons_of_mem _ hmem, hfound⟩
        · rintro ⟨hp, text', hmem, hfound⟩
          rcases List.mem_cons.mp hmem with rfl | hmem
          · rw [hfind] at hfound
            cases hfound
            exact absurd hdone hp
          · exact ⟨hp, text', hmem, hfound⟩
      case isFalse hnew =>
        rw [List.mem_cons, ih, List.mem_cons, not_or]
        constructor
        · rintro (rfl | ⟨⟨-, hp⟩, text', hmem, hfound⟩)
          · exact ⟨hnew, text, List.mem_cons_self, hfind⟩
          · exact ⟨hp, text', List.mem_cons_of_mem _ hmem, hfound⟩
        · rintro ⟨hp, text', hmem, hfound⟩
          by_cases hsame : p = q
          · exact .inl hsame
          · rcases List.mem_cons.mp hmem with rfl | hmem
            · rw [hfind] at hfound
              cases hfound
              exact absurd rfl hsame
            · exact .inr ⟨⟨hsame, hp⟩, text', hmem, hfound⟩

theorem nodup_newBlocks (done : List Nat) : (m.newBlocks done texts).Nodup := by
  induction texts generalizing done with
  | nil => exact List.nodup_nil
  | cons text texts ih =>
    rw [newBlocks]
    cases m.findBlock text with
    | none => exact ih done
    | some p =>
      dsimp only
      split
      · exact ih done
      · apply List.nodup_cons.mpr
        refine ⟨fun hmem => ?_, ih (p :: done)⟩
        exact (mem_newBlocks.mp hmem).1 List.mem_cons_self

/-- The entries of different blocks are different. -/
theorem nodup_cells (h : m.Shape l blocks cells) {ps : List Nat} (hps : ps.Nodup) : (ps.flatMap cells).Nodup := by
  apply List.nodup_flatMap.mpr
  refine ⟨fun p _ => h.nodupCells p, hps.imp fun hne => ?_⟩
  intro e he he'
  obtain ⟨x, hx, hxp⟩ := (h.memCells _ e).mp he
  obtain ⟨x', hx', hxp'⟩ := (h.memCells _ e).mp he'
  rw [hx] at hx'
  cases hx'
  exact hne (hxp.symm.trans hxp')

/-- What a scan meets is what is remembered with one of its texts. -/
theorem scanned_perm (h : m.Shape l blocks cells) :
    (m.scanned cells [] texts).Perm ((l.map m.item).filter fun item => decide (item.2 ∈ texts)) := by
  have hentries : ((m.newBlocks [] texts).flatMap cells).Perm
      (l.filter fun e => decide ((m.item e).2 ∈ texts)) := by
    apply (List.perm_ext_iff_of_nodup (nodup_cells h (nodup_newBlocks [])) (h.lru.nodup.filter _)).mpr
    intro e
    rw [List.mem_flatMap, List.mem_filter, decide_eq_true_iff]
    constructor
    · rintro ⟨p, hp, he⟩
      obtain ⟨-, text, htext, hfind⟩ := mem_newBlocks.mp hp
      obtain ⟨x, hx, rfl⟩ := (h.memCells p e).mp he
      have hby : m.texts text = some x.block := by
        rw [findBlock] at hfind
        split at hfind
        · cases hfind
        · exact (h.blockTree.find text).symm.trans hfind
      obtain ⟨b, hb, rfl⟩ := (h.byBlock text x.block).mp hby
      rw [item_eq hx hb]
      exact ⟨h.mem hx, htext⟩
    · rintro ⟨he, htext⟩
      obtain ⟨x, hx⟩ := h.entry he
      obtain ⟨b, hb⟩ := (h.blockAt x.block).mp (h.entryBlock e x hx)
      rw [item_eq hx hb] at htext
      have hfind : m.findBlock b.dsml = some x.block := by
        rw [findBlock, if_neg (h.blockText x.block b hb).1, h.blockTree.find]
        exact (h.byBlock b.dsml x.block).mpr ⟨b, hb, rfl⟩
      refine ⟨x.block, ?_, (h.memCells x.block e).mpr ⟨x, hx, rfl⟩⟩
      exact mem_newBlocks.mpr ⟨List.not_mem_nil, b.dsml, htext, hfind⟩
  have hmap := hentries.map m.item
  rw [List.map_flatMap] at hmap
  refine hmap.trans ?_
  rw [List.filter_map]
  exact List.Perm.refl _

end Scanned

/-! ## The size and the bytes -/

section Sizes

variable {items : List (List UInt8 × List UInt8)} {item : List UInt8 × List UInt8}

/-- The bytes of an entry in the file. -/
def mapItemSize (item : List UInt8 × List UInt8) : Nat := 8 + item.1.length + item.2.length

/-- The entries of a map, one behind the other. -/
def itemBytes (items : List (List UInt8 × List UInt8)) : List UInt8 :=
  items.flatMap fun item => entryBytesOf item.1 item.2

def measureItem (acc : Nat × Nat) (item : List UInt8 × List UInt8) : Option (Nat × Nat) :=
  if ¬ entryFits item.1.length item.2.length then some acc
  else if acc.1 = mapUint32Max then none
  else if mapUint64Max - acc.2 < 8 ∨ mapUint64Max - acc.2 - 8 < item.1.length ∨
      mapUint64Max - acc.2 - 8 - item.1.length < item.2.length then none
  else some (acc.1 + 1, acc.2 + mapItemSize item)

def writeItem (room : Nat) (file : List UInt8) (item : List UInt8 × List UInt8) : Option (List UInt8) :=
  if ¬ entryFits item.1.length item.2.length then some file
  else
    let file := file ++ entryBytesOf item.1 item.2
    if file.length ≤ room then some file else none

theorem visits_measure : Visits measureEntry measureItem := by
  intro b acc id hlen
  rw [measureEntry, measureItem, hlen]
  rfl

theorem visits_write (room : Nat) : Visits (writeEntry room) (writeItem room) := by
  intro b file id hlen
  rw [writeEntry, writeItem, hlen, List.take_length]

theorem length_entryBytesOf (item : List UInt8 × List UInt8) :
    (entryBytesOf item.1 item.2).length = mapItemSize item := by
  rw [entryBytesOf, List.length_append, List.length_append, entryLengths.length_enc, mapItemSize]
  show 8 + _ = _
  omega

/-- So many entries are counted and sized without an overflow. -/
theorem measure_items (hitems : ∀ item ∈ items, entryFits item.1.length item.2.length = true) (acc : Nat × Nat)
    (hcount : acc.1 + items.length ≤ mapUint32Max) (hsize : acc.2 + (itemBytes items).length ≤ mapUint64Max) :
    items.foldlM measureItem acc = some (acc.1 + items.length, acc.2 + (itemBytes items).length) := by
  induction items generalizing acc with
  | nil => rfl
  | cons item items ih =>
    have hbytes : (itemBytes (item :: items)).length = mapItemSize item + (itemBytes items).length := by
      rw [itemBytes, List.flatMap_cons, List.length_append, length_entryBytesOf]
      rfl
    rw [List.length_cons] at hcount
    rw [hbytes] at hsize
    have hcounted : acc.1 ≠ mapUint32Max := by omega
    have hroom : ¬ (mapUint64Max - acc.2 < 8 ∨ mapUint64Max - acc.2 - 8 < item.1.length ∨
        mapUint64Max - acc.2 - 8 - item.1.length < item.2.length) := by
      unfold mapItemSize at hsize
      omega
    have hnext : measureItem acc item = some (acc.1 + 1, acc.2 + mapItemSize item) := by
      rw [measureItem, if_neg (not_not.mpr (hitems item List.mem_cons_self)), if_neg hcounted, if_neg hroom]
    rw [List.foldlM_cons, hnext]
    show items.foldlM measureItem (acc.1 + 1, acc.2 + mapItemSize item) = _
    rw [ih (fun item hmem => hitems item (List.mem_cons_of_mem _ hmem)) _ (by dsimp only; omega)
      (by dsimp only; omega), hbytes, List.length_cons]
    dsimp only
    rw [Nat.add_assoc, Nat.add_assoc, Nat.add_comm 1]

/-- So many entries are written in whole, or the disk is full. -/
theorem write_items (hitems : ∀ item ∈ items, entryFits item.1.length item.2.length = true) {room : Nat}
    (file : List UInt8) (hfile : file.length ≤ room) :
    items.foldlM (writeItem room) file =
      if (file ++ itemBytes items).length ≤ room then some (file ++ itemBytes items) else none := by
  induction items generalizing file with
  | nil =>
    rw [itemBytes, List.flatMap_nil, List.append_nil, if_pos hfile]
    rfl
  | cons item items ih =>
    have hbytes : file ++ itemBytes (item :: items) = file ++ entryBytesOf item.1 item.2 ++ itemBytes items := by
      rw [itemBytes, itemBytes, List.flatMap_cons, List.append_assoc]
    rw [List.foldlM_cons, writeItem, if_neg (not_not.mpr (hitems item List.mem_cons_self)), hbytes]
    by_cases hroom : (file ++ entryBytesOf item.1 item.2).length ≤ room
    · rw [if_pos hroom]
      exact ih (fun item hmem => hitems item (List.mem_cons_of_mem _ hmem)) _ hroom
    · rw [if_neg hroom, if_neg fun hall => hroom ?_]
      · rfl
      · rw [List.length_append] at hall
        omega

end Sizes

/-! ## The way back -/

section Loading

variable {items : List (List UInt8 × List UInt8)} {item : List UInt8 × List UInt8}

/-- The id and the text are C strings. -/
def ZeroFree (item : List UInt8 × List UInt8) : Prop := 0 ∉ item.1 ∧ 0 ∉ item.2

/-- The lengths of an entry that a loader takes. -/
def loadable (item : List UInt8 × List UInt8) : Bool :=
  decide (item.1 ≠ [] ∧ item.1.length ≤ 256 ∧ item.2 ≠ [] ∧ item.2.length ≤ toolMemoryMaxBytesDefault)

def askedFor (wanted : Option (List (List UInt8))) (item : List UInt8 × List UInt8) : Bool :=
  wanted.all fun ids => idListContains ids item.1

/-- What is loaded of a map: its entries up to one that is not well formed, and of them those that are asked for. -/
def loadedItems (wanted : Option (List (List UInt8))) (items : List (List UInt8 × List UInt8)) :
    List (List UInt8 × List UInt8) :=
  (items.takeWhile loadable).filter (askedFor wanted)

/-- Calls put into a map one after the other. -/
def Recall.putFromDisk (fits : List (List UInt8 × List UInt8) → Bool) (a : Recall)
    (items : List (List UInt8 × List UInt8)) : Recall :=
  items.foldl (fun a item => a.put fits item.1 item.2 .disk) a

theorem entryBytesOf_read (hfits : entryFits item.1.length item.2.length = true) (rest : List UInt8) :
    entryLengths.dec ((entryBytesOf item.1 item.2 ++ rest).take entryLengths.size) =
        (UInt32.ofNat item.1.length, UInt32.ofNat item.2.length) ∧
      (UInt32.ofNat item.1.length).toNat = item.1.length ∧ (UInt32.ofNat item.2.length).toNat = item.2.length ∧
      (entryBytesOf item.1 item.2 ++ rest).drop entryLengths.size = item.1 ++ (item.2 ++ rest) := by
  obtain ⟨hid, hdsml⟩ := Bool.and_eq_true_iff.mp hfits
  have hid' := of_decide_eq_true hid
  have hdsml' := of_decide_eq_true hdsml
  unfold mapUint32Max at hid' hdsml'
  rw [entryBytesOf, List.append_assoc]
  obtain ⟨htake, hdrop⟩ := entryLengths.take_drop_enc
    (UInt32.ofNat item.1.length, UInt32.ofNat item.2.length) (item.1 ++ item.2 ++ rest)
  have hsize : UInt32.size = 2 ^ 32 := rfl
  refine ⟨htake, UInt32.toNat_ofNat_of_lt' (by omega), UInt32.toNat_ofNat_of_lt' (by omega), ?_⟩
  rw [hdrop, List.append_assoc]

/-- The entries of a file are put into the memory one after the other. -/
theorem load_entries (wanted : Option (List (List UInt8))) {t : ToolServer} {b : Recall}
    (hon : t.disableExactDsmlToolReplay = false) (hb : t.toolMem.Represents b)
    (hitems : ∀ item ∈ items, entryFits item.1.length item.2.length = true ∧ ZeroFree item)
    (htexts : ∀ item ∈ items, item.2.length ≤ Rax.raxNodeMaxSize) (rest : List UInt8) :
    ∃ t', ToolServer.loadEntries wanted items.length t (itemBytes items ++ rest) =
        some (t', (loadedItems wanted items).length) ∧
      t'.toolMem.fits = t.toolMem.fits ∧ t'.disableExactDsmlToolReplay = false ∧
      t'.toolMem.Represents (b.putFromDisk t.toolMem.fits (loadedItems wanted items)) := by
  induction items generalizing t b with
  | nil => exact ⟨t, rfl, rfl, hon, hb⟩
  | cons item items ih =>
    obtain ⟨hfits, hid, hdsml⟩ := hitems item List.mem_cons_self
    have hitems' := fun item hmem => hitems item (List.mem_cons_of_mem _ hmem)
    have htexts' := fun item hmem => htexts item (List.mem_cons_of_mem _ hmem)
    have hfile : itemBytes (item :: items) ++ rest = entryBytesOf item.1 item.2 ++ (itemBytes items ++ rest) := by
      rw [itemBytes, itemBytes, List.flatMap_cons, List.append_assoc]
    obtain ⟨hlengths, hidLen, hdsmlLen, hbody⟩ := entryBytesOf_read hfits (itemBytes items ++ rest)
    have henough : ¬ (entryBytesOf item.1 item.2 ++ (itemBytes items ++ rest)).length < entryLengths.size := by
      rw [entryBytesOf, List.append_assoc, List.length_append, entryLengths.length_enc]
      omega
    rw [List.length_cons, ToolServer.loadEntries, hfile, if_neg henough]
    dsimp only
    rw [hlengths, hbody]
    dsimp only
    rw [hidLen, hdsmlLen]
    by_cases hload : loadable item = true
    case neg =>
      -- the reader stops in front of it
      have hstop : item.1.length = 0 ∨ item.1.length > 256 ∨ item.2.length = 0 ∨
          item.2.length > toolMemoryMaxBytesDefault := by
        rw [loadable, decide_eq_true_iff] at hload
        by_contra hnone
        simp only [not_or, Nat.not_lt, List.length_eq_zero_iff] at hnone
        exact hload ⟨hnone.1, hnone.2.1, hnone.2.2.1, hnone.2.2.2⟩
      have hnil : loadedItems wanted (item :: items) = [] := by
        rw [loadedItems, List.takeWhile_cons, if_neg hload, List.filter_nil]
      rw [if_pos hstop, hnil]
      exact ⟨t, rfl, rfl, hon, hb⟩
    case pos =>
      have hlens := hload
      rw [loadable, decide_eq_true_iff] at hlens
      have hgo : ¬ (item.1.length = 0 ∨ item.1.length > 256 ∨ item.2.length = 0 ∨
          item.2.length > toolMemoryMaxBytesDefault) := by
        rw [List.length_eq_zero_iff, List.length_eq_zero_iff]
        rintro (hnil | hlong | hnil | hlong)
        · exact hlens.1 hnil
        · exact absurd hlens.2.1 (by omega)
        · exact hlens.2.2.1 hnil
        · exact absurd hlens.2.2.2 (by omega)
      have hwhole : ¬ (item.1 ++ (item.2 ++ (itemBytes items ++ rest))).length < item.1.length + item.2.length := by
        rw [List.length_append, List.length_append]
        omega
      have hdrop : (item.1 ++ (item.2 ++ (itemBytes items ++ rest))).drop (item.1.length + item.2.length) =
          itemBytes items ++ rest := by
        rw [← List.drop_drop, List.drop_left, List.drop_left]
      rw [if_neg hgo, if_neg hwhole, List.take_left, List.drop_left, List.take_left, cString_eq hid, cString_eq hdsml,
        hdrop]
      by_cases hwanted : askedFor wanted item = true
      · have hcons : loadedItems wanted (item :: items) = item :: loadedItems wanted items := by
          rw [loadedItems, List.takeWhile_cons, if_pos hload, List.filter_cons_of_pos hwanted]
          rfl
        have hshort : item.1.length ≤ Rax.raxNodeMaxSize := Nat.le_trans hlens.2.1 (by decide)
        rw [if_pos (show (wanted.all fun ids => idListContains ids item.1) = true from hwanted), hcons]
        obtain ⟨t₁, hput, hfits₁, hon₁, hb₁⟩ := ToolServer.putSource_spec hb hshort
          (htexts item List.mem_cons_self) .disk
        rw [hon] at hon₁ hb₁
        obtain ⟨t', hload', hfits', hon', hb'⟩ := ih hon₁ hb₁ hitems' htexts'
        refine ⟨t', ?_, hfits'.trans hfits₁, hon', ?_⟩
        · rw [hput, Option.bind_some, hload', Option.map_some, List.length_cons]
        · rw [hfits₁] at hb'
          exact hb'
      · have hskip : loadedItems wanted (item :: items) = loadedItems wanted items := by
          rw [loadedItems, List.takeWhile_cons, if_pos hload, List.filter_cons_of_neg hwanted]
          rfl
        rw [if_neg (show ¬ (wanted.all fun ids => idListContains ids item.1) = true from hwanted), hskip]
        exact ih hon hb hitems' htexts'

end Loading

end Spark.Server
