import Spark.Lib.SecondChance
import Spark.Ple.ClockCache

/-!
# The clock page cache is a queue

In every cache that a run reaches, the slots in the order of the hand are a ring, and what an insertion does is to
enqueue a page to its queue: while there is room the page comes to the end, and then the head falls for it. Hits give
their pages a second chance, which moves them back in the queue, and nothing else protects them.

* **`insertLoop_spec`** — the loop ends, and replaces the head of the queue.
* **`markHits_spec`** — the queue with the hits marked.
* **`insertPages_spec`** — the batch comes to the end of the queue.
* **`run_steady`** — the invariant over runs.
-/

namespace Spark.Ple

open Spark.Uring Spark.Outcome SecondChance

/-- The bytes of a shard, zero past end of file. -/
def shardBytes (files : List OpenFile) (shard : Nat) : Mem UInt8 :=
  match files[shard]? with
  | some file => file.contents
  | none => fun _ => 0

/-- The page `key`, zero-padded past end of file. -/
def pageOf (files : List OpenFile) (pageBytes : Nat) (key : PageKey) : List UInt8 :=
  (shardBytes files key.shard).slice key.byteOffset pageBytes

/-- The source answers with the pages it was asked for, or fails, or answers something that is refused. -/
def PageSource.Correct (files : List OpenFile) (pageBytes : Nat) (source : PageSource) : Prop :=
  ∀ keys pages, source keys pageBytes = .ok pages → pages.length = keys.length →
    (∀ page ∈ pages, page.length = pageBytes) → pages = keys.map (pageOf files pageBytes)

/-- The source has every page of the files. -/
def PageSource.Complete (files : List OpenFile) (pageBytes : Nat) (source : PageSource) : Prop :=
  ∀ keys : List PageKey, (∀ key ∈ keys, ∃ file, files[key.shard]? = some file ∧ key.byteOffset < file.size) →
    source keys pageBytes = .ok (keys.map (pageOf files pageBytes))

namespace ClockPageCache

/-- The key of the page in a slot. -/
def keyAt (slots : List CacheSlot) (slot : Nat) : Option PageKey := slots[slot]?.map (·.key)

/-- The slots in the order the hand meets them. -/
def ring (cache : ClockPageCache) : List (PageKey × Bool) :=
  (cache.slots.rotate cache.hand).map fun slot => (slot.key, slot.referenced)

/-- The resident pages in the order in which they will fall. -/
def queue (cache : ClockPageCache) : List PageKey := order cache.ring

/-- The invariant of every reachable cache. -/
structure Coherent (files : List OpenFile) (cache : ClockPageCache) : Prop where
  pageSize : PageSize cache.pageBytes
  capacity_pos : 0 < cache.capacityPages
  length_le : cache.slots.length ≤ cache.capacityPages
  hand_lt : cache.hand < cache.capacityPages
  hand_zero : cache.slots.length < cache.capacityPages → cache.hand = 0
  inverse : SlotMap.Inverse (keyAt cache.slots) cache.index
  pages : ∀ slot ∈ cache.slots, slot.page = pageOf files cache.pageBytes slot.key
  counted : cache.stats.bytesRead < 2 ^ 64

/-- The invariant after a step, and what no step changes. -/
structure Steady (files : List OpenFile) (before after : ClockPageCache) : Prop where
  coherent : Coherent files after
  pageBytes : after.pageBytes = before.pageBytes
  capacityPages : after.capacityPages = before.capacityPages

variable {files : List OpenFile} {cache : ClockPageCache}

theorem Coherent.steady_refl (h : Coherent files cache) : Steady files cache cache := ⟨h, rfl, rfl⟩

theorem Steady.trans {a b c : ClockPageCache} (hab : Steady files a b) (hbc : Steady files b c) : Steady files a c :=
  ⟨hbc.coherent, hbc.pageBytes.trans hab.pageBytes, hbc.capacityPages.trans hab.capacityPages⟩

theorem mem_ring {key : PageKey} : key ∈ cache.ring.map (·.1) ↔ ∃ slot ∈ cache.slots, slot.key = key := by
  unfold ring
  rw [List.map_map, List.mem_map]
  simp only [List.mem_rotate]
  rfl

theorem length_queue (cache : ClockPageCache) : cache.queue.length = cache.slots.length := by
  rw [queue, length_order, ring, List.length_map, List.length_rotate]

/-- The pages of the queue are those of the index. -/
theorem Coherent.mem_queue (h : Coherent files cache) {key : PageKey} :
    key ∈ cache.queue ↔ (cache.index key).isSome := by
  rw [queue, mem_order, mem_ring, Option.isSome_iff_exists]
  constructor
  · rintro ⟨state, hmem, hkey⟩
    obtain ⟨slot, hslot⟩ := List.getElem?_of_mem hmem
    refine ⟨slot, (h.inverse key slot).mpr ?_⟩
    rw [keyAt, hslot, Option.map_some, hkey]
  · rintro ⟨slot, hslot⟩
    have hkey := (h.inverse key slot).mp hslot
    rw [keyAt, Option.map_eq_some_iff] at hkey
    obtain ⟨state, hstate, hkey⟩ := hkey
    exact ⟨state, List.mem_of_getElem? hstate, hkey⟩

/-- No page is in two slots. -/
theorem Coherent.nodup_queue (h : Coherent files cache) : cache.queue.Nodup := by
  have hring : cache.ring.map (·.1) = (cache.slots.map (·.key)).rotate cache.hand := by
    rw [ring, List.map_map, ← List.map_rotate]
    rfl
  rw [queue, (order_perm _).nodup_iff, hring, List.nodup_rotate, List.Nodup, List.pairwise_iff_getElem]
  intro i j hi hj hij heq
  rw [List.length_map] at hi hj
  have hkey : ∀ (slot : Nat) (hslot : slot < cache.slots.length),
      cache.index cache.slots[slot].key = some slot := fun slot hslot => by
    rw [h.inverse, keyAt, List.getElem?_eq_getElem hslot, Option.map_some]
  rw [List.getElem_map, List.getElem_map] at heq
  have hi' := hkey i hi
  rw [heq, hkey j hj] at hi'
  cases hi'
  omega

/-! ## Inserting a page -/

theorem keyAt_set {slots : List CacheSlot} {slot : Nat} (hlt : slot < slots.length) (state : CacheSlot) :
    keyAt (slots.set slot state) = Function.update (keyAt slots) slot (some state.key) := by
  funext s
  unfold keyAt
  by_cases h : s = slot
  · subst h
    rw [Function.update_self, List.getElem?_set_self hlt]
    rfl
  · rw [Function.update_of_ne h, List.getElem?_set_ne (Ne.symm h)]

theorem keyAt_push (slots : List CacheSlot) (state : CacheSlot) :
    keyAt (slots ++ [state]) = Function.update (keyAt slots) slots.length (some state.key) := by
  funext s
  unfold keyAt
  rcases Nat.lt_trichotomy s slots.length with hlt | rfl | hgt
  · rw [Function.update_of_ne (Nat.ne_of_lt hlt), List.getElem?_append_left hlt]
  · rw [Function.update_self, List.getElem?_concat_length]
    rfl
  · rw [Function.update_of_ne (Nat.ne_of_gt hgt), List.getElem?_eq_none (by simp; omega),
      List.getElem?_eq_none (Nat.le_of_lt hgt)]

/-- What inserting the page `key` does. -/
structure Inserted (files : List OpenFile) (before after : ClockPageCache) (key : PageKey) : Prop
    extends Steady files before after where
  queue : after.queue = enqueue before.capacityPages before.queue key
  bytesRead : after.stats.bytesRead = before.stats.bytesRead

/-- A page comes behind the others while there is room. -/
theorem inserted_push (h : Coherent files cache) (hroom : cache.slots.length < cache.capacityPages) {key : PageKey}
    (hkey : cache.index key = none) {page : List UInt8} (hpage : page = pageOf files cache.pageBytes key) :
    Inserted files cache
      { cache with
        slots := cache.slots ++ [{ key, page, referenced := true }]
        index := Function.update cache.index key (some cache.slots.length) } key where
  coherent :=
    { pageSize := h.pageSize
      capacity_pos := h.capacity_pos
      length_le := by
        simp only [List.length_append, List.length_singleton]
        omega
      hand_lt := h.hand_lt
      hand_zero := fun _ => h.hand_zero hroom
      inverse := by
        have hslot : keyAt cache.slots cache.slots.length = none := by
          rw [keyAt, List.getElem?_eq_none (Nat.le_refl _)]
          rfl
        have hinsert := h.inverse.insert hslot hkey
        rw [keyAt_push]
        exact hinsert
      pages := by
        intro slot hslot
        rcases List.mem_append.mp hslot with hslot | hslot
        · exact h.pages slot hslot
        · obtain rfl := List.mem_singleton.mp hslot
          exact hpage
      counted := h.counted }
  pageBytes := rfl
  capacityPages := rfl
  queue := by
    rw [enqueue, length_queue, if_pos hroom]
    simp only [ClockPageCache.queue, ring, h.hand_zero hroom, List.rotate_zero, List.map_append, List.map_cons,
      List.map_nil]
    exact order_push _ _
  bytesRead := rfl

/-- The ring before and after the slot under the hand is replaced and the hand goes on. -/
theorem exists_ring_step {slot : CacheSlot} (hslot : cache.slots[cache.hand]? = some slot) :
    ∃ rest, cache.ring = (slot.key, slot.referenced) :: rest ∧ ∀ (after : ClockPageCache) (state : CacheSlot),
      after.slots = cache.slots.set cache.hand state → after.hand = Clock.next cache.slots.length cache.hand →
        after.ring = rest ++ [(state.key, state.referenced)] := by
  obtain ⟨hlt, hget⟩ := List.getElem?_eq_some_iff.mp hslot
  refine ⟨(cache.slots.drop (cache.hand + 1) ++ cache.slots.take cache.hand).map fun slot =>
    (slot.key, slot.referenced), ?_, fun after state hslots hhand => ?_⟩
  · rw [ring, rotate_eq_cons hlt, hget, List.map_cons]
  · rw [ring, hslots, hhand, rotate_set_next hlt, List.map_append]
    rfl

/-- The invariant, when the slot under the hand of a full cache is replaced and the hand goes on. -/
theorem Coherent.of_set (h : Coherent files cache) (hfull : cache.slots.length = cache.capacityPages)
    (state : CacheSlot) (hpage : state.page = pageOf files cache.pageBytes state.key) {after : ClockPageCache}
    (hslots : after.slots = cache.slots.set cache.hand state)
    (hhand : after.hand = Clock.next cache.slots.length cache.hand) (hpages : after.pageBytes = cache.pageBytes)
    (hcapacity : after.capacityPages = cache.capacityPages) (hinverse : SlotMap.Inverse (keyAt after.slots) after.index)
    (hcount : after.stats.bytesRead = cache.stats.bytesRead) : Coherent files after where
  pageSize := hpages ▸ h.pageSize
  capacity_pos := hcapacity ▸ h.capacity_pos
  length_le := by
    rw [hslots, List.length_set, hcapacity]
    exact h.length_le
  hand_lt := by
    have hlt := h.hand_lt
    rw [hhand, hcapacity, ← hfull]
    exact Clock.next_lt (by omega)
  hand_zero := fun hroom => by
    rw [hslots, List.length_set, hcapacity] at hroom
    omega
  inverse := hinverse
  pages := by
    intro slot hslot
    rw [hpages]
    rw [hslots] at hslot
    rcases List.mem_or_eq_of_mem_set hslot with hslot | rfl
    · exact h.pages slot hslot
    · exact hpage
  counted := hcount ▸ h.counted

/-- **The loop ends, and replaces the head of the queue.** Each round that does not end it takes one second chance,
of which there are fewer than rounds. -/
theorem insertLoop_spec {key : PageKey} {page : List UInt8} (fuel : Nat) :
    ∀ cache : ClockPageCache, Coherent files cache → cache.slots.length = cache.capacityPages →
      cache.index key = none → page = pageOf files cache.pageBytes key → chances cache.ring < fuel →
      ∃ after, insertLoop key page fuel cache = .ok after ∧ Inserted files cache after key := by
  induction fuel with
  | zero => exact fun _ _ _ _ _ h => absurd h (Nat.not_lt_zero _)
  | succ fuel ih =>
    intro cache h hfull hkey hpage hfuel
    have hlt : cache.hand < cache.slots.length := by
      rw [hfull]
      exact h.hand_lt
    obtain ⟨slot, hslot⟩ : ∃ slot, cache.slots[cache.hand]? = some slot := ⟨_, List.getElem?_eq_getElem hlt⟩
    have hslotPage := h.pages slot (List.mem_of_getElem? hslot)
    obtain ⟨rest, hring, hstep⟩ := exists_ring_step hslot
    have hnext : (cache.hand + 1) % cache.capacityPages = Clock.next cache.slots.length cache.hand := by
      rw [Clock.next, hfull]
    have hread : readAt cache.slots cache.hand = (.ok slot : Except ClockFault CacheSlot) := by
      rw [readAt, hslot, okOr_some]
    rw [insertLoop, bind_of_ok hread, hnext]
    simp only
    cases hreferenced : slot.referenced with
    | true =>
      rw [if_pos rfl]
      rw [hreferenced] at hring
      -- a second chance: the queue stays, and there is one chance less
      have hinverse : SlotMap.Inverse (keyAt (cache.slots.set cache.hand { slot with referenced := false }))
          cache.index := by
        have hsame : Function.update (keyAt cache.slots) cache.hand (some slot.key) = keyAt cache.slots := by
          apply Function.update_eq_self_iff.mpr
          rw [keyAt, hslot]
          rfl
        rw [keyAt_set hlt]
        exact hsame.symm ▸ h.inverse
      have hmoved : Coherent files
          { cache with
            slots := cache.slots.set cache.hand { slot with referenced := false }
            hand := Clock.next cache.slots.length cache.hand } :=
        h.of_set hfull { slot with referenced := false } hslotPage rfl rfl rfl rfl hinverse rfl
      have hringAfter := hstep
          { cache with
            slots := cache.slots.set cache.hand { slot with referenced := false }
            hand := Clock.next cache.slots.length cache.hand } _ rfl rfl
      have hchances : chances (rest ++ [(slot.key, false)]) < fuel := by
        have := chances_chance slot.key rest
        rw [hring] at hfuel
        omega
      obtain ⟨after, hafter, hinserted⟩ := ih _ hmoved (by rw [List.length_set]; exact hfull) hkey hpage
        (by rw [hringAfter]; exact hchances)
      refine ⟨after, hafter, ⟨hinserted.coherent, hinserted.pageBytes, hinserted.capacityPages⟩, ?_,
        hinserted.bytesRead⟩
      rw [hinserted.queue, queue, queue, hringAfter, order_chance, hring]
    | false =>
      rw [if_neg Bool.false_ne_true]
      rw [hreferenced] at hring
      have hvictim : keyAt cache.slots cache.hand = some slot.key := by
        rw [keyAt, hslot]
        rfl
      have habsent : Function.update cache.index slot.key none key = none := by
        by_cases hsame : key = slot.key
        · rw [hsame, Function.update_self]
        · rw [Function.update_of_ne hsame]
          exact hkey
      have hinverse := (h.inverse.evict hvictim).insert (Function.update_self ..) habsent
      rw [Function.update_idem] at hinverse
      refine ⟨_, rfl, ⟨h.of_set hfull { key, page, referenced := true } hpage rfl rfl rfl rfl ?_ rfl, rfl, rfl⟩, ?_,
        rfl⟩
      · rw [keyAt_set hlt]
        exact hinverse
      · rw [enqueue, length_queue, if_neg (by omega), queue, hstep _ _ rfl rfl, order_replace, queue, hring]

/-- **Inserting a page admits it to the queue.** -/
theorem insert_spec (h : Coherent files cache) {key : PageKey} (hkey : cache.index key = none) {page : List UInt8}
    (hpage : page = pageOf files cache.pageBytes key) :
    ∃ after, cache.insert key page = .ok after ∧ Inserted files cache after key := by
  unfold insert
  split
  · next hroom => exact ⟨_, rfl, inserted_push h hroom hkey hpage⟩
  · next hfull =>
    have hlength := h.length_le
    have hchances : chances cache.ring ≤ cache.slots.length := by
      have := List.length_filter_le (fun entry : PageKey × Bool => entry.2) cache.ring
      rwa [ring, List.length_map, List.length_rotate] at this
    exact insertLoop_spec _ cache h (by omega) hkey hpage (by omega)

/-! ## Marking the hits -/

/-- A second chance for the pages `keys`. -/
def mark (keys : List PageKey) (slot : CacheSlot) : CacheSlot :=
  { slot with referenced := slot.referenced || keys.contains slot.key }

/-- The order in which the pages will fall once the hits are marked. -/
def victims (cache : ClockPageCache) (keys : List PageKey) : List PageKey :=
  order (marked (keys.contains ·) cache.ring)

/-- The pages the source is asked for. -/
def misses (cache : ClockPageCache) (keys : List PageKey) : List PageKey :=
  keys.filter fun key => (cache.index key).isNone

theorem mark_mark (key : PageKey) (keys : List PageKey) (slot : CacheSlot) :
    mark keys (mark [key] slot) = mark (key :: keys) slot := by
  simp only [mark, List.contains_cons, List.contains_nil, Bool.or_false, Bool.or_assoc]

theorem keyAt_mark (keys : List PageKey) (slots : List CacheSlot) : keyAt (slots.map (mark keys)) = keyAt slots := by
  funext s
  unfold keyAt
  rw [List.getElem?_map, Option.map_map]
  rfl

theorem Coherent.mark (h : Coherent files cache) (keys : List PageKey) (stats : CacheStats)
    (hstats : stats.bytesRead = cache.stats.bytesRead) :
    Coherent files { cache with slots := cache.slots.map (mark keys), stats } where
  pageSize := h.pageSize
  capacity_pos := h.capacity_pos
  length_le := by
    rw [List.length_map]
    exact h.length_le
  hand_lt := h.hand_lt
  hand_zero := by
    rw [List.length_map]
    exact h.hand_zero
  inverse := by
    rw [keyAt_mark]
    exact h.inverse
  pages := by
    intro slot hslot
    obtain ⟨before, hbefore, rfl⟩ := List.mem_map.mp hslot
    exact h.pages before hbefore
  counted := by
    rw [hstats]
    exact h.counted

/-- Marking a resident page, as a map over the slots. -/
theorem modify_eq_mark (h : Coherent files cache) {key : PageKey} {slot : Nat} (hslot : cache.index key = some slot) :
    cache.slots.modify slot (fun state => { state with referenced := true }) = cache.slots.map (mark [key]) := by
  apply List.ext_getElem?
  intro s
  rw [List.getElem?_modify, List.getElem?_map]
  cases hstate : cache.slots[s]? with
  | none => rfl
  | some state =>
    have hother : cache.index state.key = some s := by
      rw [h.inverse, keyAt, hstate]
      rfl
    have hsame : slot = s ↔ state.key = key := by
      constructor
      · rintro rfl
        exact h.inverse.slot_inj hother hslot
      · rintro rfl
        exact Option.some.inj (hslot.symm.trans hother)
    simp only [Option.map_some, mark, List.contains_cons, List.contains_nil, Bool.or_false, hsame]
    by_cases heq : state.key = key
    · simp [heq]
    · simp [heq, beq_eq_false_iff_ne.mpr heq]

/-- A page that is not resident has no slot to mark. -/
theorem map_mark_of_absent (h : Coherent files cache) {key : PageKey} (hkey : cache.index key = none) :
    cache.slots.map (mark [key]) = cache.slots := by
  refine (List.map_congr_left fun state hstate => ?_).trans (List.map_id _)
  obtain ⟨slot, hslot⟩ := List.getElem?_of_mem hstate
  have hne : state.key ≠ key := by
    rintro rfl
    have hresident : cache.index state.key = some slot := by
      rw [h.inverse, keyAt, hslot]
      rfl
    rw [hkey] at hresident
    cases hresident
  simp [mark, hne]

theorem markHits_spec (keys : List PageKey) : ∀ cache : ClockPageCache, Coherent files cache →
    ∃ stats : CacheStats, stats.bytesRead = cache.stats.bytesRead ∧ markHits keys cache =
      ({ cache with slots := cache.slots.map (mark keys), stats }, cache.misses keys) := by
  induction keys with
  | nil =>
    intro cache h
    have hsame : cache.slots.map (mark []) = cache.slots := by
      refine (List.map_congr_left fun state _ => ?_).trans (List.map_id _)
      simp [mark]
    exact ⟨cache.stats, rfl, by rw [hsame]; rfl⟩
  | cons key keys ih =>
    intro cache h
    have hmarks : cache.slots.map (mark (key :: keys)) = (cache.slots.map (mark [key])).map (mark keys) := by
      rw [List.map_map]
      exact List.map_congr_left fun slot _ => (mark_mark key keys slot).symm
    cases hslot : cache.index key with
    | some slot =>
      have hmodify := modify_eq_mark h hslot
      obtain ⟨stats, hbytes, hrest⟩ := ih _ (h.mark [key]
        { cache.stats with pageHits := Word.wrappingAdd 64 cache.stats.pageHits 1 } rfl)
      refine ⟨stats, hbytes, ?_⟩
      simp only [markHits, hslot, setReferenced, hmodify, hrest, hmarks, misses, List.filter_cons]
      rfl
    | none =>
      obtain ⟨stats, hbytes, hrest⟩ := ih _ (h.mark [key]
        { cache.stats with pageMisses := Word.wrappingAdd 64 cache.stats.pageMisses 1 } rfl)
      rw [map_mark_of_absent h hslot] at hmarks hrest
      refine ⟨stats, hbytes, ?_⟩
      simp only [markHits, hslot, hrest, hmarks, misses, List.filter_cons]
      rfl

theorem queue_mark (cache : ClockPageCache) (keys : List PageKey) (stats : CacheStats) :
    ({ cache with slots := cache.slots.map (mark keys), stats } : ClockPageCache).queue = cache.victims keys := by
  simp only [queue, ring, victims, marked, ← List.map_rotate, List.map_map]
  rfl

/-! ## Inserting a batch -/

theorem Coherent.of_stats (h : Coherent files cache) (stats : CacheStats) (hcounted : stats.bytesRead < 2 ^ 64) :
    Coherent files { cache with stats } :=
  ⟨h.pageSize, h.capacity_pos, h.length_le, h.hand_lt, h.hand_zero, h.inverse, h.pages, hcounted⟩

/-- **The batch comes to the end of the queue**, unless the count of the bytes overflows. Induction on the batch. -/
theorem insertPages_spec (keys : List PageKey) : ∀ cache : ClockPageCache, Coherent files cache → keys.Nodup →
    (∀ key ∈ keys, cache.index key = none) → ∃ after, Steady files cache after ∧
      if cache.stats.bytesRead + keys.length * cache.pageBytes < 2 ^ 64 then
        insertPages (keys.zip (keys.map (pageOf files cache.pageBytes))) cache = (after, .ok ()) ∧
          after.queue = keys.foldl (enqueue cache.capacityPages) cache.queue
      else insertPages (keys.zip (keys.map (pageOf files cache.pageBytes))) cache =
        (after, .error (storeError .integerOverflow)) := by
  induction keys with
  | nil =>
    intro cache h _ _
    have hcounted : cache.stats.bytesRead + ([] : List PageKey).length * cache.pageBytes < 2 ^ 64 := by
      rw [List.length_nil, Nat.zero_mul]
      exact h.counted
    refine ⟨cache, h.steady_refl, ?_⟩
    rw [if_pos hcounted]
    exact ⟨rfl, rfl⟩
  | cons key keys ih =>
    intro cache h hnodup habsent
    obtain ⟨hfresh, hnodup⟩ := List.nodup_cons.mp hnodup
    obtain ⟨hkey, hrest⟩ := List.forall_mem_cons.mp habsent
    rw [List.map_cons, List.zip_cons_cons, insertPages, List.length_cons, Nat.succ_mul]
    have hlength : (pageOf files cache.pageBytes key).length = cache.pageBytes := Mem.length_slice ..
    simp only [Word.checkedAdd, hlength]
    by_cases hcount : cache.stats.bytesRead + cache.pageBytes < 2 ^ 64
    · have hcounted := h.of_stats
        { cache.stats with
          pageReads := Word.wrappingAdd 64 cache.stats.pageReads 1
          bytesRead := cache.stats.bytesRead + cache.pageBytes } hcount
      obtain ⟨middle, hinsert, hinserted⟩ := insert_spec hcounted hkey rfl
      have habsentMiddle : ∀ other ∈ keys, middle.index other = none := by
        intro other hother
        rw [← Option.not_isSome_iff_eq_none, ← hinserted.coherent.mem_queue, hinserted.queue]
        intro hmem
        rcases mem_of_mem_enqueue hmem with hqueue | rfl
        · rw [hcounted.mem_queue] at hqueue
          rw [show cache.index other = none from hrest other hother] at hqueue
          cases hqueue
        · exact hfresh hother
      obtain ⟨after, hsteady, hafter⟩ := ih middle hinserted.coherent hnodup habsentMiddle
      have hmiddle : Steady files cache middle :=
        ⟨hinserted.coherent, hinserted.pageBytes, hinserted.capacityPages⟩
      refine ⟨after, hmiddle.trans hsteady, ?_⟩
      rw [if_pos hcount]
      simp only [hinsert]
      have hbytes : middle.stats.bytesRead = cache.stats.bytesRead + cache.pageBytes := hinserted.bytesRead
      rw [hmiddle.pageBytes, hmiddle.capacityPages, hbytes, hinserted.queue] at hafter
      rw [show cache.stats.bytesRead + (keys.length * cache.pageBytes + cache.pageBytes) =
        cache.stats.bytesRead + cache.pageBytes + keys.length * cache.pageBytes by omega]
      exact hafter
    · rw [if_neg hcount]
      refine ⟨{ cache with stats.pageReads := Word.wrappingAdd 64 cache.stats.pageReads 1 },
        ⟨h.of_stats _ h.counted, rfl, rfl⟩, ?_⟩
      rw [if_neg (by omega)]

/-! ## One call -/

/-- A page of the batch that is missing is not resident, and each is missing once. -/
theorem misses_spec {keys : List PageKey} (hnodup : keys.Nodup) :
    (cache.misses keys).Nodup ∧ ∀ key ∈ cache.misses keys, cache.index key = none := by
  refine ⟨hnodup.filter _, fun key hkey => ?_⟩
  simpa using (List.mem_filter.mp hkey).2

/-- **The pages of a call**: the queue once the hits are marked, and the missing pages behind it. -/
theorem ensurePages_spec (h : Coherent files cache) {keys : List PageKey} (hnodup : keys.Nodup) {source : PageSource}
    (hsource : source (cache.misses keys) cache.pageBytes =
      .ok ((cache.misses keys).map (pageOf files cache.pageBytes))) : ∃ after, Steady files cache after ∧
      if cache.stats.bytesRead + (cache.misses keys).length * cache.pageBytes < 2 ^ 64 then
        cache.ensurePages keys source = (after, .ok ()) ∧
          after.queue = (cache.misses keys).foldl (enqueue cache.capacityPages) (cache.victims keys)
      else cache.ensurePages keys source = (after, .error (storeError .integerOverflow)) := by
  obtain ⟨stats, hbytes, hmark⟩ := markHits_spec keys cache h
  obtain ⟨hmissesNodup, habsent⟩ : (cache.misses keys).Nodup ∧ ∀ key ∈ cache.misses keys, cache.index key = none :=
    misses_spec hnodup
  have hmarked := h.mark keys stats hbytes
  obtain ⟨after, hsteady, hafter⟩ := insertPages_spec (cache.misses keys) _ hmarked hmissesNodup habsent
  refine ⟨after, ⟨hsteady.coherent, hsteady.pageBytes, hsteady.capacityPages⟩, ?_⟩
  have hensure : cache.ensurePages keys source =
      insertPages ((cache.misses keys).zip ((cache.misses keys).map (pageOf files cache.pageBytes)))
        { cache with slots := cache.slots.map (mark keys), stats } := by
    unfold ensurePages
    simp only [hmark, hsource]
    rw [if_neg]
    simp [pageOf]
  rw [hensure, ← hbytes, ← queue_mark cache keys stats]
  exact hafter

/-- How a call fails that does not panic. -/
def Refused (x : Except ClockFault Unit) : Prop := ∃ e, x = .error (storeError e)

/-- The pages of a call, whatever the source answers. -/
theorem ensurePages_steady (h : Coherent files cache) {keys : List PageKey} (hnodup : keys.Nodup) {source : PageSource}
    (hcorrect : source.Correct files cache.pageBytes) : Steady files cache (cache.ensurePages keys source).1 ∧
      ((cache.ensurePages keys source).2 = .ok () ∨ Refused (cache.ensurePages keys source).2) := by
  by_cases hsource : source (cache.misses keys) cache.pageBytes =
      .ok ((cache.misses keys).map (pageOf files cache.pageBytes))
  · obtain ⟨after, hsteady, hafter⟩ := ensurePages_spec h hnodup hsource
    split at hafter
    · rw [hafter.1]
      exact ⟨hsteady, .inl rfl⟩
    · rw [hafter]
      exact ⟨hsteady, .inr ⟨_, rfl⟩⟩
  · -- the source fails, or its answer is refused
    obtain ⟨stats, hbytes, hmark⟩ := markHits_spec keys cache h
    have hmarked : Steady files cache { cache with slots := cache.slots.map (mark keys), stats } :=
      ⟨h.mark keys stats hbytes, rfl, rfl⟩
    unfold ensurePages
    simp only [hmark]
    cases hanswer : source (cache.misses keys) cache.pageBytes with
    | error e => exact ⟨hmarked, .inr ⟨_, rfl⟩⟩
    | ok pages =>
      have hbad : pages.length ≠ (cache.misses keys).length ∨ pages.any (fun page => page.length ≠ cache.pageBytes) := by
        by_contra hgood
        rw [not_or, not_not] at hgood
        refine hsource (hanswer.trans (congrArg _ (hcorrect _ _ hanswer hgood.1 fun page hpage => ?_)))
        simpa using List.any_eq_false.mp (Bool.eq_false_iff.mpr hgood.2) page hpage
      simp only
      rw [if_pos hbad]
      exact ⟨hmarked, .inr ⟨_, rfl⟩⟩

/-- A call keeps the invariant. -/
theorem fetchRows_steady (h : Coherent files cache) (index : PleIndex) (rows : List Nat) {source : PageSource}
    (hcorrect : source.Correct files cache.pageBytes) :
    Steady files cache (cache.fetchRows index rows source).1 := by
  unfold fetchRows
  split
  · exact h.steady_refl
  · split
    · exact h.steady_refl
    · next addresses _ =>
      simp only
      split
      · exact h.steady_refl
      · have hsteady := (ensurePages_steady h (requestKeys_nodup cache.pageBytes addresses) hcorrect).1
        split
        · next heq =>
          rw [heq] at hsteady
          exact hsteady
        · next heq =>
          rw [heq] at hsteady
          exact hsteady

/-! ## Runs -/

theorem new_coherent {pageBytes capacityPages : Nat} (hword : pageBytes < 2 ^ 64) {opened : ClockPageCache}
    (hnew : new pageBytes capacityPages = .ok opened) (files : List OpenFile) :
    Coherent files opened ∧ opened.pageBytes = pageBytes ∧ opened.capacityPages = capacityPages := by
  unfold new at hnew
  split at hnew
  · cases hnew
  · next hvalid =>
    cases hnew
    simp only [not_or, not_not] at hvalid
    obtain ⟨hpos, ⟨k, hk⟩, hcapacity⟩ := hvalid
    have hle : pageBytes ≤ 2 ^ 63 := by
      rw [hk] at hword ⊢
      have hk64 : k < 64 := (Nat.pow_lt_pow_iff_right (by omega)).mp hword
      exact Nat.pow_le_pow_right (by omega) (by omega)
    have hcapacity := Nat.pos_of_ne_zero hcapacity
    exact ⟨⟨⟨⟨k, hk⟩, hle⟩, hcapacity, Nat.zero_le _, hcapacity, fun _ => rfl, SlotMap.inverse_empty, nofun,
      Nat.two_pow_pos 64⟩, rfl, rfl⟩

/-- **Every cache that a run reaches keeps the invariant.** -/
theorem run_steady (calls : List ClockCall) : ∀ cache : ClockPageCache, Coherent files cache →
    (∀ call ∈ calls, call.source.Correct files cache.pageBytes) → Steady files cache (cache.run calls) := by
  induction calls with
  | nil => exact fun cache h _ => h.steady_refl
  | cons call calls ih =>
    intro cache h hcorrect
    obtain ⟨hfirst, hrest⟩ := List.forall_mem_cons.mp hcorrect
    have hstep := fetchRows_steady h call.index call.rows hfirst
    refine hstep.trans (ih _ hstep.coherent fun other hother => ?_)
    rw [hstep.pageBytes]
    exact hrest other hother

end ClockPageCache

end Spark.Ple
