import Spark.Lib.SlotMap
import Spark.Lib.Traverse
import Spark.Ple.FixedCache

/-!
# The slots of the fixed PLE cache over whole runs

`Placed cache` is what every call of `fetch_rows` keeps, whether it succeeds or fails and whatever
the kernel does: slot table and page index are mutually inverse, and every indexed page begins inside
its file. It says nothing about the bytes of the slab.

* **`SameResidency`** — the steps that only touch reference bits, the hand and the counters
  (hit marking, the clock scan).
* **`Shrinks`** — the steps that also evict: no page is known that was not known before.
* **`Placed.vacate`**, **`Placed.publish`** — eviction, and publication in vacant slots.
* **`fetchRows_placed`** — one call; **`run_placed`** — any sequence of calls.
-/

namespace Spark.Ple

open Spark.Uring

namespace FixedPleCache

/-- The key a slot holds. -/
def slotKey (cache : FixedPleCache) (slot : Nat) : Option PageKey := (cache.slotAt slot).key

/-- The page is inside its file. -/
def Readable (cache : FixedPleCache) (key : PageKey) : Prop :=
  ∃ file, cache.files[key.shard]? = some file ∧ key.byteOffset < file.size

/-- The cache geometry `open_with_device_base` establishes and nothing changes. -/
structure Geometry (cache : FixedPleCache) : Prop where
  pageBytes_pow : ∃ k, cache.pageBytes = 2 ^ k
  pageBytes_le : cache.pageBytes ≤ 2 ^ 62
  hand_lt : cache.hand < cache.slots.length

/-- The slot table and the index of every reachable cache. -/
structure Placed (cache : FixedPleCache) : Prop extends Geometry cache where
  inverse : SlotMap.Inverse cache.slotKey cache.index
  readable : ∀ key slot, cache.index key = some slot → cache.Readable key

theorem Geometry.pageBytes_pos {cache : FixedPleCache} (h : Geometry cache) :
    0 < cache.pageBytes := by
  obtain ⟨k, hk⟩ := h.pageBytes_pow
  rw [hk]
  exact Nat.two_pow_pos k

/-! ## Steps that keep the residency data -/

/-- `after` differs from `before` in reference bits, hand and counters at most. -/
structure SameResidency (before after : FixedPleCache) : Prop where
  files : after.files = before.files
  pageBytes : after.pageBytes = before.pageBytes
  reader : after.reader = before.reader
  readPolicy : after.readPolicy = before.readPolicy
  index : after.index = before.index
  length : after.slots.length = before.slots.length
  slotKey : after.slotKey = before.slotKey
  hand : before.hand < before.slots.length → after.hand < after.slots.length

theorem SameResidency.refl (cache : FixedPleCache) : SameResidency cache cache :=
  ⟨rfl, rfl, rfl, rfl, rfl, rfl, rfl, id⟩

theorem SameResidency.trans {a b c : FixedPleCache} (hab : SameResidency a b)
    (hbc : SameResidency b c) : SameResidency a c where
  files := hbc.files.trans hab.files
  pageBytes := hbc.pageBytes.trans hab.pageBytes
  reader := hbc.reader.trans hab.reader
  readPolicy := hbc.readPolicy.trans hab.readPolicy
  index := hbc.index.trans hab.index
  length := hbc.length.trans hab.length
  slotKey := hbc.slotKey.trans hab.slotKey
  hand h := hbc.hand (hab.hand h)

theorem Placed.of_sameResidency {before after : FixedPleCache} (h : Placed before)
    (hsame : SameResidency before after) : Placed after where
  pageBytes_pow := by rw [hsame.pageBytes]; exact h.pageBytes_pow
  pageBytes_le := by rw [hsame.pageBytes]; exact h.pageBytes_le
  hand_lt := hsame.hand h.hand_lt
  inverse := by rw [hsame.slotKey, hsame.index]; exact h.inverse
  readable := by
    unfold Readable
    rw [hsame.index, hsame.files]
    exact h.readable

theorem slotKey_setReferenced (cache : FixedPleCache) (slot : Nat) (referenced : Bool) :
    (cache.setReferenced slot referenced).slotKey = cache.slotKey := by
  funext s
  simp only [slotKey, slotAt, setReferenced, List.getD_eq_getElem?_getD, List.getElem?_modify]
  cases cache.slots[s]? with
  | none => rfl
  | some state =>
    by_cases h : slot = s
    · simp [h]
    · simp [h]

theorem sameResidency_setReferenced (cache : FixedPleCache) (slot : Nat) (referenced : Bool) :
    SameResidency cache (cache.setReferenced slot referenced) where
  files := rfl
  pageBytes := rfl
  reader := rfl
  readPolicy := rfl
  index := rfl
  length := by simp [setReferenced]
  slotKey := slotKey_setReferenced cache slot referenced
  hand h := by simpa [setReferenced] using h

theorem sameResidency_moveHand (cache : FixedPleCache) :
    SameResidency cache { cache with hand := (cache.hand + 1) % cache.slots.length } where
  files := rfl
  pageBytes := rfl
  reader := rfl
  readPolicy := rfl
  index := rfl
  length := rfl
  slotKey := rfl
  hand h := Nat.mod_lt _ (by omega)

theorem sameResidency_stats (cache : FixedPleCache) (stats : CacheStats) :
    SameResidency cache { cache with stats } :=
  ⟨rfl, rfl, rfl, rfl, rfl, rfl, rfl, id⟩

/-- Hit marking keeps the residency data and returns exactly the keys that are not resident,
in request order. -/
theorem markHits_spec (keys : List PageKey) : ∀ cache : FixedPleCache,
    SameResidency cache (markHits keys cache).1 ∧
      (markHits keys cache).2 = keys.filter fun key => (cache.index key).isNone := by
  induction keys with
  | nil => exact fun cache => ⟨.refl cache, rfl⟩
  | cons key keys ih =>
    intro cache
    cases hkey : cache.index key with
    | some slot =>
      have hmark := (sameResidency_setReferenced cache slot true).trans
        (sameResidency_stats (cache.setReferenced slot true)
          { cache.stats with pageHits := Word.saturatingAdd 64 cache.stats.pageHits 1 })
      obtain ⟨hsame, hmiss⟩ := ih { cache.setReferenced slot true with
        stats := { cache.stats with pageHits := Word.saturatingAdd 64 cache.stats.pageHits 1 } }
      rw [show markHits (key :: keys) cache = markHits keys { cache.setReferenced slot true with
        stats := { cache.stats with pageHits := Word.saturatingAdd 64 cache.stats.pageHits 1 } }
        from by simp [markHits, hkey]]
      refine ⟨hmark.trans hsame, hmiss.trans ?_⟩
      rw [hmark.index]
      simp [hkey]
    | none =>
      obtain ⟨hsame, hmiss⟩ := ih { cache with
        stats := { cache.stats with pageMisses := Word.saturatingAdd 64 cache.stats.pageMisses 1 } }
      refine ⟨?_, ?_⟩
      · simpa [markHits, hkey] using (sameResidency_stats cache _).trans hsame
      · simpa [markHits, hkey] using hmiss

/-- Whether a page is pinned depends on the keys of the slots alone. -/
theorem pinned_congr {before after : FixedPleCache} (h : after.slotKey = before.slotKey)
    (protectedKeys : List PageKey) (selected : List Nat) (slot : Nat) :
    after.pinned protectedKeys selected slot = before.pinned protectedKeys selected slot := by
  have hkey : (after.slotAt slot).key = (before.slotAt slot).key := congrFun h slot
  simp only [pinned, hkey]

/-- The clock scan keeps the residency data, and the slot it stops at is in range and not
pinned. Induction on the number of hand steps left. -/
theorem clockScan_spec (protectedKeys : List PageKey) (selected : List Nat) (limit : Nat) :
    ∀ cache : FixedPleCache, cache.hand < cache.slots.length →
      SameResidency cache (clockScan protectedKeys selected limit cache).1 ∧
        ∀ slot, (clockScan protectedKeys selected limit cache).2 = some slot →
          slot < cache.slots.length ∧ cache.pinned protectedKeys selected slot = false := by
  induction limit with
  | zero => exact fun cache _ => ⟨.refl cache, fun slot h => by simp [clockScan] at h⟩
  | succ limit ih =>
    intro cache hhand
    have hmoved := sameResidency_moveHand cache
    simp only [clockScan]
    split
    · -- a pinned slot: the hand moves on
      obtain ⟨hsame, hslot⟩ := ih _ (hmoved.hand hhand)
      exact ⟨hmoved.trans hsame, hslot⟩
    · next hpinned =>
      split
      · -- a second chance: clear the reference bit and move on
        have hclear := hmoved.trans (sameResidency_setReferenced _ cache.hand false)
        obtain ⟨hsame, hslot⟩ := ih _ (hclear.hand hhand)
        refine ⟨hclear.trans hsame, fun slot h => ?_⟩
        obtain ⟨hlt, hfree⟩ := hslot slot h
        rw [hclear.length] at hlt
        rw [pinned_congr hclear.slotKey] at hfree
        exact ⟨hlt, hfree⟩
      · refine ⟨hmoved, fun slot h => ?_⟩
        cases h
        exact ⟨hhand, by simpa [pinned_congr hmoved.slotKey] using hpinned⟩

/-- A reserved slot is in range, not reserved before, and holds no page of the request. -/
structure Reservable (cache : FixedPleCache) (protectedKeys : List PageKey)
    (selected : List Nat) (slot : Nat) : Prop where
  lt : slot < cache.slots.length
  fresh : slot ∉ selected
  unprotected : ∀ key, cache.slotKey slot = some key → key ∉ protectedKeys

/-- A slot without a page can be reserved. -/
theorem reservable_of_vacant {cache : FixedPleCache} {protectedKeys : List PageKey}
    {selected : List Nat} {slot : Nat} (h : cache.vacantSlot selected = some slot) :
    Reservable cache protectedKeys selected slot := by
  have hfound := List.find?_some h
  have hmem := List.mem_of_find?_eq_some h
  simp only [Bool.and_eq_true, Option.isNone_iff_eq_none, Bool.not_eq_true',
    List.contains_eq_mem, decide_eq_false_iff_not] at hfound
  refine ⟨List.mem_range.mp hmem, hfound.2, fun key hkey => ?_⟩
  rw [slotKey, hfound.1] at hkey
  cases hkey

theorem reservable_of_not_pinned {cache : FixedPleCache} {protectedKeys : List PageKey}
    {selected : List Nat} {slot : Nat} (hlt : slot < cache.slots.length)
    (h : cache.pinned protectedKeys selected slot = false) :
    Reservable cache protectedKeys selected slot := by
  simp only [pinned, Bool.or_eq_false_iff, List.contains_eq_mem, decide_eq_false_iff_not] at h
  refine ⟨hlt, h.1, fun key hkey => ?_⟩
  have hfree := h.2
  rw [show (cache.slotAt slot).key = some key from hkey] at hfree
  simpa using hfree

/-- The sweep reserves a slot that no protected page has, or finds none. -/
theorem reserveFixedSlot_spec {cache : FixedPleCache} (hhand : cache.hand < cache.slots.length)
    (protectedKeys : List PageKey) (selected : List Nat) :
    SameResidency cache (cache.reserveFixedSlot protectedKeys selected).1 ∧
      ∀ slot, (cache.reserveFixedSlot protectedKeys selected).2 = .ok slot →
        Reservable cache protectedKeys selected slot := by
  unfold reserveFixedSlot
  split
  · next slot hvacant =>
    exact ⟨.refl cache, fun s hs => by cases hs; exact reservable_of_vacant hvacant⟩
  · split
    · exact ⟨.refl cache, fun s hs => by cases hs⟩
    · next scanLimit _ =>
      obtain ⟨hsame, hslot⟩ := clockScan_spec protectedKeys selected scanLimit cache hhand
      split
      · next scanned slot hscan =>
        rw [hscan] at hsame hslot
        refine ⟨hsame, fun s hs => ?_⟩
        cases hs
        obtain ⟨hlt, hfree⟩ := hslot slot rfl
        exact reservable_of_not_pinned hlt hfree
      · next scanned hscan =>
        rw [hscan] at hsame
        exact ⟨hsame, fun s hs => by cases hs⟩

/-! ## Eviction -/

theorem slotKey_set {cache : FixedPleCache} {slot : Nat} (hlt : slot < cache.slots.length)
    (state : FixedCacheSlot) :
    ({ cache with slots := cache.slots.set slot state } : FixedPleCache).slotKey =
      Function.update cache.slotKey slot state.key := by
  funext s
  simp only [slotKey, slotAt, List.getD_eq_getElem?_getD]
  by_cases h : s = slot
  · subst h
    rw [Function.update_self, List.getElem?_set_self hlt]
    rfl
  · rw [Function.update_of_ne h, List.getElem?_set_ne (Ne.symm h)]
    rfl

/-- What vacating a slot does: the slot is empty afterwards, the index forgets exactly the
key it held, and reader and geometry stay. -/
theorem vacate_spec {cache : FixedPleCache} {slot : Nat} (hlt : slot < cache.slots.length) :
    (cache.vacate slot).slotKey = Function.update cache.slotKey slot none ∧
      (cache.vacate slot).index =
        (match cache.slotKey slot with
          | some victim => Function.update cache.index victim none
          | none => cache.index) ∧
      (cache.vacate slot).files = cache.files ∧
      (cache.vacate slot).pageBytes = cache.pageBytes ∧
      (cache.vacate slot).reader = cache.reader ∧
      (cache.vacate slot).readPolicy = cache.readPolicy ∧
      (cache.vacate slot).hand = cache.hand ∧
      (cache.vacate slot).slots.length = cache.slots.length := by
  unfold vacate
  rw [show cache.slotKey slot = (cache.slotAt slot).key from rfl]
  cases hkey : (cache.slotAt slot).key with
  | none =>
    refine ⟨slotKey_set hlt _, rfl, rfl, rfl, rfl, rfl, rfl, ?_⟩
    simp
  | some victim =>
    refine ⟨slotKey_set hlt _, rfl, rfl, rfl, rfl, rfl, rfl, ?_⟩
    simp

/-- A vacated cache knows no page it did not know before. -/
theorem index_vacate_le {cache : FixedPleCache} {slot : Nat} (hlt : slot < cache.slots.length)
    {key : PageKey} {s : Nat} (h : (cache.vacate slot).index key = some s) :
    cache.index key = some s := by
  rw [(vacate_spec hlt).2.1] at h
  cases hkey : cache.slotKey slot with
  | none => simpa [hkey] using h
  | some victim =>
    simp only [hkey] at h
    by_cases hv : key = victim
    · subst hv; simp at h
    · rwa [Function.update_of_ne hv] at h

/-- A page leaves both tables at once. -/
theorem Placed.vacate {cache : FixedPleCache} (h : Placed cache) {slot : Nat}
    (hlt : slot < cache.slots.length) : Placed (cache.vacate slot) := by
  obtain ⟨hslot, hindex, hfiles, hpage, -, -, hhand, hlength⟩ := vacate_spec hlt
  refine ⟨⟨?_, ?_, ?_⟩, ?_, ?_⟩
  · rw [hpage]; exact h.pageBytes_pow
  · rw [hpage]; exact h.pageBytes_le
  · rw [hhand, hlength]; exact h.hand_lt
  · rw [hslot, hindex]
    cases hkey : cache.slotKey slot with
    | none =>
      rw [show Function.update cache.slotKey slot none = cache.slotKey from by
        rw [← hkey]; exact Function.update_eq_self _ _]
      exact h.inverse
    | some victim => exact h.inverse.evict hkey
  · intro key s hs
    unfold Readable
    rw [hfiles]
    exact h.readable key s (index_vacate_le hlt hs)

/-- A successor over the same files, slots and slab that knows no page it did not know before. -/
structure Shrinks (before after : FixedPleCache) : Prop where
  files : after.files = before.files
  pageBytes : after.pageBytes = before.pageBytes
  length : after.slots.length = before.slots.length
  reader : after.reader = before.reader
  readPolicy : after.readPolicy = before.readPolicy
  index_le : ∀ key slot, after.index key = some slot → before.index key = some slot
  vacant : ∀ slot, before.slotKey slot = none → after.slotKey slot = none

theorem Shrinks.refl (cache : FixedPleCache) : Shrinks cache cache :=
  ⟨rfl, rfl, rfl, rfl, rfl, fun _ _ h => h, fun _ h => h⟩

theorem Shrinks.trans {a b c : FixedPleCache} (hab : Shrinks a b) (hbc : Shrinks b c) : Shrinks a c where
  files := hbc.files.trans hab.files
  pageBytes := hbc.pageBytes.trans hab.pageBytes
  length := hbc.length.trans hab.length
  reader := hbc.reader.trans hab.reader
  readPolicy := hbc.readPolicy.trans hab.readPolicy
  index_le key slot h := hab.index_le key slot (hbc.index_le key slot h)
  vacant slot h := hbc.vacant slot (hab.vacant slot h)

theorem SameResidency.shrinks {before after : FixedPleCache} (h : SameResidency before after) :
    Shrinks before after where
  files := h.files
  pageBytes := h.pageBytes
  length := h.length
  reader := h.reader
  readPolicy := h.readPolicy
  index_le key slot hkey := by rwa [h.index] at hkey
  vacant slot hslot := by rwa [h.slotKey]

theorem shrinks_vacate {cache : FixedPleCache} {slot : Nat} (hlt : slot < cache.slots.length) :
    Shrinks cache (cache.vacate slot) := by
  obtain ⟨hkey, -, hfiles, hpage, hreader, hpolicy, -, hlength⟩ := vacate_spec hlt
  refine ⟨hfiles, hpage, hlength, hreader, hpolicy, fun _ _ => index_vacate_le hlt, fun s hs => ?_⟩
  rw [hkey]
  by_cases hss : s = slot
  · rw [hss, Function.update_self]
  · rwa [Function.update_of_ne hss]

/-- What the reservation loop hands out. -/
structure Reserved (before after : FixedPleCache) (misses : List PageKey) (selected : List Nat)
    (destinations : List (PageKey × Nat)) : Prop where
  keys : destinations.map (·.1) = misses
  slots_nodup : (destinations.map (·.2)).Nodup
  slots_fresh : ∀ slot ∈ destinations.map (·.2), slot ∉ selected
  slots_lt : ∀ slot ∈ destinations.map (·.2), slot < before.slots.length
  slots_vacant : ∀ slot ∈ destinations.map (·.2), after.slotKey slot = none

/-- The reservation loop keeps table and index inverse, and on success hands out one vacated slot
per missing key, all different. Induction on the missing keys: each round vacates a slot
that no earlier round selected. -/
theorem reserveAll_spec (protectedKeys : List PageKey) (misses : List PageKey) :
    ∀ (selected : List Nat) (cache : FixedPleCache), Placed cache →
      Placed (reserveAll protectedKeys misses selected cache).1 ∧
        Shrinks cache (reserveAll protectedKeys misses selected cache).1 ∧
        ∀ destinations, (reserveAll protectedKeys misses selected cache).2 = .ok destinations →
          Reserved cache (reserveAll protectedKeys misses selected cache).1 misses selected
            destinations := by
  induction misses with
  | nil =>
    intro selected cache h
    refine ⟨h, .refl cache, fun destinations hd => ?_⟩
    cases hd
    exact ⟨rfl, by simp, by simp, by simp, by simp⟩
  | cons key misses ih =>
    intro selected cache h
    obtain ⟨hsame, hslot⟩ := reserveFixedSlot_spec h.hand_lt protectedKeys selected
    cases hres : cache.reserveFixedSlot protectedKeys selected with
    | mk scanned answer =>
      rw [hres] at hsame hslot
      have hscan := h.of_sameResidency hsame
      cases answer with
      | error e =>
        simp only [reserveAll, hres]
        exact ⟨hscan, hsame.shrinks, fun destinations hd => by cases hd⟩
      | ok slot =>
        have hreserve := hslot slot rfl
        have hlt : slot < scanned.slots.length := by
          rw [hsame.length]
          exact hreserve.lt
        have hvkey := (vacate_spec hlt).1
        have hvacate := hsame.shrinks.trans (shrinks_vacate hlt)
        obtain ⟨hplaced, hshrinks, hok⟩ := ih (slot :: selected) (scanned.vacate slot) (hscan.vacate hlt)
        cases hrest : reserveAll protectedKeys misses (slot :: selected) (scanned.vacate slot) with
        | mk rest answer =>
          rw [hrest] at hplaced hshrinks hok
          cases answer with
          | error e =>
            simp only [reserveAll, hres, hrest]
            exact ⟨hplaced, hvacate.trans hshrinks, fun destinations hd => by cases hd⟩
          | ok tail =>
            simp only [reserveAll, hres, hrest]
            refine ⟨hplaced, hvacate.trans hshrinks, fun destinations hd => ?_⟩
            cases hd
            have hr := hok tail rfl
            have hvacant : (scanned.vacate slot).slotKey slot = none := by rw [hvkey]; simp
            refine ⟨?_, ?_, ?_, ?_, ?_⟩
            · simp [hr.keys]
            · rw [List.map_cons, List.nodup_cons]
              exact ⟨fun hmem => hr.slots_fresh slot hmem (by simp), hr.slots_nodup⟩
            · intro s hs
              rcases List.mem_cons.mp hs with rfl | hs
              · exact hreserve.fresh
              · exact fun hsel => hr.slots_fresh s hs (List.mem_cons_of_mem _ hsel)
            · intro s hs
              rcases List.mem_cons.mp hs with rfl | hs
              · exact hreserve.lt
              · rw [← hvacate.length]
                exact hr.slots_lt s hs
            · intro s hs
              rcases List.mem_cons.mp hs with rfl | hs
              · exact hshrinks.vacant _ hvacant
              · exact hr.slots_vacant s hs

/-! ## Publication -/

/-- A successor over the same files and the same slots. -/
structure PlacedStep (before after : FixedPleCache) : Prop where
  placed : Placed after
  files : after.files = before.files
  pageBytes : after.pageBytes = before.pageBytes
  length : after.slots.length = before.slots.length

theorem PlacedStep.trans {a b c : FixedPleCache} (hab : PlacedStep a b) (hbc : PlacedStep b c) :
    PlacedStep a c :=
  ⟨hbc.placed, hbc.files.trans hab.files, hbc.pageBytes.trans hab.pageBytes,
    hbc.length.trans hab.length⟩

theorem Placed.step_refl {cache : FixedPleCache} (h : Placed cache) : PlacedStep cache cache :=
  ⟨h, rfl, rfl, rfl⟩

theorem Placed.step_shrinks {before after : FixedPleCache} (h : Placed after)
    (hshrinks : Shrinks before after) : PlacedStep before after :=
  ⟨h, hshrinks.files, hshrinks.pageBytes, hshrinks.length⟩

/-- `after` differs from `before` in slab, ring and counters at most. -/
structure SameTable (before after : FixedPleCache) : Prop where
  files : after.files = before.files
  pageBytes : after.pageBytes = before.pageBytes
  slots : after.slots = before.slots
  index : after.index = before.index
  hand : after.hand = before.hand
  readPolicy : after.readPolicy = before.readPolicy

theorem SameTable.slotKey {before after : FixedPleCache} (h : SameTable before after) :
    after.slotKey = before.slotKey := by
  funext slot
  rw [FixedPleCache.slotKey, slotAt, h.slots]
  rfl

theorem SameTable.readable {before after : FixedPleCache} (h : SameTable before after) {key : PageKey} :
    after.Readable key ↔ before.Readable key := by
  rw [Readable, Readable, h.files]

theorem Placed.of_table {before after : FixedPleCache} (h : Placed before) (hsame : SameTable before after) :
    PlacedStep before after where
  placed := by
    refine ⟨⟨?_, ?_, ?_⟩, ?_, ?_⟩
    · rw [hsame.pageBytes]; exact h.pageBytes_pow
    · rw [hsame.pageBytes]; exact h.pageBytes_le
    · rw [hsame.hand, hsame.slots]; exact h.hand_lt
    · rw [hsame.slotKey, hsame.index]; exact h.inverse
    · intro key slot hslot
      rw [hsame.index] at hslot
      exact hsame.readable.mpr (h.readable key slot hslot)
  files := hsame.files
  pageBytes := hsame.pageBytes
  length := by rw [hsame.slots]

@[simp] theorem kernelSteps_pageBytes (cache : FixedPleCache) (steps : List KernelStep) :
    (cache.kernelSteps steps).pageBytes = cache.pageBytes := rfl

@[simp] theorem kernelSteps_slots (cache : FixedPleCache) (steps : List KernelStep) :
    (cache.kernelSteps steps).slots = cache.slots := rfl

theorem sameTable_kernelSteps (cache : FixedPleCache) (steps : List KernelStep) :
    SameTable cache (cache.kernelSteps steps) := ⟨rfl, rfl, rfl, rfl, rfl, rfl⟩

theorem sameTable_zeroFill (cache : FixedPleCache) (destinations : List (PageKey × Nat)) :
    SameTable cache (cache.zeroFill destinations) := ⟨rfl, rfl, rfl, rfl, rfl, rfl⟩

/-- Reading touches the slab and not the tables. -/
theorem sameTable_readPages (cache : FixedPleCache) (reads : List FixedRead) (answers : ReadAnswers) :
    SameTable cache (cache.readPages reads answers).1 := by
  unfold readPages
  split <;> exact ⟨rfl, rfl, rfl, rfl, rfl, rfl⟩

/-- The slots that a batch has reserved: each is vacant, and each of their pages is missing. -/
structure Destined (cache : FixedPleCache) (destinations : List (PageKey × Nat)) : Prop where
  keys : (destinations.map (·.1)).Nodup
  slots : (destinations.map (·.2)).Nodup
  absent : ∀ d ∈ destinations, cache.index d.1 = none
  inside : ∀ d ∈ destinations, d.2 < cache.slots.length
  vacant : ∀ d ∈ destinations, cache.slotKey d.2 = none

theorem Destined.of_table {before after : FixedPleCache} {destinations : List (PageKey × Nat)}
    (h : Destined before destinations) (hsame : SameTable before after) : Destined after destinations := by
  refine ⟨h.keys, h.slots, ?_, ?_, ?_⟩
  · rw [hsame.index]
    exact h.absent
  · rw [hsame.slots]
    exact h.inside
  · rw [hsame.slotKey]
    exact h.vacant

/-- Publishing pages of the files in vacant slots keeps table and index inverse. Induction along the
destinations: keys and slots are all different, so each stays publishable until its turn. -/
theorem Placed.publish (destinations : List (PageKey × Nat)) :
    ∀ {cache : FixedPleCache}, Placed cache → Destined cache destinations →
      (∀ d ∈ destinations, cache.Readable d.1) → PlacedStep cache (cache.publish destinations) := by
  induction destinations with
  | nil => exact fun h _ _ => h.step_refl
  | cons destination rest ih =>
    intro cache h hdestined hreadable
    obtain ⟨hkeys, hslots, habsent, hinside, hvacant⟩ := hdestined
    rw [List.map_cons, List.nodup_cons] at hkeys hslots
    rw [List.forall_mem_cons] at habsent hinside hvacant hreadable
    set next : FixedPleCache := { cache with
      slots := cache.slots.set destination.2 ⟨some destination.1, true⟩
      index := Function.update cache.index destination.1 (some destination.2) } with hnext
    have hnextKey : next.slotKey = Function.update cache.slotKey destination.2 (some destination.1) :=
      slotKey_set hinside.1 _
    have hstep : PlacedStep cache next := by
      refine ⟨⟨⟨h.pageBytes_pow, h.pageBytes_le, ?_⟩, ?_, fun key slot hslot => ?_⟩, rfl, rfl, ?_⟩
      · simpa [hnext] using h.hand_lt
      · rw [hnextKey]
        exact h.inverse.insert hvacant.1 habsent.1
      · by_cases hk : key = destination.1
        · rw [hk]
          exact hreadable.1
        · simp only [hnext, Function.update_of_ne hk] at hslot
          exact h.readable key slot hslot
      · simp [hnext]
    rw [show cache.publish (destination :: rest) = next.publish rest from rfl]
    have hother : ∀ d ∈ rest, d.1 ≠ destination.1 ∧ d.2 ≠ destination.2 := fun d hd =>
      ⟨fun heq => hkeys.1 (heq ▸ List.mem_map_of_mem hd), fun heq => hslots.1 (heq ▸ List.mem_map_of_mem hd)⟩
    refine hstep.trans (ih hstep.placed ⟨hkeys.2, hslots.2, fun d hd => ?_, fun d hd => ?_, fun d hd => ?_⟩
      hreadable.2)
    · simp only [hnext, Function.update_of_ne (hother d hd).1]
      exact habsent.2 d hd
    · simpa [hnext] using hinside.2 d hd
    · rw [hnextKey, Function.update_of_ne (hother d hd).2]
      exact hvacant.2 d hd

theorem sameResidency_countReads (cache : FixedPleCache) (parallel : Bool) (stats : FixedReadStats) :
    SameResidency cache (cache.countReads parallel stats) :=
  ⟨rfl, rfl, rfl, rfl, rfl, rfl, rfl, id⟩

/-- A page is read where its slot begins. -/
theorem pageRead_ok {cache : FixedPleCache} {destination : PageKey × Nat} {read : FixedRead}
    (h : cache.pageRead destination = .ok read) :
    cache.files[destination.1.shard]? = some read.file ∧
      destination.1.byteOffset < read.file.size ∧
      read.fileOffset = destination.1.byteOffset ∧
      read.bufferOffset = destination.2 * cache.pageBytes ∧
      read.bytes = min (read.file.size - destination.1.byteOffset) cache.pageBytes := by
  unfold pageRead at h
  split at h
  · cases h
  · next file hfile =>
    split at h
    · cases h
    · next hlt =>
      cases h
      exact ⟨hfile, Nat.lt_of_not_le hlt, rfl, rfl, rfl⟩

/-! ## One call -/

/-- What the load of a batch can come to. -/
theorem loadPages_cases (cache : FixedPleCache) (destinations : List (PageKey × Nat)) (answers : ReadAnswers) :
    (∃ e, destinations.mapM (cache.zeroFill destinations).pageRead = .error e ∧
      cache.loadPages destinations answers = (cache.zeroFill destinations, .error e)) ∨
    ∃ reads, destinations.mapM (cache.zeroFill destinations).pageRead = .ok reads ∧
      ((∃ error, ((cache.zeroFill destinations).readPages reads answers).2 = .error error ∧
        cache.loadPages destinations answers =
          (((cache.zeroFill destinations).readPages reads answers).1, .error (.io error))) ∨
      ∃ stats, ((cache.zeroFill destinations).readPages reads answers).2 = .ok stats ∧
        cache.loadPages destinations answers =
          ((((cache.zeroFill destinations).readPages reads answers).1.publish destinations).countReads
            (parallelRead cache.readPolicy reads.length) stats, .ok ())) := by
  unfold loadPages
  simp only
  cases destinations.mapM (cache.zeroFill destinations).pageRead with
  | error e => exact Or.inl ⟨e, rfl, rfl⟩
  | ok reads =>
    refine Or.inr ⟨reads, rfl, ?_⟩
    have hpolicy := (sameTable_readPages (cache.zeroFill destinations) reads answers).readPolicy
    simp only
    generalize (cache.zeroFill destinations).readPages reads answers = read at hpolicy
    obtain ⟨after, answer⟩ := read
    cases answer with
    | error error => exact Or.inl ⟨error, rfl, rfl⟩
    | ok stats =>
      simp only at hpolicy ⊢
      rw [hpolicy]
      exact Or.inr ⟨stats, rfl, rfl⟩

/-- Loading into reserved slots keeps table and index inverse, however the kernel answers. -/
theorem loadPages_placed {cache : FixedPleCache} (h : Placed cache) {destinations : List (PageKey × Nat)}
    (hdestined : Destined cache destinations) (answers : ReadAnswers) :
    PlacedStep cache (cache.loadPages destinations answers).1 := by
  have hzero := sameTable_zeroFill cache destinations
  have hzeroed := h.of_table hzero
  rcases loadPages_cases cache destinations answers with ⟨e, -, hload⟩ | ⟨reads, hreads, hrest⟩
  · rw [hload]
    exact hzeroed
  have hsame := sameTable_readPages (cache.zeroFill destinations) reads answers
  have hread := hzeroed.placed.of_table hsame
  rcases hrest with ⟨error, -, hload⟩ | ⟨stats, -, hload⟩
  · rw [hload]
    exact hzeroed.trans hread
  have hpublished := hread.placed.publish destinations ((hdestined.of_table hzero).of_table hsame)
    fun d hd => by
      obtain ⟨read, -, hok⟩ := Traverse.forall₂_exists_right (Traverse.mapM_ok_iff.mp hreads) hd
      obtain ⟨hfile, hlt, -⟩ := pageRead_ok hok
      exact hsame.readable.mpr ⟨read.file, hfile, hlt⟩
  have hcounted := sameResidency_countReads
    (((cache.zeroFill destinations).readPages reads answers).1.publish destinations)
    (parallelRead cache.readPolicy reads.length) stats
  rw [hload]
  exact hzeroed.trans (hread.trans (hpublished.trans
    ((hpublished.placed.of_sameResidency hcounted).step_shrinks hcounted.shrinks)))

theorem nodup_insertUnique {keys : List PageKey} (h : keys.Nodup) (key : PageKey) :
    (insertUnique keys key).Nodup := by
  unfold insertUnique
  split
  · exact h
  · next hnot =>
    rw [List.nodup_append]
    refine ⟨h, by simp, fun a ha b hb => ?_⟩
    rintro rfl
    rw [List.mem_singleton] at hb
    subst hb
    exact hnot (by simpa using ha)

theorem nodup_requestKeys (pageBytes : Nat) (addresses : List RowAddress) :
    (addresses.foldl (addRowKeys pageBytes) []).Nodup := by
  suffices h : ∀ keys : List PageKey, keys.Nodup →
      (addresses.foldl (addRowKeys pageBytes) keys).Nodup from h [] (by simp)
  induction addresses with
  | nil => exact fun keys h => h
  | cons address rest ih =>
    intro keys h
    rw [List.foldl_cons]
    apply ih
    unfold addRowKeys
    simp only
    split
    · exact nodup_insertUnique (nodup_insertUnique h _) _
    · exact nodup_insertUnique h _

/-- The reservation of the missing pages of a request, as `ensure_fixed_pages` makes it. -/
theorem reserveMisses_spec {cache : FixedPleCache} (h : Placed cache) {keys : List PageKey} (hkeys : keys.Nodup) :
    Placed (reserveAll keys (markHits keys cache).2 [] (markHits keys cache).1).1 ∧
      Shrinks cache (reserveAll keys (markHits keys cache).2 [] (markHits keys cache).1).1 ∧
      ∀ destinations, (reserveAll keys (markHits keys cache).2 [] (markHits keys cache).1).2 = .ok destinations →
        destinations.map (·.1) = keys.filter (fun key => (cache.index key).isNone) ∧
          Destined (reserveAll keys (markHits keys cache).2 [] (markHits keys cache).1).1 destinations := by
  obtain ⟨hsame, hmisses⟩ := markHits_spec keys cache
  obtain ⟨hplaced, hshrinks, hok⟩ :=
    reserveAll_spec keys (markHits keys cache).2 [] (markHits keys cache).1 (h.of_sameResidency hsame)
  refine ⟨hplaced, hsame.shrinks.trans hshrinks, fun destinations hdestinations => ?_⟩
  have hr := hok destinations hdestinations
  have hmissing := hr.keys.trans hmisses
  refine ⟨hmissing, ?_, hr.slots_nodup, fun d hd => ?_, fun d hd => ?_, fun d hd => ?_⟩
  · rw [hmissing]
    exact hkeys.filter _
  · -- a missing key is absent, and reserving slots published nothing
    have hmem : d.1 ∈ keys.filter fun key => (cache.index key).isNone := by
      rw [← hmissing]
      exact List.mem_map_of_mem hd
    have habsent : cache.index d.1 = none := by
      simpa using (List.mem_filter.mp hmem).2
    refine Option.eq_none_iff_forall_ne_some.mpr fun slot hslot => ?_
    rw [(hsame.shrinks.trans hshrinks).index_le d.1 slot hslot] at habsent
    cases habsent
  · rw [hshrinks.length]
    exact hr.slots_lt _ (List.mem_map_of_mem hd)
  · exact hr.slots_vacant _ (List.mem_map_of_mem hd)

/-- What becomes of the pages of a request: all are resident, or slots are reserved for the missing ones, and these
are loaded. -/
theorem ensureFixedPages_cases (cache : FixedPleCache) (keys : List PageKey) (answers : ReadAnswers) :
    ((markHits keys cache).2 = [] ∧ cache.ensureFixedPages keys answers = ((markHits keys cache).1, .ok ())) ∨
    (markHits keys cache).2 ≠ [] ∧
      ((∃ e, (reserveAll keys (markHits keys cache).2 [] (markHits keys cache).1).2 = .error e ∧
        cache.ensureFixedPages keys answers =
          ((reserveAll keys (markHits keys cache).2 [] (markHits keys cache).1).1, .error e)) ∨
      ∃ destinations, (reserveAll keys (markHits keys cache).2 [] (markHits keys cache).1).2 = .ok destinations ∧
        cache.ensureFixedPages keys answers =
          (reserveAll keys (markHits keys cache).2 [] (markHits keys cache).1).1.loadPages destinations answers) := by
  unfold ensureFixedPages
  obtain ⟨marked, misses⟩ := markHits keys cache
  cases misses with
  | nil => exact Or.inl ⟨rfl, rfl⟩
  | cons key misses =>
    refine Or.inr ⟨List.cons_ne_nil _ _, ?_⟩
    simp only
    obtain ⟨reserved, answer⟩ := reserveAll keys (key :: misses) [] marked
    cases answer with
    | error e => exact Or.inl ⟨e, rfl, rfl⟩
    | ok destinations => exact Or.inr ⟨destinations, rfl, rfl⟩

/-- Whatever comes of the reads, the tables stay inverse to each other. -/
theorem ensureFixedPages_placed {cache : FixedPleCache} (h : Placed cache) {keys : List PageKey}
    (hkeys : keys.Nodup) (answers : ReadAnswers) : PlacedStep cache (cache.ensureFixedPages keys answers).1 := by
  obtain ⟨hsame, -⟩ := markHits_spec keys cache
  obtain ⟨hplaced, hshrinks, hok⟩ := reserveMisses_spec h hkeys
  rcases ensureFixedPages_cases cache keys answers with ⟨-, hensure⟩ | ⟨-, ⟨e, -, hensure⟩ | ⟨destinations, hd, hensure⟩⟩
  · rw [hensure]
    exact (h.of_sameResidency hsame).step_shrinks hsame.shrinks
  · rw [hensure]
    exact hplaced.step_shrinks hshrinks
  · rw [hensure]
    exact (hplaced.step_shrinks hshrinks).trans (loadPages_placed hplaced (hok destinations hd).2 answers)

/-- A request that `fetch_rows` does not refuse at once. -/
structure Admitted (cache : FixedPleCache) (index : PleIndex) (rows : List Nat) (addresses : List RowAddress) : Prop where
  pageBytes : index.pageBytes = cache.pageBytes
  located : rows.mapM index.address = .ok addresses
  room : (addresses.foldl (addRowKeys cache.pageBytes) []).length ≤ cache.slots.length

/-- An admitted request: its pages are ensured, and then its fragments are made. -/
theorem fetchRows_admitted {cache : FixedPleCache} {index : PleIndex} {rows : List Nat} {answers : ReadAnswers}
    {addresses : List RowAddress} (h : (cache.kernelSteps answers.before).Admitted index rows addresses) :
    let load := (cache.kernelSteps answers.before).ensureFixedPages
      (addresses.foldl (addRowKeys cache.pageBytes) []) answers
    cache.fetchRows index rows answers =
      (load.1, load.2.bind fun _ => addresses.mapM (load.1.fragment index.rowBytes)) := by
  have hroom : ¬ (addresses.foldl (addRowKeys cache.pageBytes) []).length > cache.slots.length :=
    Nat.not_lt_of_le h.room
  have hpage : ¬ index.pageBytes ≠ cache.pageBytes := not_not.mpr h.pageBytes
  unfold fetchRows
  simp only [h.located, kernelSteps_pageBytes, kernelSteps_slots]
  refine (if_neg hpage).trans ((if_neg hroom).trans ?_)
  generalize (cache.kernelSteps answers.before).ensureFixedPages
    (addresses.foldl (addRowKeys cache.pageBytes) []) answers = load
  obtain ⟨after, answer⟩ := load
  cases answer <;> rfl

/-- Any other request changes nothing. -/
theorem fetchRows_refused {cache : FixedPleCache} {index : PleIndex} {rows : List Nat} {answers : ReadAnswers}
    (h : ∀ addresses, ¬ (cache.kernelSteps answers.before).Admitted index rows addresses) :
    ∃ e, cache.fetchRows index rows answers = (cache.kernelSteps answers.before, .error e) := by
  unfold fetchRows
  simp only
  split
  · exact ⟨_, rfl⟩
  next hpage =>
  cases haddresses : rows.mapM index.address with
  | error e => exact ⟨_, rfl⟩
  | ok addresses =>
    simp only
    rw [if_pos]
    · exact ⟨_, rfl⟩
    · by_contra hroom
      exact h addresses ⟨not_not.mp hpage, haddresses, Nat.le_of_not_lt hroom⟩

/-- **One call keeps table and index inverse**, whether it returns rows or an error. -/
theorem fetchRows_placed {cache : FixedPleCache} (h : Placed cache) (index : PleIndex)
    (rows : List Nat) (answers : ReadAnswers) :
    PlacedStep cache (cache.fetchRows index rows answers).1 := by
  have hkernel := h.of_table (sameTable_kernelSteps cache answers.before)
  by_cases hadmitted : ∃ addresses, (cache.kernelSteps answers.before).Admitted index rows addresses
  · obtain ⟨addresses, hadmitted⟩ := hadmitted
    rw [fetchRows_admitted hadmitted]
    exact hkernel.trans (ensureFixedPages_placed hkernel.placed (nodup_requestKeys _ addresses) answers)
  · obtain ⟨e, hrefused⟩ := fetchRows_refused (not_exists.mp hadmitted)
    rw [hrefused]
    exact hkernel

/-- **So does any sequence of calls.** Induction on the calls. -/
theorem run_placed {cache : FixedPleCache} (h : Placed cache) (calls : List FetchCall) :
    PlacedStep cache (cache.run calls) := by
  induction calls generalizing cache with
  | nil => exact h.step_refl
  | cons call calls ih =>
    have hstep := fetchRows_placed h call.index call.rows call.answers
    exact hstep.trans (ih hstep.placed)

/-! ## An opened cache -/

section Opened

variable {index : PleIndex} {modelRoot : String → Except IoError OpenFile} {slab : Slab} {queueDepth : Nat}
  {ring : Except Int Unit} {readPolicy : FixedReadPolicy} {cache : FixedPleCache}

/-- What opening a cache checks, and what it makes. -/
theorem openWithDeviceBase_ok
    (hopen : openWithDeviceBase index modelRoot slab queueDepth ring readPolicy = .ok cache) :
    (0 < index.pageBytes ∧ index.pageBytes.isPowerOfTwo ∧ 0 < slab.len ∧ slab.len % index.pageBytes = 0) ∧
      ∃ files config, index.shards.mapM (openShard modelRoot) = .ok files ∧
        cache = { files, pageBytes := index.pageBytes
                  slots := List.replicate (slab.len / index.pageBytes) ⟨none, false⟩
                  index := fun _ => none, hand := 0, config, reader := ⟨.idle, slab.bytes, []⟩
                  readPolicy, stats := {} } := by
  unfold openWithDeviceBase at hopen
  split at hopen
  · cases hopen
  next hgeom =>
  simp only [not_or, not_not] at hgeom
  obtain ⟨hpos, hpow, hlen, hmod⟩ := hgeom
  split at hopen
  · cases hopen
  split at hopen
  · cases hopen
  next files hfiles =>
  split at hopen
  · cases hopen
  next config _ =>
  cases hopen
  exact ⟨⟨Nat.pos_of_ne_zero hpos, hpow, Nat.pos_of_ne_zero hlen, hmod⟩, files, config, hfiles, rfl⟩

/-- In a freshly opened cache nothing is resident. -/
theorem openWithDeviceBase_placed
    (hopen : openWithDeviceBase index modelRoot slab queueDepth ring readPolicy = .ok cache) :
    Placed cache ∧ cache.pageBytes = index.pageBytes := by
  obtain ⟨⟨hpos, ⟨k, hk⟩, hlen, hmod⟩, files, config, -, rfl⟩ := openWithDeviceBase_ok hopen
  have hle : index.pageBytes ≤ slab.len := Nat.le_of_dvd hlen (Nat.dvd_of_mod_eq_zero hmod)
  refine ⟨⟨⟨⟨k, hk⟩, ?_, ?_⟩, fun key slot => ⟨nofun, fun h => ?_⟩, nofun⟩, rfl⟩
  · -- a power of two below `2 ^ 63` is at most `2 ^ 62`
    have hlt : 2 ^ k < 2 ^ 63 := by rw [← hk]; exact lt_of_le_of_lt hle slab.len_lt
    have hk63 : k < 63 := (Nat.pow_lt_pow_iff_right (by omega)).mp hlt
    show index.pageBytes ≤ 2 ^ 62
    rw [hk]
    exact Nat.pow_le_pow_right (by omega) (by omega)
  · show 0 < (List.replicate (slab.len / index.pageBytes) _).length
    rw [List.length_replicate]
    exact Nat.div_pos hle hpos
  · rw [slotKey, slotAt, List.getD_eq_getElem?_getD, List.getElem?_replicate] at h
    split at h <;> simp at h

/-- Opening a cache opens the file of every shard. -/
theorem openWithDeviceBase_shards
    (hopen : openWithDeviceBase index modelRoot slab queueDepth ring readPolicy = .ok cache) :
    List.Forall₂ (fun shard file => openShard modelRoot shard = .ok file) index.shards cache.files := by
  obtain ⟨-, files, config, hfiles, rfl⟩ := openWithDeviceBase_ok hopen
  exact Traverse.mapM_ok_iff.mp hfiles

/-- The slots are in the slab. -/
theorem openWithDeviceBase_slots
    (hopen : openWithDeviceBase index modelRoot slab queueDepth ring readPolicy = .ok cache) :
    cache.slots.length * cache.pageBytes ≤ slab.len := by
  obtain ⟨-, files, config, -, rfl⟩ := openWithDeviceBase_ok hopen
  rw [List.length_replicate]
  exact Nat.div_mul_le_self _ _

/-- The tensor of an opened shard ends inside its file. -/
theorem openShard_inside {modelRoot : String → Except IoError OpenFile} {shard : PleShard} {file : OpenFile}
    (h : openShard modelRoot shard = .ok file) : shard.dataOffset + shard.dataBytes ≤ file.size := by
  unfold openShard at h
  split at h
  · cases h
  · split at h
    · cases h
    · next tensorEnd hadd =>
      split at h
      · cases h
      · next hsize =>
        cases h
        obtain ⟨-, rfl⟩ := Word.checkedAdd_eq_some.mp hadd
        omega

/-- In a cache opened over an index whose shards hold whole rows, every located row lies
inside its shard file: opening checked that the whole tensor does. -/
theorem address_in_file
    (hopen : openWithDeviceBase index modelRoot slab queueDepth ring readPolicy = .ok cache)
    (hwhole : ∀ shard ∈ index.shards, shard.dataBytes = shard.rowCount * index.rowBytes)
    {row : Nat} {address : RowAddress} (haddr : index.address row = .ok address) :
    ∃ file, cache.files[address.shard]? = some file ∧
      address.byteOffset + address.byteLen ≤ file.size := by
  have hfiles := openWithDeviceBase_shards hopen
  have hlocated := index.address_ok haddr
  obtain ⟨shard, hshard, hstart, hend, hoffset⟩ := hlocated.shard
  obtain ⟨hlt, hget⟩ := List.getElem?_eq_some_iff.mp hshard
  have hlt' : address.shard < cache.files.length := by rwa [← hfiles.length_eq]
  have hopened : openShard modelRoot shard = .ok cache.files[address.shard] := by
    rw [← hget]
    exact hfiles.get hlt hlt'
  refine ⟨cache.files[address.shard], List.getElem?_eq_getElem hlt', ?_⟩
  have hinside := openShard_inside hopened
  have hrows : (row - shard.globalRowStart + 1) * index.rowBytes ≤
      shard.rowCount * index.rowBytes := Nat.mul_le_mul_right _ (by omega)
  rw [Nat.succ_mul] at hrows
  have hbytes := hwhole shard (List.mem_of_getElem? hshard)
  rw [hlocated.byteLen]
  omega

end Opened

/-! ## The slots and the answers -/

theorem slotKey_eq_some {cache : FixedPleCache} {slot : Nat} {key : PageKey} :
    cache.slotKey slot = some key ↔
      ∃ state, cache.slots[slot]? = some state ∧ state.key = some key := by
  rw [slotKey, slotAt, List.getD_eq_getElem?_getD]
  cases cache.slots[slot]? with
  | none => simp
  | some state => simp

/-- A successful call located every row and returned one fragment per address. -/
theorem fetchRows_ok {cache after : FixedPleCache} {index : PleIndex} {rows : List Nat}
    {answers : ReadAnswers} {batch : List FixedPleRow}
    (h : cache.fetchRows index rows answers = (after, .ok batch)) :
    index.pageBytes = cache.pageBytes ∧ ∃ addresses, rows.mapM index.address = .ok addresses ∧
      addresses.mapM (after.fragment index.rowBytes) = .ok batch := by
  by_cases hadmitted : ∃ addresses, (cache.kernelSteps answers.before).Admitted index rows addresses
  · obtain ⟨addresses, hadmitted⟩ := hadmitted
    rw [fetchRows_admitted hadmitted] at h
    obtain ⟨rfl, hbatch⟩ := Prod.mk.inj h
    refine ⟨hadmitted.pageBytes, addresses, hadmitted.located, ?_⟩
    obtain ⟨-, -, hfragments⟩ := Traverse.bind_eq_ok.mp hbatch
    exact hfragments
  · obtain ⟨e, hrefused⟩ := fetchRows_refused (not_exists.mp hadmitted)
    rw [hrefused] at h
    cases h

end FixedPleCache

end Spark.Ple
