import Spark.Lib.Clock
import Spark.Ple.Addressing
import Spark.Ple.Coherence
import Spark.Ple.RowPages

/-!
# Availability of the fixed PLE cache

A request that fits the slots and is read is answered. While slots are reserved for its missing pages, fewer slots
hold pages of the request or are reserved already than there are slots, so that one is free to be taken; two rounds
of the hand are enough to find it, since the first clears its reference bit.

* **`clockScan_found`** — the hand finds a slot that is not pinned.
* **`exists_unpinned`** — there is one.
* **`reserveAll_available`** — every missing page gets a slot, and the pages of the request stay.
* **`fetchRows_available`** — `fetch_rows` returns, in every cache that a run reaches.
-/

namespace Spark.Ple

open Spark.Uring

namespace FixedPleCache

/-! ## The clock scan -/

theorem slotAt_setReferenced (cache : FixedPleCache) (slot other : Nat) (referenced : Bool) :
    ((cache.setReferenced slot referenced).slotAt other).referenced =
      if other = slot ∧ slot < cache.slots.length then referenced else (cache.slotAt other).referenced := by
  simp only [slotAt, setReferenced, List.getD_eq_getElem?_getD, List.getElem?_modify]
  by_cases hslot : slot = other
  · subst hslot
    rcases Nat.lt_or_ge slot cache.slots.length with hlt | hge
    · simp [hlt]
    · simp [Nat.not_lt_of_le hge]
  · simp [hslot, Ne.symm hslot]

/-- **The hand finds a slot that is not pinned.** With `free` not pinned, the scan ends at the latest when the hand
is there and its reference bit is clear. Induction on the steps left. -/
theorem clockScan_found (protectedKeys : List PageKey) (selected : List Nat) (free limit : Nat) :
    ∀ cache : FixedPleCache, cache.hand < cache.slots.length → free < cache.slots.length →
      cache.pinned protectedKeys selected free = false →
      Clock.distance cache.slots.length cache.hand free +
        (if (cache.slotAt free).referenced then cache.slots.length else 0) < limit →
      ∃ slot, (clockScan protectedKeys selected limit cache).2 = some slot := by
  induction limit with
  | zero => exact fun _ _ _ _ h => absurd h (Nat.not_lt_zero _)
  | succ limit ih =>
    intro cache hhand hfree hpin hlimit
    have hmoved := sameResidency_moveHand cache
    have hlt := Clock.next_lt hhand
    rw [clockScan]
    split
    · next hpinned =>
      -- a pinned slot is not the free one
      have hne : cache.hand ≠ free := by
        rintro rfl
        rw [pinned_congr hmoved.slotKey, hpin] at hpinned
        cases hpinned
      have hdistance := Clock.distance_next hhand hfree hne
      exact ih _ hlt hfree (by rw [pinned_congr hmoved.slotKey]; exact hpin) (by
        show Clock.distance cache.slots.length (Clock.next cache.slots.length cache.hand) free +
          (if (cache.slotAt free).referenced then cache.slots.length else 0) < limit
        omega)
    · split
      · next hreferenced =>
        -- its second chance: the free slot is a whole round away, and has none left
        have hclear := hmoved.trans (sameResidency_setReferenced
          { cache with hand := (cache.hand + 1) % cache.slots.length } cache.hand false)
        refine ih _ (by rw [hclear.length]; exact hlt) (by rw [hclear.length]; exact hfree)
          (by rw [pinned_congr hclear.slotKey]; exact hpin) ?_
        rw [slotAt_setReferenced, hclear.length]
        show Clock.distance cache.slots.length (Clock.next cache.slots.length cache.hand) free +
          (if (if free = cache.hand ∧ cache.hand < cache.slots.length then false
            else (cache.slotAt free).referenced) = true then cache.slots.length else 0) < limit
        by_cases hne : free = cache.hand
        · rw [if_pos (⟨hne, hhand⟩ : free = cache.hand ∧ cache.hand < cache.slots.length)]
          have hround := Clock.distance_past hhand
          have hbit : (cache.slotAt free).referenced = true := by
            rw [hne]
            exact hreferenced
          rw [hbit, if_pos rfl] at hlimit
          rw [hne] at hlimit ⊢
          rw [Clock.distance_self] at hlimit
          rw [if_neg (by decide)]
          omega
        · rw [if_neg (show ¬ (free = cache.hand ∧ cache.hand < cache.slots.length) from fun h => hne h.1)]
          have hdistance := Clock.distance_next hhand hfree (Ne.symm hne)
          omega
      · exact ⟨_, rfl⟩

/-! ## A slot to take -/

/-- The pages of the request that are resident. -/
def residents (cache : FixedPleCache) (keys : List PageKey) : List PageKey :=
  keys.filter fun key => (cache.index key).isSome

/-- **There is a slot to take**: a slot is pinned by a reservation or by a resident page of the request, and these
are fewer than the slots. -/
theorem exists_unpinned {cache : FixedPleCache} (h : Placed cache) {protectedKeys : List PageKey}
    {selected : List Nat} (hroom : (cache.residents protectedKeys).length + selected.length < cache.slots.length) :
    ∃ slot, slot < cache.slots.length ∧ cache.pinned protectedKeys selected slot = false := by
  by_contra hnone
  push Not at hnone
  have hcover : Finset.range cache.slots.length ⊆
      selected.toFinset ∪ ((cache.residents protectedKeys).filterMap cache.index).toFinset := by
    intro slot hslot
    have hpinned := hnone slot (Finset.mem_range.mp hslot)
    rw [Bool.ne_false_iff, pinned, Bool.or_eq_true] at hpinned
    rw [Finset.mem_union, List.mem_toFinset, List.mem_toFinset, List.mem_filterMap]
    rcases hpinned with hsel | hkey
    · exact .inl (by simpa using hsel)
    · right
      cases hslotKey : (cache.slotAt slot).key with
      | none =>
        rw [hslotKey] at hkey
        cases hkey
      | some key =>
        rw [hslotKey] at hkey
        have hindex : cache.index key = some slot := (h.inverse key slot).mpr hslotKey
        refine ⟨key, List.mem_filter.mpr ⟨by simpa using hkey, ?_⟩, hindex⟩
        rw [hindex]
        rfl
  have hcard := Finset.card_le_card hcover
  have hunion := Finset.card_union_le selected.toFinset
    ((cache.residents protectedKeys).filterMap cache.index).toFinset
  have hselected := selected.toFinset_card_le
  have hkeys := ((cache.residents protectedKeys).filterMap cache.index).toFinset_card_le
  have hmap := List.length_filterMap_le cache.index (cache.residents protectedKeys)
  rw [Finset.card_range] at hcard
  omega

/-- A slot is reserved where one can be. -/
theorem exists_reserveFixedSlot {cache : FixedPleCache} (h : Placed cache) (hsmall : cache.slots.length < 2 ^ 63)
    {protectedKeys : List PageKey} {selected : List Nat}
    (hroom : (cache.residents protectedKeys).length + selected.length < cache.slots.length) :
    ∃ slot, (cache.reserveFixedSlot protectedKeys selected).2 = .ok slot := by
  unfold reserveFixedSlot
  split
  · exact ⟨_, rfl⟩
  · obtain ⟨free, hfree, hpin⟩ := exists_unpinned h hroom
    have hlimit : (Word.checkedMul 64 cache.slots.length 2).bind (Word.checkedAdd 64 · 1) =
        some (cache.slots.length * 2 + 1) := by
      rw [Word.checkedMul, if_pos (by omega)]
      exact if_pos (by omega)
    have hdistance := Clock.distance_lt h.hand_lt hfree
    obtain ⟨slot, hslot⟩ := clockScan_found protectedKeys selected free (cache.slots.length * 2 + 1) cache h.hand_lt
      hfree hpin (by split <;> omega)
    simp only [hlimit]
    cases hscan : clockScan protectedKeys selected (cache.slots.length * 2 + 1) cache with
    | mk scanned answer =>
      rw [hscan] at hslot
      obtain rfl : answer = some slot := hslot
      exact ⟨slot, rfl⟩

/-! ## Slots for all missing pages -/

theorem residents_length_le {before after : FixedPleCache} (keys : List PageKey)
    (h : ∀ key slot, after.index key = some slot → before.index key = some slot) :
    (after.residents keys).length ≤ (before.residents keys).length := by
  refine (List.monotone_filter_right keys fun key hkey => ?_).length_le
  obtain ⟨slot, hslot⟩ := Option.isSome_iff_exists.mp hkey
  rw [h key slot hslot]
  rfl

/-- What reserving leaves alone: the slots taken held no page of the request, and the resident ones stay. -/
structure Spares (before after : FixedPleCache) (protectedKeys : List PageKey)
    (destinations : List (PageKey × Nat)) : Prop where
  unprotected : ∀ slot ∈ destinations.map (·.2), ∀ key, before.slotKey slot = some key → key ∉ protectedKeys
  resident : ∀ key ∈ protectedKeys, ∀ slot, before.index key = some slot → after.index key = some slot

/-- Vacating a slot that holds no page of the request keeps its pages. -/
theorem index_vacate_of_unprotected {cache : FixedPleCache} {slot : Nat} (hlt : slot < cache.slots.length)
    {protectedKeys : List PageKey} (hfree : ∀ key, cache.slotKey slot = some key → key ∉ protectedKeys)
    {key : PageKey} (hkey : key ∈ protectedKeys) : (cache.vacate slot).index key = cache.index key := by
  rw [(vacate_spec hlt).2.1]
  cases hslot : cache.slotKey slot with
  | none => rfl
  | some victim =>
    have hne : key ≠ victim := by
      rintro rfl
      exact hfree key hslot hkey
    exact Function.update_of_ne hne _ _

/-- **Every missing page gets a slot**, as long as the resident pages of the request, the slots reserved already
and the pages still missing are no more than the slots. Induction on the missing pages. -/
theorem reserveAll_available (protectedKeys misses : List PageKey) :
    ∀ (selected : List Nat) (cache : FixedPleCache), Placed cache → cache.slots.length < 2 ^ 63 →
      (cache.residents protectedKeys).length + selected.length + misses.length ≤ cache.slots.length →
      ∃ destinations, (reserveAll protectedKeys misses selected cache).2 = .ok destinations ∧
        Spares cache (reserveAll protectedKeys misses selected cache).1 protectedKeys destinations := by
  induction misses with
  | nil => exact fun _ _ _ _ _ => ⟨[], rfl, nofun, fun _ _ _ h => h⟩
  | cons key misses ih =>
    intro selected cache h hsmall hroom
    rw [List.length_cons] at hroom
    obtain ⟨hsame, hslot⟩ := reserveFixedSlot_spec h.hand_lt protectedKeys selected
    obtain ⟨slot, hreserved⟩ := exists_reserveFixedSlot h hsmall
      (show (cache.residents protectedKeys).length + selected.length < cache.slots.length by omega)
    have hreservable := hslot slot hreserved
    rw [reserveAll]
    cases hres : cache.reserveFixedSlot protectedKeys selected with
    | mk scanned answer =>
      rw [hres] at hsame hreserved
      obtain rfl : answer = .ok slot := hreserved
      have hlt : slot < scanned.slots.length := by
        rw [hsame.length]
        exact hreservable.lt
      have hvacate := hsame.shrinks.trans (shrinks_vacate hlt)
      have hplaced := (h.of_sameResidency hsame).vacate hlt
      have hfree : ∀ key, scanned.slotKey slot = some key → key ∉ protectedKeys := by
        rw [hsame.slotKey]
        exact hreservable.unprotected
      have hfewer := residents_length_le protectedKeys fun key s hs => by
        rw [← hsame.index]
        exact index_vacate_le hlt hs
      obtain ⟨tail, htail, hspares⟩ := ih (slot :: selected) (scanned.vacate slot) hplaced
        (by rw [hvacate.length]; exact hsmall) (by rw [hvacate.length, List.length_cons]; omega)
      have hfresh := (reserveAll_spec protectedKeys misses (slot :: selected) (scanned.vacate slot)
        hplaced).2.2 tail htail
      cases hall : reserveAll protectedKeys misses (slot :: selected) (scanned.vacate slot) with
      | mk after rest =>
        rw [hall] at htail hspares hfresh
        obtain rfl : rest = .ok tail := htail
        simp only [hall]
        refine ⟨(key, slot) :: tail, rfl, ?_, fun k hk s hs => ?_⟩
        · intro s hs k hk
          rcases List.mem_cons.mp hs with rfl | hs
          · exact hreservable.unprotected k hk
          · -- a later slot is another one, and still holds what it held
            refine hspares.unprotected s hs k ?_
            have hne : s ≠ slot := fun heq =>
              hfresh.slots_fresh s hs (heq ▸ List.mem_cons_self)
            rw [(vacate_spec hlt).1, Function.update_of_ne hne, hsame.slotKey]
            exact hk
        · refine hspares.resident k hk s ?_
          rw [index_vacate_of_unprotected hlt hfree hk, hsame.index]
          exact hs

/-! ## The pages of a request -/

/-- A page is resident after it was published, and the pages before stay. -/
theorem index_publish (destinations : List (PageKey × Nat)) :
    ∀ (cache : FixedPleCache) (key : PageKey),
      (cache.index key).isSome ∨ key ∈ destinations.map (·.1) →
      ((cache.publish destinations).index key).isSome := by
  induction destinations with
  | nil =>
    intro cache key h
    rcases h with h | h
    · exact h
    · cases h
  | cons destination rest ih =>
    intro cache key h
    rw [publish, List.foldl_cons, ← publish]
    apply ih
    show (Function.update cache.index destination.1 (some destination.2) key).isSome ∨ _
    by_cases hkey : key = destination.1
    · left
      rw [hkey, Function.update_self]
      rfl
    · rw [List.map_cons, List.mem_cons] at h
      rw [Function.update_of_ne hkey]
      exact h.imp_right fun h => h.resolve_left hkey

theorem exists_reads {cache : FixedPleCache} {destinations : List (PageKey × Nat)}
    (h : ∀ key ∈ destinations.map (·.1), cache.Readable key) :
    ∃ reads, destinations.mapM cache.pageRead = .ok reads := by
  refine Traverse.exists_mapM_ok fun destination hmem => ?_
  obtain ⟨file, hfile, hlt⟩ := h destination.1 (List.mem_map_of_mem hmem)
  unfold pageRead
  simp only [hfile]
  rw [if_neg (by omega)]
  exact ⟨_, rfl⟩

/-- The reader brings the batch: whatever its reads are, their read returns `Ok`. -/
def Brings (cache : FixedPleCache) (destinations : List (PageKey × Nat)) (answers : ReadAnswers) : Prop :=
  ∀ reads, destinations.mapM (cache.zeroFill destinations).pageRead = .ok reads →
    ∃ stats, ((cache.zeroFill destinations).readPages reads answers).2 = .ok stats

/-- Loading readable pages that are brought makes them resident and keeps the others. -/
theorem loadPages_resident {cache : FixedPleCache} {destinations : List (PageKey × Nat)} {answers : ReadAnswers}
    (h : ∀ key ∈ destinations.map (·.1), cache.Readable key) (hbrings : cache.Brings destinations answers) :
    (cache.loadPages destinations answers).2 = .ok () ∧
      ∀ key, (cache.index key).isSome ∨ key ∈ destinations.map (·.1) →
        ((cache.loadPages destinations answers).1.index key).isSome := by
  have hzero : ∀ key ∈ destinations.map (·.1), (cache.zeroFill destinations).Readable key := h
  obtain ⟨reads, hreads⟩ := exists_reads hzero
  obtain ⟨stats, hread⟩ := hbrings reads hreads
  have hsame := sameTable_readPages (cache.zeroFill destinations) reads answers
  have hload : cache.loadPages destinations answers =
      ((((cache.zeroFill destinations).readPages reads answers).1.publish destinations).countReads
        (parallelRead cache.readPolicy reads.length) stats, .ok ()) := by
    rcases loadPages_cases cache destinations answers with ⟨e, he, -⟩ | ⟨reads', hreads', hrest⟩
    · rw [hreads] at he
      cases he
    obtain rfl := Except.ok.inj (hreads.symm.trans hreads')
    rcases hrest with ⟨error, herror, -⟩ | ⟨stats', hstats, hload⟩
    · rw [hread] at herror
      cases herror
    · rw [hread] at hstats
      cases hstats
      exact hload
  rw [hload]
  refine ⟨rfl, fun key hkey => index_publish destinations _ key ?_⟩
  rw [hsame.index]
  exact hkey

/-- The slots the missing pages of a request are given. -/
structure Reservation (cache : FixedPleCache) (keys : List PageKey) (destinations : List (PageKey × Nat)) :
    Prop where
  misses : destinations.map (·.1) = keys.filter fun key => (cache.index key).isNone
  distinct : (destinations.map (·.2)).Nodup
  inside : ∀ slot ∈ destinations.map (·.2), slot < cache.slots.length
  unprotected : ∀ slot ∈ destinations.map (·.2), ∀ key, cache.slotKey slot = some key → key ∉ keys

/-- **The reservation of a request that fits.** Its resident and its missing pages are no more than the slots. -/
theorem reserveAll_of_fit {cache : FixedPleCache} (h : Placed cache) (hsmall : cache.slots.length < 2 ^ 63)
    {keys : List PageKey} (hfit : keys.length ≤ cache.slots.length) :
    ∃ destinations, (reserveAll keys (markHits keys cache).2 [] (markHits keys cache).1).2 = .ok destinations ∧
      Reservation cache keys destinations ∧
      Spares (markHits keys cache).1 (reserveAll keys (markHits keys cache).2 [] (markHits keys cache).1).1 keys
        destinations := by
  obtain ⟨hsame, hmisses⟩ := markHits_spec keys cache
  have hmarked : Placed (markHits keys cache).1 := h.of_sameResidency hsame
  have hsplit : ((markHits keys cache).1.residents keys).length + (markHits keys cache).2.length = keys.length := by
    rw [hmisses, residents, hsame.index]
    have := List.length_eq_length_filter_add (l := keys) fun key => (cache.index key).isSome
    simpa only [Option.not_isSome] using this.symm
  obtain ⟨destinations, hok, hspares⟩ := reserveAll_available keys (markHits keys cache).2 [] _ hmarked
    (by rw [hsame.length]; exact hsmall) (by rw [hsame.length, List.length_nil]; omega)
  have hreserved := (reserveAll_spec keys (markHits keys cache).2 [] _ hmarked).2.2 destinations hok
  refine ⟨destinations, hok, ⟨hreserved.keys.trans hmisses, hreserved.slots_nodup, ?_, ?_⟩, hspares⟩
  · rw [← hsame.length]
    exact hreserved.slots_lt
  · rw [← hsame.slotKey]
    exact hspares.unprotected

/-- The reader brings the missing pages of a request, to the slots that are reserved for them. -/
def Delivers (cache : FixedPleCache) (keys : List PageKey) (answers : ReadAnswers) : Prop :=
  ∀ destinations, (reserveAll keys (markHits keys cache).2 [] (markHits keys cache).1).2 = .ok destinations →
    destinations ≠ [] → (reserveAll keys (markHits keys cache).2 [] (markHits keys cache).1).1.Brings destinations answers

/-- **Every page of a request that fits and is read is made resident.** -/
theorem ensureFixedPages_available {cache : FixedPleCache} (h : Placed cache)
    (hsmall : cache.slots.length < 2 ^ 63) {keys : List PageKey} (hfit : keys.length ≤ cache.slots.length)
    (hread : ∀ key ∈ keys, cache.Readable key) {answers : ReadAnswers} (hdelivers : cache.Delivers keys answers) :
    (cache.ensureFixedPages keys answers).2 = .ok () ∧
      ∀ key ∈ keys, ((cache.ensureFixedPages keys answers).1.index key).isSome := by
  obtain ⟨hsame, hmisses⟩ := markHits_spec keys cache
  obtain ⟨destinations, hok, hreservation, hspares⟩ := reserveAll_of_fit h hsmall hfit
  obtain ⟨-, hshrinks, -⟩ := reserveAll_spec keys (markHits keys cache).2 [] _ (h.of_sameResidency hsame)
  have hbrings := hdelivers destinations hok
  rcases ensureFixedPages_cases cache keys answers with
    ⟨hnone, hensure⟩ | ⟨hsome, ⟨e, he, -⟩ | ⟨destinations', hok', hensure⟩⟩
  · rw [hensure]
    refine ⟨rfl, fun key hkey => ?_⟩
    -- nothing is missing
    rw [hnone] at hmisses
    have hpresent := List.filter_eq_nil_iff.mp hmisses.symm key hkey
    rw [Option.isNone_iff_eq_none, ← ne_eq, Option.ne_none_iff_isSome] at hpresent
    rw [hsame.index]
    exact hpresent
  · rw [hok] at he
    cases he
  · obtain rfl := Except.ok.inj (hok.symm.trans hok')
    have hloaded : ∀ key ∈ destinations.map (·.1),
        (reserveAll keys (markHits keys cache).2 [] (markHits keys cache).1).1.Readable key := by
      intro key hkey
      rw [hreservation.misses] at hkey
      rw [Readable, hshrinks.files, hsame.files]
      exact hread key (List.mem_of_mem_filter hkey)
    have hnonempty : destinations ≠ [] := by
      rintro rfl
      rw [hmisses, ← hreservation.misses] at hsome
      exact hsome rfl
    obtain ⟨hdone, hresident⟩ := loadPages_resident hloaded (hbrings hnonempty)
    rw [hensure]
    refine ⟨hdone, fun key hkey => hresident key ?_⟩
    cases hindex : cache.index key with
    | none =>
      right
      rw [hreservation.misses]
      exact List.mem_filter.mpr ⟨hkey, by rw [hindex]; rfl⟩
    | some slot =>
      left
      rw [hspares.resident key hkey slot (by rw [hsame.index]; exact hindex)]
      rfl

/-! ## The fragments of the rows -/

theorem Geometry.pageSize {cache : FixedPleCache} (h : Geometry cache) : PageSize cache.pageBytes :=
  ⟨h.pageBytes_pow, h.pageBytes_le.trans (by decide)⟩

/-- The fragments of a row whose pages are resident. -/
theorem exists_fragment {cache : FixedPleCache} {address : RowAddress} (h : Geometry cache)
    (hrow : HasRow cache.files address)
    (hpages : ∀ key ∈ rowPages cache.pageBytes address, (cache.index key).isSome) :
    ∃ row, cache.fragment address.byteLen address = .ok row := by
  rw [rowPages_eq h.pageSize hrow] at hpages
  have hpage := pageOffset_eq h.pageSize (hrow.lt.1.trans (by decide))
  have hmod := Nat.mod_le address.byteOffset cache.pageBytes
  have hwithin := Nat.mod_lt address.byteOffset h.pageBytes_pos
  obtain ⟨first, hfirst⟩ := Option.isSome_iff_exists.mp (hpages _ List.mem_cons_self)
  unfold fragment
  simp only [hfirst]
  split
  · next hsplit =>
    have hcross := (crossesPage_iff h.pageSize hrow).mpr (by omega)
    rw [if_pos hcross] at hpages
    obtain ⟨second, hsecond⟩ := Option.isSome_iff_exists.mp (hpages _ (List.mem_cons_of_mem _ List.mem_cons_self))
    simp only [hsecond]
    exact ⟨_, rfl⟩
  · exact ⟨_, rfl⟩

/-! ## A request -/

/-- A request the cache can serve: its rows have addresses, and their bytes are in the files. -/
structure Servable (cache : FixedPleCache) (index : PleIndex) (rows : List Nat) (addresses : List RowAddress) :
    Prop where
  pageBytes : index.pageBytes = cache.pageBytes
  located : rows.mapM index.address = .ok addresses
  inFile : ∀ address ∈ addresses, HasRow cache.files address

/-- The answer to a request, and how its slots were reserved. -/
structure Served (cache : FixedPleCache) (index : PleIndex) (rows : List Nat) (addresses : List RowAddress) :
    Prop where
  ok : ∀ answers, (cache.kernelSteps answers.before).Delivers (requestKeys cache.pageBytes addresses) answers →
    ∃ fragments, (cache.fetchRows index rows answers).2 = .ok fragments
  reserved :
    let keys := requestKeys cache.pageBytes addresses
    keys.toFinset = distinctPages cache.pageBytes addresses ∧ ∃ destinations,
      (reserveAll keys (markHits keys cache).2 [] (markHits keys cache).1).2 = .ok destinations ∧
        Reservation cache keys destinations

/-- **A request that fits is served.** -/
theorem served_of_fit {cache : FixedPleCache} (h : Placed cache) (hsmall : cache.slots.length < 2 ^ 63)
    {index : PleIndex} {rows : List Nat} {addresses : List RowAddress}
    (hservable : cache.Servable index rows addresses)
    (hfit : (distinctPages cache.pageBytes addresses).card ≤ cache.slots.length) :
    cache.Served index rows addresses := by
  have hsize := h.pageSize
  have hlength : (requestKeys cache.pageBytes addresses).length ≤ cache.slots.length := by
    rw [length_requestKeys hsize hservable.inFile]
    exact hfit
  refine ⟨?_, toFinset_requestKeys hsize hservable.inFile, ?_⟩
  · intro answers hdelivers
    have hkernel := h.of_table (sameTable_kernelSteps cache answers.before)
    obtain ⟨hdone, hresident⟩ := ensureFixedPages_available hkernel.placed hsmall hlength
      (fun key hkey => readable_requestKeys hsize hservable.inFile hkey) hdelivers
    have hstep := ensureFixedPages_placed hkernel.placed (requestKeys_nodup cache.pageBytes addresses) answers
    rw [fetchRows_admitted ⟨hservable.pageBytes, hservable.located, hlength⟩]
    unfold requestKeys at hdone
    rw [hdone]
    refine Traverse.exists_mapM_ok fun address haddress => ?_
    obtain ⟨row, -, hrow⟩ := Traverse.forall₂_exists_left (Traverse.mapM_ok_iff.mp hservable.located) haddress
    rw [← (index.address_ok hrow).byteLen]
    have hin : HasRow ((cache.kernelSteps answers.before).ensureFixedPages
        (requestKeys cache.pageBytes addresses) answers).1.files address := by
      rw [hstep.files]
      exact hservable.inFile address haddress
    refine exists_fragment hstep.placed.toGeometry hin fun key hkey => hresident key ?_
    have hpage : key ∈ rowPages cache.pageBytes address := by
      rw [← hkernel.pageBytes, ← hstep.pageBytes]
      exact hkey
    exact (mem_requestKeys hsize hservable.inFile).mpr (List.mem_flatMap.mpr ⟨address, haddress, hpage⟩)
  · obtain ⟨destinations, hok, hreservation, -⟩ := reserveAll_of_fit h hsmall hlength
    exact ⟨destinations, hok, hreservation⟩

/-! ## An opened cache -/

section Opened

variable {index : PleIndex} {modelRoot : String → Except IoError OpenFile} {slab : Slab} {queueDepth : Nat}
  {ring : Except Int Unit} {readPolicy : FixedReadPolicy} {opened : FixedPleCache}

/-- **Every row of an index that was read is in its file.** -/
theorem hasRow_of_decode {payload : List UInt8} (hdecode : PleIndex.decode payload = .ok index)
    (hopen : openWithDeviceBase index modelRoot slab queueDepth ring readPolicy = .ok opened) {row : Nat}
    (hrow : row < index.totalRows) : ∃ address, index.address row = .ok address ∧ HasRow opened.files address := by
  have haccepted := accepted_of_decode hdecode
  have hsearchable := searchable_of_decode hdecode
  obtain ⟨i, shard, hshard, hcontains⟩ := hsearchable.tiles.exists_contains (Nat.zero_le row) hrow
  have hmem := List.mem_of_getElem? hshard
  obtain ⟨-, hinside⟩ := rowOffset_inside (haccepted.dataBytes shard hmem) hcontains
  obtain ⟨file, hfile, hopened⟩ := Traverse.forall₂_exists_right (openWithDeviceBase_shards hopen) hmem
  have hend := openShard_inside hopened
  have hsize : file.size < 2 ^ 63 := file.size_lt
  have haddress : index.address row = .ok ⟨i, shard.rowOffset index.rowBytes row, index.rowBytes⟩ := by
    rw [hsearchable.address_eq hshard hcontains, index.addressIn_eq, if_pos (by omega)]
  obtain ⟨file', hfile', hin⟩ := address_in_file hopen haccepted.dataBytes haddress
  have hpos := haccepted.rowBytes
  refine ⟨_, haddress, file', hfile', ?_, hin⟩
  simp only at hin ⊢
  omega

/-- **A request that fits is served, in every cache that a run reaches**; and the requests for rows of the index the
cache was opened with are such that can be served. -/
theorem fetchRows_available (hopen : openWithDeviceBase index modelRoot slab queueDepth ring readPolicy = .ok opened)
    (calls : List FetchCall) :
    (∀ (request : PleIndex) rows addresses, (opened.run calls).Servable request rows addresses →
      (distinctPages (opened.run calls).pageBytes addresses).card ≤ (opened.run calls).slots.length →
      (opened.run calls).Served request rows addresses) ∧
    ((∃ payload, PleIndex.decode payload = .ok index) → ∀ rows : List Nat, (∀ row ∈ rows, row < index.totalRows) →
      ∃ addresses, (opened.run calls).Servable index rows addresses) := by
  obtain ⟨hplaced, hpage⟩ := openWithDeviceBase_placed hopen
  have hrun := run_placed hplaced calls
  have hsmall : (opened.run calls).slots.length < 2 ^ 63 := by
    rw [hrun.length]
    have hslab := openWithDeviceBase_slots hopen
    exact lt_of_le_of_lt ((Nat.le_mul_of_pos_right _ hplaced.pageBytes_pos).trans hslab) slab.len_lt
  refine ⟨fun request rows addresses hservable hfit => served_of_fit hrun.placed hsmall hservable hfit, ?_⟩
  rintro ⟨payload, hdecode⟩ rows hrows
  obtain ⟨addresses, haddresses⟩ := Traverse.exists_mapM_ok fun row hrow => by
    obtain ⟨address, haddress, -⟩ := hasRow_of_decode hdecode hopen (hrows row hrow)
    exact ⟨address, haddress⟩
  refine ⟨addresses, hpage.symm.trans hrun.pageBytes.symm, haddresses, fun address hmem => ?_⟩
  obtain ⟨row, hrow, hat⟩ := Traverse.forall₂_exists_left (Traverse.mapM_ok_iff.mp haddresses) hmem
  obtain ⟨address', haddress', hin⟩ := hasRow_of_decode hdecode hopen (hrows row hrow)
  obtain rfl : address' = address := Except.ok.inj (haddress'.symm.trans hat)
  rw [hrun.files]
  exact hin

end Opened

/-- Two rows over all three pages, after a batch that failed: the threads bring them. -/
theorem fetchRows_available_sample :
    (sampleCache.run [sampleFailure]).Served sampleIndex [1, 0, 1] [⟨0, 6, 3⟩, ⟨0, 3, 3⟩, ⟨0, 6, 3⟩] ∧
      ∃ fragments, ((sampleCache.run [sampleFailure]).fetchRows sampleIndex [1, 0, 1] sampleAnswers).2 =
        .ok fragments := by
  have hserved : (sampleCache.run [sampleFailure]).Served sampleIndex [1, 0, 1]
      [⟨0, 6, 3⟩, ⟨0, 3, 3⟩, ⟨0, 6, 3⟩] := by
    refine (fetchRows_available sampleCache_opened [sampleFailure]).1 sampleIndex [1, 0, 1] _
      ⟨rfl, by decide +kernel, fun address haddress => ?_⟩ (by decide +kernel)
    have hplaces : ∀ address ∈ [(⟨0, 6, 3⟩ : RowAddress), ⟨0, 3, 3⟩, ⟨0, 6, 3⟩], address.shard = 0 ∧
        address.byteOffset < 9 ∧ address.byteOffset + address.byteLen ≤ 9 := by decide
    obtain ⟨hshard, hlt, hend⟩ := hplaces address haddress
    exact ⟨sampleFile, by rw [hshard]; rfl, hlt, hend⟩
  refine ⟨hserved, hserved.ok sampleAnswers fun destinations hdestinations _ reads hreads => ?_⟩
  have hslots : destinations = [(⟨0, 4⟩, 0), (⟨0, 8⟩, 1), (⟨0, 0⟩, 2)] := by
    refine Except.ok.inj (hdestinations.symm.trans ?_)
    decide +kernel
  subst hslots
  cases hreads
  exact ⟨⟨3, 9, 0⟩, by decide +kernel⟩

end FixedPleCache

end Spark.Ple
