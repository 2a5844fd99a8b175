import Spark.Ple.ClockQueue
import Spark.Ple.Coherence

/-!
# When the clock page cache answers

A batch that fits the cache is answered with the bytes of its rows exactly when none of its pages is among the first
that fall. Hits are marked before the missing pages come in, but a mark is a second chance and no protection: as many
pages fall from the head of the queue as the missing ones need room, whichever they are. `FixedPleCache` passes over
the pages of the request there.

* **`copyRow_ok`**, **`available_of_copyRow`** — one row.
* **`resident_iff`** — the pages of a batch after it came in.
* **`fetchRows_iff`** — every call of every run.
-/

namespace Spark.Ple

open Spark.Uring Spark.Outcome SecondChance FixedPleCache

namespace ClockPageCache

variable {files : List OpenFile} {cache : ClockPageCache} {address : RowAddress}

/-! ## Copying a row -/

/-- The pages of the row are resident, and two hold it. -/
structure Available (cache : ClockPageCache) (address : RowAddress) : Prop where
  resident : ∀ key ∈ rowPages cache.pageBytes address, (cache.index key).isSome
  twoPages : FitsTwoPages cache.pageBytes address

/-- A copy behind what is there. -/
theorem copyInto_append (done rest bytes : List UInt8) (h : bytes.length ≤ rest.length) :
    copyInto (done ++ rest) done.length bytes = .ok (done ++ bytes ++ rest.drop bytes.length) := by
  have hfits : done.length + bytes.length ≤ (done ++ rest).length := by
    rw [List.length_append]
    omega
  rw [copyInto, if_pos hfits, List.take_left' rfl, List.drop_append]
  simp

/-- The slice of a page is the slice of its shard. -/
theorem sliceAt_pageOf (files : List OpenFile) {pageBytes : Nat} (key : PageKey) {within len : Nat}
    (h : within + len ≤ pageBytes) : Outcome.sliceAt (pageOf files pageBytes key) within (within + len) =
      (.ok ((shardBytes files key.shard).slice (key.byteOffset + within) len) : Except ClockFault (List UInt8)) := by
  have hlength : (pageOf files pageBytes key).length = pageBytes := Mem.length_slice ..
  rw [Outcome.sliceAt, if_pos ⟨by omega, by omega⟩, List.drop_take, Nat.add_sub_cancel_left, pageOf, Mem.take_drop_slice _ h]

/-- What a resident page reads as. -/
theorem Coherent.readAt_slot (h : Coherent files cache) {key : PageKey} {slot : Nat}
    (hslot : cache.index key = some slot) : ∃ state, readAt cache.slots slot = (.ok state : Except ClockFault CacheSlot) ∧
      state.page = pageOf files cache.pageBytes key := by
  have hkey := (h.inverse key slot).mp hslot
  rw [keyAt, Option.map_eq_some_iff] at hkey
  obtain ⟨state, hstate, rfl⟩ := hkey
  refine ⟨state, ?_, h.pages state (List.mem_of_getElem? hstate)⟩
  rw [readAt, hstate, okOr_some]

theorem fileBytes_eq (hrow : HasRow files address) :
    fileBytes files address = (shardBytes files address.shard).slice address.byteOffset address.byteLen := by
  obtain ⟨file, hfile, -⟩ := hrow
  rw [fileBytes, shardBytes, hfile]

/-- **A row whose pages are resident is copied behind what is there.** -/
theorem copyRow_ok (h : Coherent files cache) (hrow : HasRow files address) (havailable : cache.Available address)
    {ordinal : Nat} {done rest : List UInt8} (hdone : done.length = ordinal * address.byteLen)
    (hroom : address.byteLen ≤ rest.length) : copyRow cache address.byteLen ordinal address (done ++ rest) =
      .ok (done ++ fileBytes files address ++ rest.drop address.byteLen) := by
  have hmod := Nat.mod_le address.byteOffset cache.pageBytes
  have hwithin := Nat.mod_lt address.byteOffset h.pageSize.pos
  have hoffset := pageOffset_eq h.pageSize (hrow.lt.1.trans (by decide))
  have hbegins : address.byteOffset - address.byteOffset % cache.pageBytes + address.byteOffset % cache.pageBytes =
      address.byteOffset := Nat.sub_add_cancel hmod
  have hresident := havailable.resident
  rw [rowPages_eq h.pageSize hrow] at hresident
  obtain ⟨firstSlot, hfirstSlot⟩ := Option.isSome_iff_exists.mp (hresident _ List.mem_cons_self)
  obtain ⟨first, hfirst, hfirstPage⟩ := h.readAt_slot hfirstSlot
  rw [firstKey_eq h.pageSize hrow] at hfirstPage
  rw [copyRow, hoffset, Nat.sub_sub_self hmod, hfirstSlot, okOr_some, bind_of_ok rfl, bind_of_ok hfirst, hfirstPage]
  rcases Nat.lt_or_ge (cache.pageBytes - address.byteOffset % cache.pageBytes) address.byteLen with hcut | hwhole
  · -- the rest of the page, and the head of the next one
    have hcross := (crossesPage_iff h.pageSize hrow).mpr (by omega)
    rw [if_pos hcross] at hresident
    obtain ⟨secondSlot, hsecondSlot⟩ := Option.isSome_iff_exists.mp
      (hresident _ (List.mem_cons_of_mem _ List.mem_cons_self))
    obtain ⟨second, hsecond, hsecondPage⟩ := h.readAt_slot hsecondSlot
    rw [secondKey_eq h.pageSize hrow] at hsecondPage
    have htwo := havailable.twoPages
    unfold FitsTwoPages at htwo
    have hfill : address.byteOffset % cache.pageBytes +
        (cache.pageBytes - address.byteOffset % cache.pageBytes) ≤ cache.pageBytes := by omega
    have hremaining : 0 + (address.byteLen - (cache.pageBytes - address.byteOffset % cache.pageBytes)) ≤
        cache.pageBytes := by omega
    simp only [Nat.min_eq_right (Nat.le_of_lt hcut)]
    rw [bind_of_ok (sliceAt_pageOf files _ hfill), hbegins, ← hdone,
      bind_of_ok (copyInto_append done rest _ (by rw [Mem.length_slice]; omega)), if_pos hcut, hsecondSlot, okOr_some,
      bind_of_ok rfl, bind_of_ok hsecond, hsecondPage]
    have hslice := sliceAt_pageOf files ⟨address.shard,
      address.byteOffset - address.byteOffset % cache.pageBytes + cache.pageBytes⟩ hremaining
    rw [Nat.zero_add] at hslice
    have hstart : done.length + (cache.pageBytes - address.byteOffset % cache.pageBytes) =
        (done ++ (shardBytes files address.shard).slice address.byteOffset
          (cache.pageBytes - address.byteOffset % cache.pageBytes)).length := by
      rw [List.length_append, Mem.length_slice]
    rw [bind_of_ok hslice, hstart, copyInto_append _ _ _ (by simp only [Mem.length_slice, List.length_drop]; omega)]
    have hbytes : fileBytes files address =
        (shardBytes files address.shard).slice address.byteOffset
            (cache.pageBytes - address.byteOffset % cache.pageBytes) ++
          (shardBytes files address.shard).slice
            (address.byteOffset - address.byteOffset % cache.pageBytes + cache.pageBytes + 0)
            (address.byteLen - (cache.pageBytes - address.byteOffset % cache.pageBytes)) := by
      rw [fileBytes_eq hrow, show address.byteOffset - address.byteOffset % cache.pageBytes + cache.pageBytes + 0 =
        address.byteOffset + (cache.pageBytes - address.byteOffset % cache.pageBytes) by omega, ← Mem.slice_add,
        Nat.add_sub_cancel' (Nat.le_of_lt hcut)]
    rw [hbytes, List.drop_drop, Mem.length_slice, Mem.length_slice, Nat.add_sub_cancel' (Nat.le_of_lt hcut),
      List.append_assoc done]
  · have hlen : address.byteOffset % cache.pageBytes + address.byteLen ≤ cache.pageBytes := by omega
    simp only [Nat.min_eq_left hwhole]
    rw [bind_of_ok (sliceAt_pageOf files _ hlen), hbegins, ← fileBytes_eq hrow, ← hdone,
      bind_of_ok (copyInto_append done rest _ (by rw [fileBytes_eq hrow, Mem.length_slice]; exact hroom)),
      if_neg (Nat.lt_irrefl _)]
    rw [fileBytes_eq hrow, Mem.length_slice]

/-- **A row that was copied had its pages resident, and two held it**: the second slice is not past its page. -/
theorem available_of_copyRow (h : Coherent files cache) (hrow : HasRow files address) {ordinal : Nat}
    {output copied : List UInt8} (hok : copyRow cache address.byteLen ordinal address output = .ok copied) :
    cache.Available address := by
  have hmod := Nat.mod_le address.byteOffset cache.pageBytes
  have hwithin := Nat.mod_lt address.byteOffset h.pageSize.pos
  have hoffset := pageOffset_eq h.pageSize (hrow.lt.1.trans (by decide))
  rw [copyRow, hoffset, Nat.sub_sub_self hmod] at hok
  simp only [Traverse.bind_eq_ok, okOr_eq_ok] at hok
  obtain ⟨firstSlot, hfirstSlot, first, -, bytes, -, middle, -, hrest⟩ := hok
  have hresident : (cache.index (firstKey cache.pageBytes address)).isSome := by
    rw [hfirstSlot]
    rfl
  have hcross := crossesPage_iff h.pageSize hrow
  split at hrest
  · next hcut =>
    simp only [Traverse.bind_eq_ok, okOr_eq_ok] at hrest
    obtain ⟨secondSlot, hsecondSlot, second, hsecond, tail, htail, -⟩ := hrest
    obtain ⟨state, hstate, hpage⟩ := h.readAt_slot hsecondSlot
    obtain rfl := Except.ok.inj (hstate.symm.trans hsecond)
    have hle := le_of_sliceAt htail
    rw [hpage, pageOf, Mem.length_slice] at hle
    constructor
    · rw [rowPages_eq h.pageSize hrow, if_pos (hcross.mpr (by omega))]
      refine List.forall_mem_cons.mpr ⟨hresident, List.forall_mem_singleton.mpr ?_⟩
      rw [hsecondSlot]
      rfl
    · unfold FitsTwoPages
      omega
  · next hwhole =>
    have hnot : crossesPage cache.pageBytes address ≠ true := fun hcrosses => by
      have := hcross.mp hcrosses
      omega
    constructor
    · rw [rowPages_eq h.pageSize hrow, if_neg hnot]
      exact List.forall_mem_singleton.mpr hresident
    · unfold FitsTwoPages
      omega

/-! ## Copying the rows -/

theorem length_fileBytes (hrow : HasRow files address) : (fileBytes files address).length = address.byteLen := by
  rw [fileBytes_eq hrow, Mem.length_slice]

/-- **The rows are copied one behind the other exactly when each can be.** Induction on the rows. -/
theorem copyLoop_iff (h : Coherent files cache) {rowBytes : Nat} (addresses : List RowAddress) :
    ∀ (ordinal : Nat) (done : List UInt8), done.length = ordinal * rowBytes →
      (∀ address ∈ addresses, HasRow files address ∧ address.byteLen = rowBytes) → ∀ output,
      forEach (copyRow cache rowBytes) addresses ordinal (done ++ List.replicate (addresses.length * rowBytes) 0) =
          .ok output ↔
        (∀ address ∈ addresses, cache.Available address) ∧ output = done ++ addresses.flatMap (fileBytes files) := by
  induction addresses with
  | nil =>
    intro ordinal done _ _ output
    simp [forEach, eq_comm]
  | cons address rest ih =>
    intro ordinal done hdone hrows output
    obtain ⟨⟨hrow, hlen⟩, hrest⟩ := List.forall_mem_cons.mp hrows
    rw [forEach, List.forall_mem_cons, List.flatMap_cons]
    by_cases havailable : cache.Available address
    · have hcopy := copyRow_ok h hrow havailable (show done.length = ordinal * address.byteLen by rw [hlen]; exact hdone)
        (show address.byteLen ≤ (List.replicate ((address :: rest).length * rowBytes) (0 : UInt8)).length by
          rw [List.length_replicate, List.length_cons, Nat.succ_mul, hlen]
          omega)
      rw [hlen] at hcopy
      rw [bind_of_ok hcopy, List.drop_replicate, List.length_cons, Nat.succ_mul, Nat.add_sub_cancel]
      have hlength : (done ++ fileBytes files address).length = (ordinal + 1) * rowBytes := by
        rw [List.length_append, length_fileBytes hrow, hdone, hlen, Nat.succ_mul]
      rw [ih (ordinal + 1) _ hlength hrest output, List.append_assoc]
      exact ⟨fun hall => ⟨⟨havailable, hall.1⟩, hall.2⟩, fun hall => ⟨hall.1.2, hall.2⟩⟩
    · constructor
      · intro hok
        obtain ⟨copied, hcopied, -⟩ := Traverse.bind_eq_ok.mp hok
        rw [← hlen] at hcopied
        exact absurd (available_of_copyRow h hrow hcopied) havailable
      · exact fun hall => absurd hall.1.1 havailable

theorem copyRows_iff (h : Coherent files cache) {rowBytes : Nat} {addresses : List RowAddress}
    (hrows : ∀ address ∈ addresses, HasRow files address ∧ address.byteLen = rowBytes) (output : List UInt8) :
    cache.copyRows addresses.length rowBytes addresses = .ok output ↔
      addresses.length * rowBytes < 2 ^ 63 ∧ (∀ address ∈ addresses, cache.Available address) ∧
        output = addresses.flatMap (fileBytes files) := by
  have hloop := copyLoop_iff h addresses 0 [] (by simp) hrows output
  rw [List.nil_append, List.nil_append] at hloop
  unfold copyRows Word.checkedMul
  by_cases hword : addresses.length * rowBytes < 2 ^ 64
  · rw [if_pos hword, okOr_some, bind_of_ok rfl]
    by_cases hsize : addresses.length * rowBytes < 2 ^ 63
    · rw [if_neg (Nat.not_le_of_lt hsize), hloop]
      exact ⟨fun hall => ⟨hsize, hall⟩, fun hall => hall.2⟩
    · rw [if_pos (Nat.le_of_not_lt hsize)]
      exact ⟨nofun, fun hall => absurd hall.1 hsize⟩
  · rw [if_neg hword]
    refine ⟨nofun, fun hall => ?_⟩
    have := hall.1
    omega

/-! ## No call goes on forever -/

/-- The call is not cut short. -/
def Ended {α : Type} (x : Except ClockFault α) : Prop := Ends (fun _ => True) (· ≠ .error .diverges) x

theorem ended_okOr {α : Type} (value : Option α) (e : StoreError) : Ended (okOr value (storeError e)) :=
  ends_okOr (fun _ _ => trivial) fun _ => by simp [storeError]

theorem ended_readAt {α : Type} (xs : List α) (i : Nat) : Ended (readAt xs i) :=
  ends_okOr (fun _ _ => trivial) fun _ => nofun

theorem ended_sliceAt {α : Type} (xs : List α) (start stop : Nat) : Ended (Outcome.sliceAt xs start stop) := by
  unfold Outcome.sliceAt
  split
  · exact trivial
  · exact nofun

theorem ended_copyInto (output bytes : List UInt8) (start : Nat) : Ended (copyInto output start bytes) := by
  unfold copyInto
  split
  · exact trivial
  · exact nofun

theorem Ended.bind {α β : Type} {x : Except ClockFault α} {f : α → Except ClockFault β} (hx : Ended x)
    (hf : ∀ a, Ended (f a)) : Ended (x >>= f) :=
  Ends.bind hx fun a _ => hf a

theorem ended_copyRow (cache : ClockPageCache) (rowBytes ordinal : Nat) (address : RowAddress) (output : List UInt8) :
    Ended (copyRow cache rowBytes ordinal address output) := by
  unfold copyRow
  refine (ended_okOr _ _).bind fun firstSlot => (ended_readAt _ _).bind fun first =>
    (ended_sliceAt _ _ _).bind fun bytes => (ended_copyInto _ _ _).bind fun output => ?_
  split
  · exact (ended_okOr _ _).bind fun secondSlot => (ended_readAt _ _).bind fun second =>
      (ended_sliceAt _ _ _).bind fun tail => ended_copyInto _ _ _
  · exact trivial

theorem ended_copyRows (cache : ClockPageCache) (rowCount rowBytes : Nat) (addresses : List RowAddress) :
    Ended (cache.copyRows rowCount rowBytes addresses) := by
  unfold copyRows
  refine (ended_okOr _ _).bind fun outputLen => ?_
  split
  · exact nofun
  · exact ends_forEach (P := fun _ _ => True) trivial fun ordinal address output _ _ => ended_copyRow ..

/-- **Every call ends**, whatever it is asked for. -/
theorem ended_fetchRows (h : Coherent files cache) (index : PleIndex) (rows : List Nat) {source : PageSource}
    (hcorrect : source.Correct files cache.pageBytes) : Ended (cache.fetchRows index rows source).2 := by
  unfold fetchRows
  split
  · exact nofun
  · split
    · exact nofun
    · next addresses _ =>
      simp only
      split
      · exact nofun
      · obtain ⟨-, hanswer⟩ := ensurePages_steady h (requestKeys_nodup cache.pageBytes addresses) hcorrect
        split
        · next fault heq =>
          rw [heq] at hanswer
          obtain ⟨e, he⟩ := hanswer.resolve_left nofun
          cases he
          exact nofun
        · exact ended_copyRows ..

/-! ## The pages that fall -/

/-- The pages that fall for a batch: as many from the head of the queue as the missing ones need room. -/
def falling (cache : ClockPageCache) (keys : List PageKey) : List PageKey :=
  (cache.victims keys).take (cache.slots.length + (cache.misses keys).length - cache.capacityPages)

theorem length_victims (cache : ClockPageCache) (keys : List PageKey) :
    (cache.victims keys).length = cache.slots.length := by
  rw [← queue_mark cache keys cache.stats, length_queue, List.length_map]

/-- **The pages of a batch are resident after it came in exactly when none of them fell.** -/
theorem resident_iff (h : Coherent files cache) {keys : List PageKey} (hnodup : keys.Nodup)
    (hfit : keys.length ≤ cache.capacityPages) {after : ClockPageCache} (hafter : Coherent files after)
    (hqueue : after.queue = (cache.misses keys).foldl (enqueue cache.capacityPages) (cache.victims keys)) :
    (∀ key ∈ keys, (after.index key).isSome) ↔ ∀ key ∈ cache.falling keys, key ∉ keys := by
  have hmarked := h.mark keys cache.stats rfl
  have hvictims : ∀ key, key ∈ cache.victims keys ↔ (cache.index key).isSome := fun key => by
    rw [← queue_mark cache keys cache.stats, hmarked.mem_queue]
  have hvictimsNodup : (cache.victims keys).Nodup := by
    rw [← queue_mark cache keys cache.stats]
    exact hmarked.nodup_queue
  have hlength := length_victims cache keys
  have hslots := h.length_le
  have hfew : (cache.misses keys).length ≤ keys.length := List.length_filter_le _ _
  rw [foldl_enqueue h.capacity_pos _ _ (by omega), List.drop_append_of_le_length (by omega), hlength] at hqueue
  have hresident : ∀ key, (after.index key).isSome ↔ key ∈ (cache.victims keys).drop
      (cache.slots.length + (cache.misses keys).length - cache.capacityPages) ∨ key ∈ cache.misses keys := fun key => by
    rw [← hafter.mem_queue, hqueue, List.mem_append]
  have hsplit := List.take_append_drop
    (cache.slots.length + (cache.misses keys).length - cache.capacityPages) (cache.victims keys)
  rw [← hsplit, List.nodup_append] at hvictimsNodup
  constructor
  · intro hall key hfalls hkey
    rcases (hresident key).mp (hall key hkey) with hstays | hmissed
    · exact hvictimsNodup.2.2 key hfalls key hstays rfl
    · -- what falls was resident
      have hnone := (misses_spec hnodup).2 key hmissed
      have hsome := (hvictims key).mp (List.mem_of_mem_take hfalls)
      rw [hnone] at hsome
      cases hsome
  · intro hspared key hkey
    rw [hresident]
    cases hindex : cache.index key with
    | none =>
      right
      exact List.mem_filter.mpr ⟨hkey, by rw [hindex]; rfl⟩
    | some slot =>
      left
      have hmem : key ∈ cache.victims keys := (hvictims key).mpr (by rw [hindex]; rfl)
      rw [← hsplit, List.mem_append] at hmem
      exact hmem.resolve_left fun hfalls => hspared key hfalls hkey

/-- **None of the batch falls exactly when enough others fall before it.** -/
theorem falling_iff {cache : ClockPageCache} {keys : List PageKey} (hfit : keys.length ≤ cache.capacityPages) :
    (∀ key ∈ cache.falling keys, key ∉ keys) ↔ cache.slots.length + (cache.misses keys).length ≤
      cache.capacityPages + spare (keys.contains ·) cache.ring := by
  have hring : cache.ring.length = cache.slots.length := by
    rw [ring, List.length_map, List.length_rotate]
  have hfew : (cache.misses keys).length ≤ keys.length := List.length_filter_le _ _
  have hspares := spares_iff (keys.contains ·)
    (show cache.slots.length + (cache.misses keys).length - cache.capacityPages ≤ cache.ring.length by omega)
  simp only [List.contains_eq_mem, decide_eq_false_iff_not] at hspares
  rw [falling, victims]
  simp only [List.contains_eq_mem]
  rw [hspares]
  omega

/-! ## A call -/

/-- When the cache serves a request: the missing pages need no more room than is left, or is taken by pages outside
the request that fall before the first of it. -/
structure Serves (cache : ClockPageCache) (rowBytes : Nat) (addresses : List RowAddress) : Prop where
  spared : cache.slots.length + (cache.misses (requestKeys cache.pageBytes addresses)).length ≤
    cache.capacityPages + spare ((requestKeys cache.pageBytes addresses).contains ·) cache.ring
  twoPages : ∀ address ∈ addresses, FitsTwoPages cache.pageBytes address
  counted : cache.stats.bytesRead +
    (cache.misses (requestKeys cache.pageBytes addresses)).length * cache.pageBytes < 2 ^ 64
  sized : addresses.length * rowBytes < 2 ^ 63

/-- The request is answered with the bytes of its rows, and its pages are resident. -/
def Answered (files : List OpenFile) (cache : ClockPageCache) (index : PleIndex) (rows : List Nat)
    (addresses : List RowAddress) (source : PageSource) : Prop :=
  ∃ after, cache.fetchRows index rows source = (after, .ok (addresses.flatMap (fileBytes files))) ∧
    ∀ key ∈ requestKeys cache.pageBytes addresses, (after.index key).isSome

/-- **One call**: the request is answered exactly when the cache serves it. -/
theorem answered_iff (h : Coherent files cache) {index : PleIndex} {rows : List Nat} {addresses : List RowAddress}
    (hpage : index.pageBytes = cache.pageBytes) (hlocated : rows.mapM index.address = .ok addresses)
    (hin : ∀ address ∈ addresses, HasRow files address)
    (hfit : (distinctPages cache.pageBytes addresses).card ≤ cache.capacityPages) {source : PageSource}
    (hsource : source.Complete files cache.pageBytes) :
    Answered files cache index rows addresses source ↔ Serves cache index.rowBytes addresses := by
  have hnodup := requestKeys_nodup cache.pageBytes addresses
  have hkeys : (requestKeys cache.pageBytes addresses).length ≤ cache.capacityPages := by
    rw [length_requestKeys h.pageSize hin]
    exact hfit
  have hpairs := Traverse.mapM_ok_iff.mp hlocated
  have hrows : ∀ address ∈ addresses, HasRow files address ∧ address.byteLen = index.rowBytes := by
    intro address hmem
    obtain ⟨row, -, hat⟩ := Traverse.forall₂_exists_left hpairs hmem
    exact ⟨hin address hmem, (index.address_ok hat).byteLen⟩
  obtain ⟨after, hsteady, hafter⟩ := ensurePages_spec h hnodup (hsource _ fun key hkey =>
    readable_requestKeys h.pageSize hin (List.mem_of_mem_filter hkey))
  have hfetch (filled : ClockPageCache) (answer : Except ClockFault Unit)
      (hensure : cache.ensurePages (requestKeys cache.pageBytes addresses) source = (filled, answer)) :
      cache.fetchRows index rows source =
        (filled, answer.bind fun _ => filled.copyRows addresses.length index.rowBytes addresses) := by
    unfold fetchRows
    rw [if_neg (not_not.mpr hpage)]
    simp only [hlocated, hensure, hpairs.length_eq]
    rw [if_neg (Nat.not_lt_of_le hkeys)]
    cases answer with
    | error fault => rfl
    | ok done => rfl
  split at hafter
  · next hcounted =>
    obtain ⟨hensure, hqueue⟩ := hafter
    have hresident := resident_iff h hnodup hkeys hsteady.coherent hqueue
    have hcopy := copyRows_iff hsteady.coherent hrows (addresses.flatMap (fileBytes files))
    have hfetch := hfetch after (.ok ()) hensure
    constructor
    · rintro ⟨after', hanswer, hall⟩
      obtain ⟨rfl, hcopied⟩ := Prod.mk.inj (hfetch.symm.trans hanswer)
      obtain ⟨hsized, havailable, -⟩ := hcopy.mp hcopied
      refine ⟨(falling_iff hkeys).mp (hresident.mp hall), fun address hmem => ?_, hcounted, hsized⟩
      rw [← hsteady.pageBytes]
      exact (havailable address hmem).twoPages
    · intro hserves
      have hall := hresident.mpr ((falling_iff hkeys).mpr hserves.spared)
      refine ⟨after, hfetch.trans (congrArg _ (hcopy.mpr ⟨hserves.sized, fun address hmem => ⟨fun key hkey => ?_, ?_⟩,
        rfl⟩)), hall⟩
      · rw [hsteady.pageBytes] at hkey
        exact hall key ((mem_requestKeys h.pageSize hin).mpr (List.mem_flatMap.mpr ⟨address, hmem, hkey⟩))
      · rw [hsteady.pageBytes]
        exact hserves.twoPages address hmem
  · next hcounted =>
    have hfetch := hfetch after _ hafter
    constructor
    · rintro ⟨after', hanswer, -⟩
      cases hfetch.symm.trans hanswer
    · exact fun hserves => absurd hserves.counted hcounted

/-- **In every cache that a run reaches, a request that fits is answered exactly when the cache serves it**, and every
call ends. -/
theorem fetchRows_iff {pageBytes capacityPages : Nat} (hword : pageBytes < 2 ^ 64) {opened : ClockPageCache}
    (hnew : new pageBytes capacityPages = .ok opened) {calls : List ClockCall}
    (hcalls : ∀ call ∈ calls, call.source.Correct files pageBytes) :
    (∀ (index : PleIndex) (rows : List Nat) (addresses : List RowAddress) (source : PageSource),
      index.pageBytes = pageBytes → rows.mapM index.address = .ok addresses →
      (∀ address ∈ addresses, HasRow files address) → (distinctPages pageBytes addresses).card ≤ capacityPages →
      source.Complete files pageBytes →
      (Answered files (opened.run calls) index rows addresses source ↔
        Serves (opened.run calls) index.rowBytes addresses)) ∧
    ∀ (index : PleIndex) (rows : List Nat) (source : PageSource), source.Correct files pageBytes →
      ((opened.run calls).fetchRows index rows source).2 ≠ .error (.error .diverges) := by
  obtain ⟨hcoherent, hpages, hcapacity⟩ := new_coherent hword hnew files
  have hrun := run_steady calls opened hcoherent (hpages.symm ▸ hcalls)
  have hpageBytes := hrun.pageBytes.trans hpages
  refine ⟨fun index rows addresses source hpage hlocated hin hfit hsource => ?_, fun index rows source hcorrect => ?_⟩
  · refine answered_iff hrun.coherent (hpage.trans hpageBytes.symm) hlocated hin ?_ (hpageBytes.symm ▸ hsource)
    rw [hpageBytes, hrun.capacityPages, hcapacity]
    exact hfit
  · intro hdiverges
    have hended := ended_fetchRows hrun.coherent index rows (hpageBytes.symm ▸ hcorrect)
    rw [hdiverges] at hended
    exact hended rfl

/-! ### Three rows of a page each, in a cache of two -/

def pagedIndex : PleIndex where
  pageBytes := 4
  rowBytes := 4
  dtype := 1
  totalRows := 3
  scaleBf16Bits := 0x3f80
  shards := [⟨0, 3, 0, 12, "a"⟩]

def pagedFile : OpenFile := ⟨[10, 11, 12, 13, 14, 15, 16, 17, 18, 19, 20, 21], by decide⟩

/-- A source that reads the pages of the file. -/
def pagedSource : PageSource := fun keys pageBytes => .ok (keys.map (pageOf [pagedFile] pageBytes))

def pagedCache : ClockPageCache where
  pageBytes := 4
  capacityPages := 2
  slots := []
  index := fun _ => none
  hand := 0
  stats := {}

theorem pagedSource_correct : pagedSource.Correct [pagedFile] 4 := by
  intro keys pages hanswer _ _
  exact (Except.ok.inj hanswer).symm

theorem pagedSource_complete : pagedSource.Complete [pagedFile] 4 := fun _ _ => rfl

/-- The call that fills the cache. -/
def pagedCall : ClockCall := ⟨pagedIndex, [0, 1], pagedSource⟩

theorem pagedCall_correct : ∀ call ∈ [pagedCall], call.source.Correct [pagedFile] 4 :=
  List.forall_mem_singleton.mpr pagedSource_correct

theorem hasRow_pagedFile {address : RowAddress} (h : address.shard = 0 ∧ address.byteOffset < 12 ∧
    address.byteOffset + address.byteLen ≤ 12) : HasRow [pagedFile] address := by
  obtain ⟨hshard, hlt, hend⟩ := h
  exact ⟨pagedFile, by rw [hshard]; rfl, hlt, hend⟩

/-- The page that falls for the third row is the one the request does not ask for. -/
theorem fetchRows_iff_sample :
    Answered [pagedFile] (pagedCache.run [pagedCall]) pagedIndex [1, 2] [⟨0, 4, 4⟩, ⟨0, 8, 4⟩] pagedSource := by
  have hnew : new 4 2 = .ok pagedCache := rfl
  have hplaces : ∀ address ∈ [(⟨0, 4, 4⟩ : RowAddress), ⟨0, 8, 4⟩], address.shard = 0 ∧ address.byteOffset < 12 ∧
      address.byteOffset + address.byteLen ≤ 12 := by decide
  refine ((fetchRows_iff (by decide) hnew pagedCall_correct).1 pagedIndex [1, 2] [⟨0, 4, 4⟩, ⟨0, 8, 4⟩] pagedSource rfl
    (by decide) (fun address haddress => hasRow_pagedFile (hplaces address haddress)) (by decide)
    pagedSource_complete).mpr ⟨?_, ?_, ?_, ?_⟩
  · decide +kernel
  · decide
  · decide +kernel
  · decide

/-- A request for the first row and the third: the first page is a hit, and falls for the third. -/
theorem hit_falls_for_its_batch :
    ∃ (files : List OpenFile) (opened : ClockPageCache) (calls : List ClockCall) (index : PleIndex) (rows : List Nat)
      (addresses : List RowAddress) (source : PageSource), new 4 2 = .ok opened ∧
      (∀ call ∈ calls, call.source.Correct files 4) ∧ index.pageBytes = 4 ∧ rows.mapM index.address = .ok addresses ∧
      (∀ address ∈ addresses, HasRow files address) ∧ (distinctPages 4 addresses).card ≤ 2 ∧
      source.Complete files 4 ∧
      ((opened.run calls).fetchRows index rows source).2 = .error (storeError .invalidPageSource) := by
  have hplaces : ∀ address ∈ [(⟨0, 0, 4⟩ : RowAddress), ⟨0, 8, 4⟩], address.shard = 0 ∧ address.byteOffset < 12 ∧
      address.byteOffset + address.byteLen ≤ 12 := by decide
  exact ⟨[pagedFile], pagedCache, [pagedCall], pagedIndex, [0, 2], [⟨0, 0, 4⟩, ⟨0, 8, 4⟩], pagedSource, rfl,
    pagedCall_correct, rfl, by decide, fun address haddress => hasRow_pagedFile (hplaces address haddress), by decide,
    pagedSource_complete, rfl⟩

end ClockPageCache

end Spark.Ple
