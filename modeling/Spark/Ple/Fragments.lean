import Spark.Ple.Availability

/-!
# Where the fragments of a row lie

A row is given out as at most two slices of the slab. The first is cut at the end of its page; the second takes what
is left, however much that is, although only the page behind the first was asked for. The slices are inside the slots
of their pages exactly when every row ends at most one page behind the page it begins in. The check that
`PleRowFragment::from_fixed` makes is about the sum of the lengths, which is right either way.

* **`inside_iff`** — one row.
* **`fragments_inside_iff`** — a batch of any run.
-/

namespace Spark.Ple

open Spark.Uring

/-! ## The fragments for the kernel -/

/-- `PleRowFragment`, in the words of the kernel interface. -/
structure PleRowFragment where
  firstOffsetBytes : Nat
  secondOffsetBytes : Nat
  firstBytes : Nat
  secondBytes : Nat
  deriving DecidableEq, Repr

def tryFrom (w value : Nat) (message : String) : Except String Nat :=
  if value < 2 ^ w then .ok value else .error message

/-- `PleRowFragment::from_fixed`. -/
def PleRowFragment.fromFixed (row : FixedPleRow) (rowBytes : Nat) : Except String PleRowFragment :=
  let secondBytes := (row.second.map (·.bytes)).getD 0
  if Word.checkedAdd 64 row.first.bytes secondBytes ≠ some rowBytes then
    .error "PLE fragments do not cover exactly one row"
  else do
    let firstOffsetBytes ← tryFrom 64 row.first.bufferOffset "PLE first offset exceeds u64"
    let secondOffsetBytes ←
      match row.second with
      | none => .ok 0
      | some second => tryFrom 64 second.bufferOffset "PLE second offset exceeds u64"
    let firstBytes ← tryFrom 32 row.first.bytes "PLE first fragment exceeds u32"
    let secondBytes ← tryFrom 32 secondBytes "PLE second fragment exceeds u32"
    .ok { firstOffsetBytes, secondOffsetBytes, firstBytes, secondBytes }

/-- The lengths of the fragments together. -/
def FixedPleRow.totalBytes (row : FixedPleRow) : Nat :=
  row.first.bytes + (row.second.map (·.bytes)).getD 0

namespace FixedPleCache

/-! ## Slices and slots -/

/-- The slice is inside the slot of one resident page, at the place of the page that holds the bytes of the file
from `offset`. -/
def InSlot (cache : FixedPleCache) (shard offset : Nat) (slice : FixedPageSlice) : Prop :=
  ∃ key slot, cache.index key = some slot ∧ key.shard = shard ∧
    slot * cache.pageBytes ≤ slice.bufferOffset ∧
    slice.bufferOffset + slice.bytes ≤ slot * cache.pageBytes + cache.pageBytes ∧
    key.byteOffset + (slice.bufferOffset - slot * cache.pageBytes) = offset

/-- The fragments are the row, each inside a slot: the second goes on where the first ends. -/
structure Inside (cache : FixedPleCache) (address : RowAddress) (row : FixedPleRow) : Prop where
  total : row.totalBytes = address.byteLen
  first : cache.InSlot address.shard address.byteOffset row.first
  second : ∀ second, row.second = some second →
    cache.InSlot address.shard (address.byteOffset + row.first.bytes) second

section Row

variable {cache : FixedPleCache} {address : RowAddress} {row : FixedPleRow}

/-- What the fragments of a row are: the first up to the end of its page, the second all the rest. -/
structure Sliced (cache : FixedPleCache) (address : RowAddress) (row : FixedPleRow) : Prop where
  first : ∃ slot, cache.index ⟨address.shard, address.byteOffset - address.byteOffset % cache.pageBytes⟩ = some slot ∧
    row.first = ⟨slot * cache.pageBytes + address.byteOffset % cache.pageBytes,
      min address.byteLen (cache.pageBytes - address.byteOffset % cache.pageBytes)⟩
  second : row.second = none ∧ address.byteLen ≤ cache.pageBytes - address.byteOffset % cache.pageBytes ∨
    ∃ slot, cache.index
        ⟨address.shard, address.byteOffset - address.byteOffset % cache.pageBytes + cache.pageBytes⟩ = some slot ∧
      cache.pageBytes - address.byteOffset % cache.pageBytes < address.byteLen ∧
      row.second = some ⟨slot * cache.pageBytes,
        address.byteLen - (cache.pageBytes - address.byteOffset % cache.pageBytes)⟩

theorem sliced_of_fragment (h : Placed cache) (hlt : address.byteOffset < 2 ^ 64)
    (hok : cache.fragment address.byteLen address = .ok row) : Sliced cache address row := by
  obtain ⟨k, hk⟩ := h.pageBytes_pow
  have hsplit := Word.alignDown_add_mod (k := k) hlt
  have hpage : pageOffset cache.pageBytes address = address.byteOffset - address.byteOffset % cache.pageBytes := by
    rw [pageOffset, hk]
    omega
  have hmod := Nat.mod_le address.byteOffset cache.pageBytes
  have hwithin : address.byteOffset - pageOffset cache.pageBytes address = address.byteOffset % cache.pageBytes := by
    omega
  unfold fragment at hok
  simp only [hwithin] at hok
  split at hok
  · cases hok
  · next firstSlot hfirst =>
    have hresident := hfirst
    rw [firstKey, hpage] at hresident
    -- the first page is in its file, so that the offset of the second does not wrap
    have hsecondKey : secondKey cache.pageBytes address =
        ⟨address.shard, address.byteOffset - address.byteOffset % cache.pageBytes + cache.pageBytes⟩ := by
      obtain ⟨file, -, hbegins⟩ := h.readable _ _ hresident
      simp only at hbegins
      have hsize : file.size < 2 ^ 63 := file.size_lt
      have hle := h.pageBytes_le
      rw [secondKey, hpage, Word.wrappingAdd_of_lt (by omega)]
    split at hok
    · next hcut =>
      have hrest : cache.pageBytes - address.byteOffset % cache.pageBytes < address.byteLen := by omega
      split at hok
      · cases hok
      · next secondSlot hsecond =>
        cases hok
        rw [hsecondKey] at hsecond
        refine ⟨⟨firstSlot, hresident, rfl⟩, .inr ⟨secondSlot, hsecond, hrest, ?_⟩⟩
        rw [Nat.min_eq_right (Nat.le_of_lt hrest)]
    · next hwhole =>
      cases hok
      exact ⟨⟨firstSlot, hresident, rfl⟩, .inl ⟨rfl, by omega⟩⟩

/-- **The lengths are right, however long the row is.** -/
theorem Sliced.totalBytes (h : Sliced cache address row) : row.totalBytes = address.byteLen := by
  obtain ⟨⟨firstSlot, -, hfirst⟩, hsecond⟩ := h
  unfold FixedPleRow.totalBytes
  rcases hsecond with ⟨hnone, hle⟩ | ⟨secondSlot, -, hlt, hsome⟩
  · rw [hfirst, hnone]
    exact Nat.min_eq_left hle
  · rw [hfirst, hsome]
    show min address.byteLen (cache.pageBytes - address.byteOffset % cache.pageBytes) +
      (address.byteLen - (cache.pageBytes - address.byteOffset % cache.pageBytes)) = address.byteLen
    omega

/-- **The fragments of a row are inside their slots exactly when two pages hold the row.** -/
theorem inside_iff (h : Placed cache) (hsliced : Sliced cache address row) :
    Inside cache address row ↔ FitsTwoPages cache.pageBytes address := by
  have hpos := h.pageBytes_pos
  have hwithin := Nat.mod_lt address.byteOffset hpos
  have hmod := Nat.mod_le address.byteOffset cache.pageBytes
  have htotal := hsliced.totalBytes
  obtain ⟨⟨firstSlot, hfirstSlot, hfirst⟩, hsecond⟩ := hsliced
  have hin : cache.InSlot address.shard address.byteOffset row.first := by
    refine ⟨_, firstSlot, hfirstSlot, rfl, ?_⟩
    rw [hfirst]
    simp only
    omega
  unfold FitsTwoPages
  rcases hsecond with ⟨hnone, hle⟩ | ⟨secondSlot, hsecondSlot, hlt, hsome⟩
  · refine ⟨fun _ => by omega, fun _ => ⟨htotal, hin, fun second heq => ?_⟩⟩
    rw [hnone] at heq
    cases heq
  · constructor
    · intro hinside
      -- no slot holds more than a page
      obtain ⟨key, slot, -, -, hbegins, hends, -⟩ := hinside.second _ hsome
      simp only at hbegins hends
      omega
    · intro hfits
      refine ⟨htotal, hin, fun second heq => ?_⟩
      obtain rfl := Option.some.inj (hsome.symm.trans heq)
      refine ⟨_, secondSlot, hsecondSlot, rfl, ?_⟩
      rw [hfirst]
      simp only
      omega

end Row

/-! ## A batch -/

/-- The fragments of a batch, row by row. -/
theorem sliced_of_fetchRows {cache after : FixedPleCache} (h : Placed cache) {request : PleIndex} {rows : List Nat}
    {answers : ReadAnswers} {batch : List FixedPleRow}
    (hok : cache.fetchRows request rows answers = (after, .ok batch)) :
    request.pageBytes = after.pageBytes ∧ ∃ addresses, rows.mapM request.address = .ok addresses ∧
      (∀ address ∈ addresses, address.byteLen = request.rowBytes) ∧
      List.Forall₂ (Sliced after) addresses batch := by
  have hstep : PlacedStep cache after := by
    have := fetchRows_placed h request rows answers
    rwa [hok] at this
  obtain ⟨hpage, addresses, haddresses, hfragments⟩ := fetchRows_ok hok
  have hlocated : ∀ address ∈ addresses, address.byteOffset < 2 ^ 64 ∧ address.byteLen = request.rowBytes := by
    intro address hmem
    obtain ⟨row, -, hat⟩ := Traverse.forall₂_exists_left (Traverse.mapM_ok_iff.mp haddresses) hmem
    have := request.address_ok hat
    exact ⟨this.byteOffset_lt, this.byteLen⟩
  refine ⟨hpage.trans hstep.pageBytes.symm, addresses, haddresses, fun a ha => (hlocated a ha).2, ?_⟩
  have hpairs := (List.forall₂_and_left _ _).mpr ⟨hlocated, Traverse.mapM_ok_iff.mp hfragments⟩
  exact hpairs.imp fun address row hrow => sliced_of_fragment hstep.placed hrow.1.1 (hrow.1.2 ▸ hrow.2)

/-- **In every run, the fragments of a batch are inside their slots exactly when two pages hold each of its rows.** -/
theorem fragments_inside_iff {index : PleIndex} {modelRoot : String → Except IoError OpenFile} {slab : Slab}
    {queueDepth : Nat} {ring : Except Int Unit} {readPolicy : FixedReadPolicy} {opened : FixedPleCache}
    (hopen : openWithDeviceBase index modelRoot slab queueDepth ring readPolicy = .ok opened) (calls : List FetchCall)
    {request : PleIndex} {rows : List Nat} {answers : ReadAnswers} {after : FixedPleCache} {batch : List FixedPleRow}
    (hok : (opened.run calls).fetchRows request rows answers = (after, .ok batch)) :
    ∃ addresses, rows.mapM request.address = .ok addresses ∧
      (List.Forall₂ (Inside after) addresses batch ↔
        ∀ address ∈ addresses, FitsTwoPages request.pageBytes address) := by
  have hrun := (run_placed (openWithDeviceBase_placed hopen).1 calls).placed
  have hafter : Placed after := by
    have := (fetchRows_placed hrun request rows answers).placed
    rwa [hok] at this
  obtain ⟨hpage, addresses, haddresses, -, hsliced⟩ := sliced_of_fetchRows hrun hok
  refine ⟨addresses, haddresses, ?_⟩
  rw [hpage]
  clear haddresses hok
  induction hsliced with
  | nil => simp
  | cons hrow _ ih => rw [List.forall₂_cons, List.forall_mem_cons, ih, inside_iff hafter hrow]

/-- Two rows over all three pages, after a batch that failed. -/
theorem fragments_inside_iff_sample :
    List.Forall₂ (Inside sampleFetch.1) [⟨0, 6, 3⟩, ⟨0, 3, 3⟩, ⟨0, 6, 3⟩] sampleRows := by
  obtain ⟨addresses, haddresses, hiff⟩ := fragments_inside_iff sampleCache_opened [sampleFailure] sampleFetch_ok
  have hat : [1, 0, 1].mapM sampleIndex.address = .ok [⟨0, 6, 3⟩, ⟨0, 3, 3⟩, ⟨0, 6, 3⟩] := by decide +kernel
  obtain rfl := Except.ok.inj (hat.symm.trans haddresses)
  exact hiff.mpr (by decide)

/-! ### A row of nine bytes over pages of four -/

def wideIndex : PleIndex where
  pageBytes := 4
  rowBytes := 9
  dtype := 1
  totalRows := 1
  scaleBf16Bits := 0x3f80
  shards := [⟨0, 1, 0, 9, "a"⟩]

def wideFile : OpenFile := ⟨[10, 11, 12, 13, 14, 15, 16, 17, 18], sampleFile.size_lt⟩

def wideSlab : Slab := ⟨fun _ => 0, 8, by decide⟩

theorem wideIndex_accepted : wideIndex.Accepted where
  pageBytes := ⟨by decide, 2, rfl⟩
  rowBytes := by decide
  dtype := rfl
  scale := by decide
  shards := List.cons_ne_nil _ _
  tiles := .cons (by decide) .nil
  dataBytes := List.forall_mem_singleton.mpr rfl
  paths := List.forall_mem_singleton.mpr ((safeRelativePath_iff "a").mp (by decide))

theorem wideIndex_fits : wideIndex.Fits where
  pageBytes := by decide
  rowBytes := by decide
  totalRows := by decide
  records := by decide
  paths := by decide
  shards := List.forall_mem_singleton.mpr (by decide)

/-- Both pages are read in one batch. -/
def wideAnswers : ReadAnswers :=
  ⟨[], fun _ => ⟨fun _ => true, 2, [.complete 0 4 fun _ => 0, .complete 0 4 fun _ => 0], none⟩, fun _ => (0, .ok 0)⟩

/-- The second fragment ends past the slab, and `from_fixed` takes it. -/
theorem wide_row_leaves_slot :
    ∃ payload opened after batch addresses, PleIndex.decode payload = .ok wideIndex ∧
      openWithDeviceBase wideIndex (fun _ => .ok wideFile) wideSlab 2 (.ok ()) .uring = .ok opened ∧
      opened.fetchRows wideIndex [0] wideAnswers = (after, .ok batch) ∧ [0].mapM wideIndex.address = .ok addresses ∧
      batch.mapM (PleRowFragment.fromFixed · wideIndex.rowBytes) = .ok [⟨0, 4, 4, 5⟩] ∧
      ¬ List.Forall₂ (Inside after) addresses batch := by
  refine ⟨_, _, _, [⟨⟨0, 4⟩, some ⟨4, 5⟩⟩], [⟨0, 0, 9⟩], decode_payloadOf _ wideIndex_accepted wideIndex_fits, rfl, rfl,
    by decide, by decide, ?_⟩
  rw [List.forall₂_cons]
  rintro ⟨hinside, -⟩
  obtain ⟨key, slot, -, -, hbegins, hends, -⟩ := hinside.second _ rfl
  have hbegins : slot * 4 ≤ 4 := hbegins
  have hends : 4 + 5 ≤ slot * 4 + 4 := hends
  omega

end FixedPleCache

end Spark.Ple
