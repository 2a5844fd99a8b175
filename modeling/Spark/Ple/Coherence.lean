import Spark.Ple.Residency

/-!
# Coherence of the fixed PLE cache over whole runs

`Coherent cache` is the invariant of the runs in which every call that reads starts on an idle ring:
table and index are inverse, every indexed slot holds its page of the file, zero past end of file,
and whatever the ring may still write goes to vacant slots. A ring read that is broken off leaves
operations behind; the next ring read takes their completions for its own.

* **`Faithful.kernelSteps`** — the kernel may act at any time.
* **`readPages_spec`** — one batch, by the ring or by the parallel reader.
* **`fetchRows_coherent`** — one call; **`run_coherent`** — any sequence of calls.
* **`fragment_bytes`** — over a coherent cache a fragment denotes the row's file bytes.
* **`stale_completion_answers`** — a call that starts on a ring that is not idle.
-/

namespace Spark.Ple

open Spark.Uring

namespace FixedPleCache

/-- The slot holds the page `key` of its file, zero-padded past end of file. -/
def PageLoaded (files : List OpenFile) (pageBytes : Nat) (buffer : Mem UInt8) (key : PageKey)
    (slot : Nat) : Prop :=
  ∃ file, files[key.shard]? = some file ∧ key.byteOffset < file.size ∧
    ∀ i < pageBytes, buffer (slot * pageBytes + i) = file.contents (key.byteOffset + i)

/-- What the ring has still to write. -/
def outstanding (cache : FixedPleCache) : List Op :=
  cache.reader.ring.queued ++ cache.reader.ring.inFlight

/-- The destination of the read is in the slot. -/
def Within (pageBytes slot : Nat) (read : FixedRead) : Prop :=
  slot * pageBytes ≤ read.bufferOffset ∧
    read.bufferOffset + read.bytes ≤ slot * pageBytes + pageBytes

/-- The slab has what the index says, and the ring leaves it alone. -/
structure Faithful (cache : FixedPleCache) : Prop where
  loaded : ∀ key slot, cache.index key = some slot →
    PageLoaded cache.files cache.pageBytes cache.buffer key slot
  quiet : ∀ op ∈ cache.outstanding, ∃ slot, cache.slotKey slot = none ∧ Within cache.pageBytes slot op.read

/-- The invariant of the runs on an idle ring. -/
structure Coherent (cache : FixedPleCache) : Prop extends Placed cache, Faithful cache

/-! ## Slot ranges of the slab -/

/-- An address inside slot `s` lies in no other slot. -/
theorem slot_of_address {p s t i : Nat} (hi : i < p) (hlo : t * p ≤ s * p + i)
    (hhi : s * p + i < t * p + p) : s = t := by
  rcases Nat.lt_trichotomy s t with h | h | h
  · have hmul := Nat.mul_le_mul_right p (Nat.succ_le_of_lt h)
    rw [Nat.succ_mul] at hmul
    omega
  · exact h
  · have hmul := Nat.mul_le_mul_right p (Nat.succ_le_of_lt h)
    rw [Nat.succ_mul] at hmul
    omega

theorem outside_slot {p s t i : Nat} (hi : i < p) (hne : s ≠ t) :
    s * p + i < t * p ∨ t * p + p ≤ s * p + i := by
  by_contra h
  exact hne (slot_of_address (p := p) (i := i) hi (by omega) (by omega))

theorem covers_outside {p s t i : Nat} {read : FixedRead} (hi : i < p) (hne : s ≠ t) (h : Within p t read) :
    read.covers (s * p + i) = false := by
  obtain ⟨hbegins, hends⟩ := h
  have := outside_slot hi hne
  simp only [FixedRead.covers, Bool.and_eq_false_iff, decide_eq_false_iff_not]
  omega

/-! ## Steps that keep the slab -/

/-- Slots are forgotten, the slab and the ring stay. -/
theorem Faithful.of_shrinks {before after : FixedPleCache} (h : Faithful before) (hshrinks : Shrinks before after) :
    Faithful after where
  loaded key slot hslot := by
    rw [hshrinks.files, hshrinks.pageBytes, buffer, hshrinks.reader]
    exact h.loaded key slot (hshrinks.index_le key slot hslot)
  quiet op hop := by
    rw [outstanding, hshrinks.reader] at hop
    obtain ⟨slot, hvacant, hwithin⟩ := h.quiet op hop
    rw [hshrinks.pageBytes]
    exact ⟨slot, hshrinks.vacant slot hvacant, hwithin⟩

/-- Writes that spare every occupied slot, with what the ring may still write in vacant ones. -/
theorem Faithful.of_writes {before after : FixedPleCache} (h : Faithful before) (hplaced : Placed before)
    (hsame : SameTable before after)
    (hkeep : ∀ slot, before.slotKey slot ≠ none → ∀ i < before.pageBytes,
      after.buffer (slot * before.pageBytes + i) = before.buffer (slot * before.pageBytes + i))
    (hquiet : ∀ op ∈ after.outstanding, ∃ slot, before.slotKey slot = none ∧ Within before.pageBytes slot op.read) :
    Faithful after where
  loaded key slot hslot := by
    rw [hsame.index] at hslot
    obtain ⟨file, hfile, hlt, hbytes⟩ := h.loaded key slot hslot
    have hkey : before.slotKey slot = some key := (hplaced.inverse key slot).mp hslot
    rw [hsame.files, hsame.pageBytes]
    refine ⟨file, hfile, hlt, fun i hi => ?_⟩
    exact (hkeep slot (by simp [hkey]) i hi).trans (hbytes i hi)
  quiet := by
    rw [hsame.slotKey, hsame.pageBytes]
    exact hquiet

/-- **The kernel may act at any time**: what it still writes goes to vacant slots. -/
theorem Coherent.kernelSteps {cache : FixedPleCache} (h : Coherent cache) (steps : List KernelStep) :
    Coherent (cache.kernelSteps steps) := by
  have hsame := sameTable_kernelSteps cache steps
  have hconfined : Confined (cache.outstanding.map Op.read) cache.buffer cache.reader :=
    ⟨fun op hop => List.mem_map_of_mem hop, fun _ _ => rfl⟩
  have hafter := Confined.kernelSteps steps hconfined
  have hvacant : ∀ read ∈ cache.outstanding.map Op.read, ∃ slot, cache.slotKey slot = none ∧
      Within cache.pageBytes slot read := by
    intro read hread
    obtain ⟨op, hop, rfl⟩ := List.mem_map.mp hread
    exact h.quiet op hop
  refine ⟨(h.toPlaced.of_table hsame).placed, h.toFaithful.of_writes h.toPlaced hsame (fun slot hslot i hi => ?_)
    fun op hop => hvacant op.read (hafter.ops op hop)⟩
  refine hafter.outside _ fun read hread => ?_
  obtain ⟨target, hnone, hwithin⟩ := hvacant read hread
  refine covers_outside hi ?_ hwithin
  rintro rfl
  exact hslot hnone

/-! ## One batch -/

/-- The reader can be trusted with a batch: the ring is idle, or the batch is not read by the ring and the ring
has nothing left to write. -/
def Ready (cache : FixedPleCache) (operations : Nat) : Prop :=
  cache.reader.ring = .idle ∨
    (parallelRead cache.readPolicy operations = true ∧ cache.outstanding = [])

theorem Ready.outstanding {cache : FixedPleCache} {operations : Nat} (h : cache.Ready operations) :
    cache.outstanding = [] := by
  rcases h with hidle | ⟨-, hnone⟩
  · rw [FixedPleCache.outstanding, hidle]
    rfl
  · exact hnone

/-- What becomes of a batch that the reader is ready for. -/
structure BatchRead (before after : FixedPleCache) (reads : List FixedRead)
    (result : Except IoError FixedReadStats) : Prop where
  ops : ∀ op ∈ after.outstanding, op.read ∈ reads
  outside : ∀ i, (∀ read ∈ reads, read.covers i = false) → after.buffer i = before.buffer i
  settled : ∀ stats, result = .ok stats → after.outstanding = []
  bytes : ∀ stats, result = .ok stats → ∀ read ∈ reads, ∀ i < read.bytes,
    after.buffer (read.bufferOffset + i) = read.file.contents (read.fileOffset + i)

theorem readPages_spec {cache : FixedPleCache} {reads : List FixedRead} (hready : cache.Ready reads.length)
    (answers : ReadAnswers) :
    BatchRead cache (cache.readPages reads answers).1 reads (cache.readPages reads answers).2 := by
  have hnone := hready.outstanding
  unfold readPages
  split
  · -- the ring is left as it was
    refine ⟨fun op hop => ?_, fun i hi => readParallel_outside hi, fun _ _ => hnone, fun stats hok => ?_⟩
    · rw [FixedPleCache.outstanding] at hnone hop
      rw [hnone] at hop
      cases hop
    · simp only at hok ⊢
      show ∀ read ∈ reads, ∀ i < read.bytes, (readParallel _ _ _ _ _).1 _ = _
      rw [readParallel_slab hok]
      exact wanted_inside (readParallel_apart hok) _
  · next hring =>
    have hidle : cache.reader.ring = .idle := hready.resolve_right fun h => hring h.1
    have hconfined := @read_confined reads cache.reader cache.config 0 answers.batches hidle
    refine ⟨hconfined.ops, hconfined.outside, fun stats hok => ?_, fun stats hok => ?_⟩
    · have hsettled : (Uring.read cache.config 0 reads answers.batches cache.reader).1.ring = .idle :=
        (read_sound hidle (Prod.ext rfl hok)).settled
      rw [FixedPleCache.outstanding]
      simp only
      rw [hsettled]
      rfl
    · exact (read_sound hidle (Prod.ext rfl hok)).bytes

/-! ## Loading pages -/

theorem zeroFill_buffer (cache : FixedPleCache) (destinations : List (PageKey × Nat))
    {slot i : Nat} (hi : i < cache.pageBytes) :
    (cache.zeroFill destinations).buffer (slot * cache.pageBytes + i) =
      if slot ∈ destinations.map (·.2) then 0 else cache.buffer (slot * cache.pageBytes + i) := by
  unfold zeroFill
  show destinations.foldl _ cache.buffer _ = _
  generalize cache.buffer = buffer
  induction destinations generalizing buffer with
  | nil => simp
  | cons destination rest ih =>
    rw [List.foldl_cons, ih]
    by_cases hrest : slot ∈ rest.map (·.2)
    · simp [hrest]
    · by_cases hslot : slot = destination.2
      · subst hslot
        simp [hrest, Mem.fill_inside _ hi]
      · rw [if_neg hrest, Mem.fill_outside _ (outside_slot hi hslot)]
        simp [hrest, hslot]

theorem pageRead_within {cache : FixedPleCache} {destination : PageKey × Nat} {read : FixedRead}
    (h : cache.pageRead destination = .ok read) : Within cache.pageBytes destination.2 read := by
  obtain ⟨-, -, -, hoffset, hbytes⟩ := pageRead_ok h
  unfold Within
  omega

section Load

variable {cache : FixedPleCache} {destinations : List (PageKey × Nat)} {reads : List FixedRead}

/-- The reads of a batch stay inside the slots of their pages. -/
theorem reads_spare (h : List.Forall₂ (fun d r => cache.pageRead d = .ok r) destinations reads) {slot i : Nat}
    (hi : i < cache.pageBytes) (hslot : slot ∉ destinations.map (·.2)) :
    ∀ read ∈ reads, read.covers (slot * cache.pageBytes + i) = false := by
  intro read hread
  obtain ⟨destination, hmem, hok⟩ := Traverse.forall₂_exists_left h hread
  refine covers_outside hi ?_ (pageRead_within hok)
  rintro rfl
  exact hslot (List.mem_map_of_mem hmem)

/-- With all reads complete over zeroed slots, every page is loaded: file bytes up to end of file, zeros after it. -/
theorem reads_load (h : List.Forall₂ (fun d r => cache.pageRead d = .ok r) destinations reads)
    (hnodup : (destinations.map (·.2)).Nodup) {buffer after : Mem UInt8}
    (hzero : ∀ d ∈ destinations, ∀ i < cache.pageBytes, buffer (d.2 * cache.pageBytes + i) = 0)
    (houtside : ∀ i, (∀ read ∈ reads, read.covers i = false) → after i = buffer i)
    (hbytes : ∀ read ∈ reads, ∀ i < read.bytes,
      after (read.bufferOffset + i) = read.file.contents (read.fileOffset + i)) :
    ∀ d ∈ destinations, PageLoaded cache.files cache.pageBytes after d.1 d.2 := by
  intro d hd
  obtain ⟨read, hread, hok⟩ := Traverse.forall₂_exists_right h hd
  obtain ⟨hfile, hlt, hfo, hbo, hlen⟩ := pageRead_ok hok
  refine ⟨read.file, hfile, hlt, fun i hi => ?_⟩
  by_cases hin : i < read.bytes
  · rw [← hbo, ← hfo]
    exact hbytes read hread i hin
  · -- past end of file: no read reaches there, and the zero fill shows through
    rw [read.file.contents_of_ge (by omega), ← hzero d hd i hi]
    refine houtside _ fun other hother => ?_
    obtain ⟨e, he, heok⟩ := Traverse.forall₂_exists_left h hother
    by_cases hslot : d.2 = e.2
    · obtain rfl : d = e := List.inj_on_of_nodup_map hnodup hd he hslot
      obtain rfl : read = other := Except.ok.inj (hok.symm.trans heok)
      simp only [FixedRead.covers, Bool.and_eq_false_iff, decide_eq_false_iff_not]
      omega
    · exact covers_outside hi hslot (pageRead_within heok)

end Load

/-- A page that is resident after a batch was so before, or was just published. -/
theorem index_publish_cases (destinations : List (PageKey × Nat)) :
    ∀ {cache : FixedPleCache} {key : PageKey} {slot : Nat}, (cache.publish destinations).index key = some slot →
      cache.index key = some slot ∨ (key, slot) ∈ destinations := by
  induction destinations with
  | nil => exact fun h => Or.inl h
  | cons destination rest ih =>
    intro cache key slot h
    rw [publish, List.foldl_cons, ← publish] at h
    rcases ih h with hbefore | hlater
    · by_cases hkey : key = destination.1
      · subst hkey
        simp only [Function.update_self, Option.some.injEq] at hbefore
        subst hbefore
        exact Or.inr List.mem_cons_self
      · simp only [Function.update_of_ne hkey] at hbefore
        exact Or.inl hbefore
    · exact Or.inr (List.mem_cons_of_mem _ hlater)

/-- Publication changes the table and the index only. -/
theorem publish_reader (destinations : List (PageKey × Nat)) :
    ∀ cache : FixedPleCache, (cache.publish destinations).reader = cache.reader ∧
      (cache.publish destinations).files = cache.files ∧
      (cache.publish destinations).pageBytes = cache.pageBytes := by
  induction destinations with
  | nil => exact fun _ => ⟨rfl, rfl, rfl⟩
  | cons destination rest ih =>
    intro cache
    rw [publish, List.foldl_cons, ← publish]
    exact ih _

/-- **Loading into reserved slots**, by a reader that is ready for it. -/
theorem loadPages_coherent {cache : FixedPleCache} (h : Coherent cache) {destinations : List (PageKey × Nat)}
    (hdestined : Destined cache destinations)
    (hready : (∀ d ∈ destinations, cache.Readable d.1) → cache.Ready destinations.length) (answers : ReadAnswers) :
    Coherent (cache.loadPages destinations answers).1 := by
  refine ⟨(loadPages_placed h.toPlaced hdestined answers).placed, ?_⟩
  have hoccupied : ∀ slot, cache.slotKey slot ≠ none → slot ∉ destinations.map (·.2) := by
    intro slot hslot hmem
    obtain ⟨d, hd, rfl⟩ := List.mem_map.mp hmem
    exact hslot (hdestined.vacant d hd)
  have hzeroSame := sameTable_zeroFill cache destinations
  have hzeroed : Faithful (cache.zeroFill destinations) :=
    h.toFaithful.of_writes h.toPlaced hzeroSame
      (fun slot hslot i hi => (zeroFill_buffer cache destinations hi).trans (if_neg (hoccupied slot hslot)))
      h.quiet
  rcases loadPages_cases cache destinations answers with ⟨e, -, hload⟩ | ⟨reads, hreads, hrest⟩
  · rw [hload]
    exact hzeroed
  have hforall := Traverse.mapM_ok_iff.mp hreads
  have hreadable : ∀ d ∈ destinations, cache.Readable d.1 := by
    intro d hd
    obtain ⟨read, -, hok⟩ := Traverse.forall₂_exists_right hforall hd
    obtain ⟨hfile, hlt, -⟩ := pageRead_ok hok
    exact ⟨read.file, hfile, hlt⟩
  have hreadySame : (cache.zeroFill destinations).Ready reads.length := by
    rw [← hforall.length_eq]
    exact hready hreadable
  have hbatch := readPages_spec hreadySame answers
  have hsame := sameTable_readPages (cache.zeroFill destinations) reads answers
  have hplaced := (h.toPlaced.of_table hzeroSame).placed
  -- what is left in the ring is of this batch, whose slots are vacant
  have hquiet : ∀ op ∈ ((cache.zeroFill destinations).readPages reads answers).1.outstanding,
      ∃ slot, (cache.zeroFill destinations).slotKey slot = none ∧
        Within (cache.zeroFill destinations).pageBytes slot op.read := by
    intro op hop
    obtain ⟨d, hd, hok⟩ := Traverse.forall₂_exists_left hforall (hbatch.ops op hop)
    exact ⟨d.2, hdestined.vacant d hd, pageRead_within hok⟩
  have hread : Faithful ((cache.zeroFill destinations).readPages reads answers).1 :=
    hzeroed.of_writes hplaced hsame
      (fun slot hslot i hi => hbatch.outside _ (reads_spare hforall hi (hoccupied slot hslot))) hquiet
  rcases hrest with ⟨error, -, hload⟩ | ⟨stats, hanswer, hload⟩
  · rw [hload]
    exact hread
  obtain ⟨hreader, hfiles, hpage⟩ :=
    publish_reader destinations ((cache.zeroFill destinations).readPages reads answers).1
  have hloaded := reads_load hforall hdestined.slots
    (fun d hd i hi => (zeroFill_buffer cache destinations hi).trans (if_pos (List.mem_map_of_mem hd)))
    hbatch.outside (hbatch.bytes stats hanswer)
  have hpublished : Faithful
      (((cache.zeroFill destinations).readPages reads answers).1.publish destinations) := by
    refine ⟨fun key slot hslot => ?_, fun op hop => ?_⟩
    · rw [hfiles, hpage, buffer, hreader]
      rcases index_publish_cases destinations hslot with hold | hnew
      · exact hread.loaded key slot hold
      · rw [hsame.files, hsame.pageBytes]
        exact hloaded (key, slot) hnew
    · rw [outstanding, hreader, ← outstanding, hbatch.settled stats hanswer] at hop
      cases hop
  rw [hload]
  exact hpublished.of_shrinks (sameResidency_countReads _ _ _).shrinks

/-! ## One call -/

/-- The pages a call asks its reader for, unless it is refused before. -/
def missing (cache : FixedPleCache) (index : PleIndex) (rows : List Nat) : List PageKey :=
  if index.pageBytes ≠ cache.pageBytes then []
  else
    match rows.mapM index.address with
    | .error _ => []
    | .ok addresses =>
      let keys := addresses.foldl (addRowKeys cache.pageBytes) []
      if keys.length > cache.slots.length then [] else keys.filter fun key => (cache.index key).isNone

theorem missing_admitted {cache : FixedPleCache} {index : PleIndex} {rows : List Nat} {addresses : List RowAddress}
    (h : cache.Admitted index rows addresses) :
    cache.missing index rows =
      (addresses.foldl (addRowKeys cache.pageBytes) []).filter fun key => (cache.index key).isNone := by
  unfold missing
  rw [if_neg (not_not.mpr h.pageBytes), h.located]
  exact if_neg (Nat.not_lt_of_le h.room)

/-- A call that can be trusted: the ring is idle when it starts. It may have something in it when no page is missing
or a missing one is in no file, since then nothing is read; and results nobody took when the batch is read in
parallel. -/
def Settled (cache : FixedPleCache) (call : FetchCall) : Prop :=
  let cache := cache.kernelSteps call.answers.before
  let missing := cache.missing call.index call.rows
  missing = [] ∨ (∃ key ∈ missing, ¬ cache.Readable key) ∨ cache.Ready missing.length

/-- Every call of the run can be trusted, in the state it starts in. -/
def SettledRun : FixedPleCache → List FetchCall → Prop
  | _, [] => True
  | cache, call :: calls =>
    cache.Settled call ∧ SettledRun (cache.fetchRows call.index call.rows call.answers).1 calls

theorem ensureFixedPages_coherent {cache : FixedPleCache} (h : Coherent cache) {keys : List PageKey}
    (hkeys : keys.Nodup) (answers : ReadAnswers)
    (hready : (∀ key ∈ keys.filter fun key => (cache.index key).isNone, cache.Readable key) →
      (keys.filter fun key => (cache.index key).isNone) ≠ [] →
        cache.Ready (keys.filter fun key => (cache.index key).isNone).length) :
    Coherent (cache.ensureFixedPages keys answers).1 := by
  obtain ⟨hsame, hmisses⟩ := markHits_spec keys cache
  obtain ⟨hplaced, hshrinks, hok⟩ := reserveMisses_spec h.toPlaced hkeys
  have hreserved : Coherent (reserveAll keys (markHits keys cache).2 [] (markHits keys cache).1).1 :=
    ⟨hplaced, h.toFaithful.of_shrinks hshrinks⟩
  rcases ensureFixedPages_cases cache keys answers with
    ⟨-, hensure⟩ | ⟨hsome, ⟨e, -, hensure⟩ | ⟨destinations, hdestinations, hensure⟩⟩
  · rw [hensure]
    exact ⟨h.toPlaced.of_sameResidency hsame, h.toFaithful.of_shrinks hsame.shrinks⟩
  · rw [hensure]
    exact hreserved
  obtain ⟨hmissing, hdestined⟩ := hok destinations hdestinations
  rw [hensure]
  refine loadPages_coherent hreserved hdestined (fun hreadable => ?_) answers
  have hlength : destinations.length = (keys.filter fun key => (cache.index key).isNone).length := by
    rw [← hmissing, List.length_map]
  have hbefore := hready (fun key hkey => ?_) (by rwa [← hmisses])
  · rw [hlength]
    unfold Ready outstanding at hbefore ⊢
    rwa [hshrinks.reader, hshrinks.readPolicy]
  · rw [← hmissing] at hkey
    obtain ⟨d, hd, rfl⟩ := List.mem_map.mp hkey
    have hfile := hreadable d hd
    rwa [Readable, hshrinks.files] at hfile

/-- **One call keeps the cache coherent**, whether it returns rows or an error. -/
theorem fetchRows_coherent {cache : FixedPleCache} (h : Coherent cache) {call : FetchCall}
    (hsettled : cache.Settled call) : Coherent (cache.fetchRows call.index call.rows call.answers).1 := by
  have hkernel := h.kernelSteps call.answers.before
  by_cases hadmitted : ∃ addresses, (cache.kernelSteps call.answers.before).Admitted call.index call.rows addresses
  · obtain ⟨addresses, hadmitted⟩ := hadmitted
    rw [fetchRows_admitted hadmitted]
    have hmissing := missing_admitted hadmitted
    unfold Settled at hsettled
    simp only [hmissing] at hsettled
    refine ensureFixedPages_coherent hkernel (nodup_requestKeys _ addresses) call.answers fun hreadable hsome => ?_
    rcases hsettled with hnone | ⟨key, hkey, hunreadable⟩ | hready
    · exact absurd hnone hsome
    · exact absurd (hreadable key hkey) hunreadable
    · exact hready
  · obtain ⟨e, hrefused⟩ := fetchRows_refused (not_exists.mp hadmitted)
    rw [hrefused]
    exact hkernel

/-- **Any sequence of such calls keeps the cache coherent.** Induction on the calls. -/
theorem run_coherent {cache : FixedPleCache} (h : Coherent cache) {calls : List FetchCall}
    (hsettled : cache.SettledRun calls) : Coherent (cache.run calls) := by
  induction calls generalizing cache with
  | nil => exact h
  | cons call calls ih => exact ih (fetchRows_coherent h hsettled.1) hsettled.2

/-- A freshly opened cache is coherent: nothing is resident, and the ring is idle. -/
theorem openWithDeviceBase_coherent {index : PleIndex} {modelRoot : String → Except IoError OpenFile} {slab : Slab}
    {queueDepth : Nat} {ring : Except Int Unit} {readPolicy : FixedReadPolicy} {cache : FixedPleCache}
    (hopen : openWithDeviceBase index modelRoot slab queueDepth ring readPolicy = .ok cache) : Coherent cache := by
  have hplaced := (openWithDeviceBase_placed hopen).1
  obtain ⟨-, files, config, -, rfl⟩ := openWithDeviceBase_ok hopen
  exact ⟨hplaced, nofun, nofun⟩

/-! ## What a batch denotes -/

/-- The bytes a row address names in its shard file, zero past end of file. -/
def fileBytes (files : List OpenFile) (address : RowAddress) : List UInt8 :=
  match files[address.shard]? with
  | some file => file.contents.slice address.byteOffset address.byteLen
  | none => []

/-- Over a coherent cache the fragments of a row denote the row's file bytes. The row is at
most one page long, so it spans its own page and at most the next one; since the first page
is resident its offset is inside the file, and the 64-bit sums cannot have wrapped. -/
theorem fragment_bytes {cache : FixedPleCache} (h : Coherent cache) {rowBytes : Nat}
    (hrow : rowBytes ≤ cache.pageBytes) {address : RowAddress}
    (hoff : address.byteOffset < 2 ^ 64) (hlen : address.byteLen = rowBytes) {row : FixedPleRow}
    (hok : cache.fragment rowBytes address = .ok row) :
    rowBytesAt cache.buffer row = fileBytes cache.files address := by
  obtain ⟨k, hk⟩ := h.pageBytes_pow
  have hsplit : pageOffset cache.pageBytes address + address.byteOffset % cache.pageBytes =
      address.byteOffset := by
    rw [pageOffset, hk]
    exact Word.alignDown_add_mod hoff
  have hwithin := Nat.mod_lt address.byteOffset h.pageBytes_pos
  unfold fragment at hok
  simp only at hok
  split at hok
  · cases hok
  · next firstSlot hfirst =>
    obtain ⟨file, hfile, hlt, hbytes⟩ := h.loaded _ _ hfirst
    simp only [firstKey] at hfile hlt hbytes
    have hsize : file.size < 2 ^ 63 := file.size_lt
    have hwrap : Word.wrappingAdd 64 (pageOffset cache.pageBytes address) cache.pageBytes =
        pageOffset cache.pageBytes address + cache.pageBytes :=
      Word.wrappingAdd_of_lt (by have := h.pageBytes_le; omega)
    have hfirstSlice : ∀ n ≤ cache.pageBytes - address.byteOffset % cache.pageBytes,
        cache.buffer.slice
          (firstSlot * cache.pageBytes + (address.byteOffset - pageOffset cache.pageBytes address))
          n = file.contents.slice address.byteOffset n := by
      intro n hn
      apply Mem.slice_congr
      intro i hi
      have := hbytes (address.byteOffset % cache.pageBytes + i) (by omega)
      rw [show firstSlot * cache.pageBytes +
          (address.byteOffset - pageOffset cache.pageBytes address) + i =
        firstSlot * cache.pageBytes + (address.byteOffset % cache.pageBytes + i) from by omega,
        this]
      congr 1
      omega
    have hfileBytes : fileBytes cache.files address =
        file.contents.slice address.byteOffset rowBytes := by
      rw [fileBytes, hfile, hlen]
    rw [hfileBytes]
    split at hok
    · next hsplitRow =>
      split at hok
      · cases hok
      · next secondSlot hsecond =>
        cases hok
        obtain ⟨file', hfile', -, hbytes'⟩ := h.loaded _ _ hsecond
        simp only [secondKey, hwrap] at hfile' hbytes'
        rw [hfile] at hfile'
        cases hfile'
        -- a split row: the tail of the first page, then the head of the next
        set within := address.byteOffset - pageOffset cache.pageBytes address with hw
        have hmin : min rowBytes (cache.pageBytes - within) = cache.pageBytes - within := by omega
        simp only [rowBytesAt, hmin]
        rw [hfirstSlice _ (by omega)]
        have hsecondSlice : cache.buffer.slice (secondSlot * cache.pageBytes)
            (rowBytes - (cache.pageBytes - within)) =
            file.contents.slice (address.byteOffset + (cache.pageBytes - within))
              (rowBytes - (cache.pageBytes - within)) := by
          apply Mem.slice_congr
          intro i hi
          rw [hbytes' i (by omega)]
          congr 1
          omega
        rw [hsecondSlice, ← Mem.slice_add]
        congr 1
        omega
    · next hwhole =>
      cases hok
      simp only [rowBytesAt, List.append_nil]
      rw [hfirstSlice _ (by omega)]
      congr 1
      omega

/-- An answer over a coherent cache denotes the rows' file bytes, in request order and with repetitions. -/
theorem materialize_fragments {cache : FixedPleCache} (h : Coherent cache) {index : PleIndex}
    (hrow : index.rowBytes ≤ cache.pageBytes) {rows : List Nat} {addresses : List RowAddress}
    (haddr : rows.mapM index.address = .ok addresses) {batch : List FixedPleRow}
    (hfrag : addresses.mapM (cache.fragment index.rowBytes) = .ok batch) :
    cache.materialize batch = addresses.flatMap (fileBytes cache.files) := by
  have hlocated : ∀ address ∈ addresses, address.byteOffset < 2 ^ 64 ∧
      address.byteLen = index.rowBytes := by
    intro address hmem
    obtain ⟨row, -, hat⟩ := Traverse.forall₂_exists_left (Traverse.mapM_ok_iff.mp haddr) hmem
    have := index.address_ok hat
    exact ⟨this.byteOffset_lt, this.byteLen⟩
  rw [Traverse.mapM_ok_iff] at hfrag
  unfold materialize
  clear haddr
  induction hfrag with
  | nil => rfl
  | @cons address row _ _ hhead _ ih =>
    rw [List.flatMap_cons, List.flatMap_cons, ih fun a ha => hlocated a (List.mem_cons_of_mem _ ha)]
    congr 1
    obtain ⟨hlt, hlen⟩ := hlocated address (by simp)
    exact fragment_bytes h hrow hlt hlen hhead

/-- **Coherence over whole runs.** After any sequence of calls, failed ones included, slot table and index are
mutually inverse. If every call of the run can be trusted, every indexed slot holds its page of the file, whatever the
kernel has still done; and a further such call that returns `Ok` denotes the file bytes of the requested rows, in
request order, for as long as nothing but the kernel acts. -/
theorem fetchRows_returns_file_bytes (index : PleIndex)
    (modelRoot : String → Except IoError OpenFile) (slab : Slab) (queueDepth : Nat) (ring : Except Int Unit)
    (readPolicy : FixedReadPolicy) (cache : FixedPleCache)
    (hopen : openWithDeviceBase index modelRoot slab queueDepth ring readPolicy = .ok cache)
    (hrow : index.rowBytes ≤ index.pageBytes) (calls : List FetchCall) :
    (∀ key slot, (cache.run calls).index key = some slot ↔
      ∃ state, (cache.run calls).slots[slot]? = some state ∧ state.key = some key) ∧
    (cache.SettledRun calls →
      (∀ key slot, (cache.run calls).index key = some slot → ∀ later,
        PageLoaded cache.files index.pageBytes ((cache.run calls).kernelSteps later).buffer key slot) ∧
      ∀ rows answers after batch, (cache.run calls).Settled ⟨index, rows, answers⟩ →
        (cache.run calls).fetchRows index rows answers = (after, .ok batch) →
        ∃ addresses, rows.mapM index.address = .ok addresses ∧
          (∀ later, (after.kernelSteps later).materialize batch = addresses.flatMap (fileBytes cache.files)) ∧
          ((∀ shard ∈ index.shards, shard.dataBytes = shard.rowCount * index.rowBytes) →
            ∀ address ∈ addresses, ∃ file, cache.files[address.shard]? = some file ∧
              address.byteOffset + address.byteLen ≤ file.size)) := by
  obtain ⟨hplaced, hpage⟩ := openWithDeviceBase_placed hopen
  have hrun := run_placed hplaced calls
  refine ⟨fun key slot => ?_, fun hsettled => ?_⟩
  · rw [hrun.placed.inverse key slot, slotKey_eq_some]
  have hcoherent := run_coherent (openWithDeviceBase_coherent hopen) hsettled
  refine ⟨fun key slot hslot later => ?_, fun rows answers after batch hcall hok => ?_⟩
  · rw [← hrun.files, ← hpage, ← hrun.pageBytes]
    exact (hcoherent.kernelSteps later).loaded key slot hslot
  · have hstep := fetchRows_placed hrun.placed index rows answers
    have hafter := fetchRows_coherent hcoherent hcall
    simp only at hafter
    rw [hok] at hstep hafter
    obtain ⟨-, addresses, haddr, hfrag⟩ := fetchRows_ok hok
    have hpageAfter : after.pageBytes = index.pageBytes := hstep.pageBytes.trans (hrun.pageBytes.trans hpage)
    refine ⟨addresses, haddr, fun later => ?_, fun hwhole address hmem => ?_⟩
    · have hrow' : index.rowBytes ≤ after.pageBytes := by rwa [hpageAfter]
      have hbytes := materialize_fragments (hafter.kernelSteps later) hrow' haddr hfrag
      rw [hbytes]
      show addresses.flatMap (fileBytes after.files) = _
      rw [hstep.files, hrun.files]
    · obtain ⟨row, -, hat⟩ := Traverse.forall₂_exists_left (Traverse.mapM_ok_iff.mp haddr) hmem
      exact address_in_file hopen hwhole hat

/-! ### A run over a nine-byte shard

Two three-byte rows, both split over the four-byte pages; the last page is cut by end of
file. The first call reads on the ring, fails and leaves junk in its slots; the second one reads in
parallel. -/

def sampleIndex : PleIndex where
  pageBytes := 4
  rowBytes := 3
  dtype := 1
  totalRows := 2
  scaleBf16Bits := 0x3f80
  shards := [⟨0, 2, 3, 6, "weights.safetensors"⟩]

def sampleFile : OpenFile := ⟨[10, 11, 12, 13, 14, 15, 16, 17, 18], by decide⟩

def sampleSlab : Slab := ⟨fun _ => 0, 12, by decide⟩

def sampleConfig : ReaderConfig := ⟨12, 2, 3, Nat.two_pos⟩

def sampleCache : FixedPleCache where
  files := [sampleFile]
  pageBytes := 4
  slots := List.replicate 3 ⟨none, false⟩
  index := fun _ => none
  hand := 0
  config := sampleConfig
  reader := ⟨.idle, fun _ => 0, []⟩
  readPolicy := .hybrid 3 2
  stats := {}

theorem sampleCache_opened :
    openWithDeviceBase sampleIndex (fun _ => .ok sampleFile) sampleSlab 2 (.ok ()) (.hybrid 3 2) = .ok sampleCache :=
  rfl

/-- The kernel finishes the second page first and cannot read the other one. -/
def sampleFailure : FetchCall where
  index := sampleIndex
  rows := [1]
  answers :=
    { before := []
      batches := fun _ => ⟨fun _ => true, 2,
        [.transfer 0 fun _ => 255, .complete 1 1 fun _ => 255, .complete 0 (-5) fun _ => 255], none⟩
      schedule := fun _ => (0, .ok 0) }

/-- The threads take turns. -/
def sampleAnswers : ReadAnswers := ⟨[], fun _ => ⟨fun _ => true, 2, [], none⟩, fun time => (time % 2, .ok 1)⟩

def sampleFetch : FixedPleCache × Except StoreError (List FixedPleRow) :=
  (sampleCache.run [sampleFailure]).fetchRows sampleIndex [1, 0, 1] sampleAnswers

def sampleRows : List FixedPleRow :=
  [⟨⟨2, 2⟩, some ⟨4, 1⟩⟩, ⟨⟨11, 1⟩, some ⟨0, 2⟩⟩, ⟨⟨2, 2⟩, some ⟨4, 1⟩⟩]

theorem sampleFetch_ok : (sampleCache.run [sampleFailure]).fetchRows sampleIndex [1, 0, 1] sampleAnswers =
    (sampleFetch.1, .ok sampleRows) := by
  have hfetch : sampleFetch.2 = .ok sampleRows := by decide +kernel
  rw [← hfetch]
  rfl

theorem fetchRows_returns_file_bytes_sample :
    (sampleCache.fetchRows sampleIndex [1] sampleFailure.answers).2 = .error (.io (.rawOs 5)) ∧
    sampleFetch.2 = .ok sampleRows ∧
    sampleFetch.1.materialize sampleRows = [16, 17, 18, 13, 14, 15, 16, 17, 18] := by
  obtain ⟨-, hrun⟩ := fetchRows_returns_file_bytes sampleIndex (fun _ => .ok sampleFile)
    sampleSlab 2 (.ok ()) (.hybrid 3 2) sampleCache sampleCache_opened (by decide) [sampleFailure]
  obtain ⟨-, hok⟩ := hrun ⟨Or.inr (Or.inr (Or.inl rfl)), trivial⟩
  obtain ⟨addresses, haddr, hbytes, -⟩ :=
    hok [1, 0, 1] sampleAnswers sampleFetch.1 sampleRows (Or.inr (Or.inr (Or.inl rfl))) sampleFetch_ok
  have hat : [1, 0, 1].mapM sampleIndex.address =
      .ok [⟨0, 6, 3⟩, ⟨0, 3, 3⟩, ⟨0, 6, 3⟩] := by decide +kernel
  refine ⟨by decide +kernel, by decide +kernel, ?_⟩
  rw [show sampleFetch.1.materialize sampleRows = _ from hbytes []]
  rw [hat] at haddr
  cases haddr
  decide +kernel

/-! ### A call that starts on a ring with an operation in it

One slot, two rows of a page each. The wait of the first call is interrupted. -/

def staleIndex : PleIndex where
  pageBytes := 4
  rowBytes := 4
  dtype := 1
  totalRows := 2
  scaleBf16Bits := 0x3f80
  shards := [⟨0, 2, 0, 8, "weights.safetensors"⟩]

def staleFile : OpenFile := ⟨[10, 11, 12, 13, 14, 15, 16, 17], by decide⟩

def staleSlab : Slab := ⟨fun _ => 0, 4, by decide⟩

def interruptedFetch : FetchCall where
  index := staleIndex
  rows := [0]
  answers := ⟨[], fun _ => interruptedWait, fun _ => (0, .ok 0)⟩

/-- The kernel finishes the operation that the first call has left in flight. -/
def lateAnswers : ReadAnswers := ⟨[], fun _ => ⟨fun _ => true, 1, [.complete 0 4 fun _ => 0], none⟩, fun _ => (0, .ok 0)⟩

def staleCache : FixedPleCache where
  files := [staleFile]
  pageBytes := 4
  slots := [⟨none, false⟩]
  index := fun _ => none
  hand := 0
  config := ⟨4, 1, 1, Nat.one_pos⟩
  reader := ⟨.idle, fun _ => 0, []⟩
  readPolicy := .uring
  stats := {}

def staleFetch : FixedPleCache × Except StoreError (List FixedPleRow) :=
  (staleCache.run [interruptedFetch]).fetchRows staleIndex [1] lateAnswers

/-- The second call takes the completion of the first one's operation for its own: it returns `Ok` for row 1 with the
bytes of row 0, and the slot holds them under the name of the other page. -/
theorem stale_completion_answers :
    ¬ ∀ (index : PleIndex) (modelRoot : String → Except IoError OpenFile) (slab : Slab) (queueDepth : Nat)
      (ring : Except Int Unit) (readPolicy : FixedReadPolicy) (cache : FixedPleCache),
      openWithDeviceBase index modelRoot slab queueDepth ring readPolicy = .ok cache →
      index.rowBytes ≤ index.pageBytes → ∀ (calls : List FetchCall) rows answers after batch,
      (cache.run calls).fetchRows index rows answers = (after, .ok batch) →
        ∃ addresses, rows.mapM index.address = .ok addresses ∧
          after.materialize batch = addresses.flatMap (fileBytes cache.files) := by
  intro hall
  have hfetch : staleFetch.2 = .ok [⟨⟨0, 4⟩, none⟩] := by decide +kernel
  obtain ⟨addresses, haddr, hbytes⟩ := hall staleIndex (fun _ => .ok staleFile) staleSlab 1 (.ok ()) .uring staleCache
    rfl (by decide) [interruptedFetch] [1] lateAnswers staleFetch.1 [⟨⟨0, 4⟩, none⟩] (by rw [← hfetch]; rfl)
  have hat : [1].mapM staleIndex.address = .ok [⟨0, 4, 4⟩] := by decide +kernel
  obtain rfl := Except.ok.inj (hat.symm.trans haddr)
  have hwrong : staleFetch.1.materialize [⟨⟨0, 4⟩, none⟩] = [10, 11, 12, 13] := by decide +kernel
  rw [hwrong] at hbytes
  revert hbytes
  decide +kernel

end FixedPleCache

end Spark.Ple
