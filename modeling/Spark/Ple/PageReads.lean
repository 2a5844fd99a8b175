import Spark.Lib.Outcome
import Spark.Lib.Threads
import Spark.Ple.FixedCache
import Spark.Uring.Completion

/-!
# Reading pages on several threads

`FilePageSource` of `storage.rs`. The keys are cut into chunks, each thread reads its own, and the pages arrive in
any order.

* **`received_perm`** — what arrives, whoever is faster.
* **`readPages_iff`** — the pages are those that are read one by one.
* **`parallel_reads_agree`** — with the two ways to fill a slab.
-/

namespace Spark.Ple

open Outcome
open Spark.Uring hiding read

/-- An open file that answers a positional read the same way every time. -/
structure SourceFile where
  readAt : (offset count : Nat) → Except Int (List UInt8)
  short : ∀ offset count bytes, readAt offset count = .ok bytes → bytes.length ≤ count

structure FilePageSource where
  files : List SourceFile
  fileSizes : List Nat
  workers : Nat
  sized : fileSizes.length = files.length
  workers_pos : 0 < workers

/-- The loop of `read_one`, with what it has read. -/
def readLoop (file : SourceFile) (key : PageKey) (available : Nat) :
    (fuel : Nat) → (read : List UInt8) → Except StoreError (List UInt8)
  | 0, read => .ok read
  | fuel + 1, read =>
    if read.length < available then
      match file.readAt (key.byteOffset + read.length) (available - read.length) with
      | .error code => .error (.io (.rawOs code))
      | .ok [] => .error (.sourceTruncated s!"shard {key.shard} at byte {key.byteOffset}")
      | .ok (byte :: bytes) => readLoop file key available fuel (read ++ byte :: bytes)
    else .ok read

/-- `read_one`: every round reads a byte or more, so that there are at most `available`. -/
def FilePageSource.readOne (source : FilePageSource) (pageBytes : Nat) (key : PageKey) :
    Except StoreError (List UInt8) :=
  match source.files[key.shard]? with
  | none => .error (.shardOutOfRange key.shard)
  | some file =>
    let fileSize := source.fileSizes.getD key.shard 0
    if key.byteOffset ≥ fileSize then .error (.pageOutOfRange key)
    else
      let available := min (fileSize - key.byteOffset) pageBytes
      (readLoop file key available available []).map fun read =>
        read ++ List.replicate (pageBytes - read.length) 0

/-- What a reader sends: the place of a key and what was read for it. -/
abbrev Message := Nat × Except StoreError (List UInt8)

/-- A reader with the messages it has still to send. -/
def reader : Threads.Program (List Message) (List Message) Unit where
  step _ messages received :=
    match messages with
    | [] => ([], received)
    | message :: messages => (messages, received ++ [message])
  finished messages := messages.isEmpty

/-- The messages of the thread with chunk `chunkNumber`. -/
def FilePageSource.chunkMessages (source : FilePageSource) (keys : List PageKey) (pageBytes chunkSize : Nat)
    (chunkNumber : Nat) : List Message :=
  let start := chunkNumber * chunkSize
  (((keys.drop start).take chunkSize).zipIdx start).map fun entry => (entry.2, source.readOne pageBytes entry.1)

/-- One message, as the receiver takes it. -/
def receive (state : List (Option (List UInt8)) × Option StoreError) (message : Message) :
    Except (Outcome.Fault StoreError) (List (Option (List UInt8)) × Option StoreError) :=
  match message.2 with
  | .ok page => do return (← writeAt state.1 message.1 (some page), state.2)
  | .error error => .ok (state.1, if state.2 = none then some error else state.2)

/-- `read_pages`; the schedule says whose message is next. -/
def FilePageSource.readPages (source : FilePageSource) (keys : List PageKey) (pageBytes : Nat)
    (schedule : Nat → Nat × Unit) : Except (Outcome.Fault StoreError) (List (List UInt8)) :=
  if source.workers = 1 ∨ keys.length ≤ 1 then raise id (keys.mapM (source.readOne pageBytes))
  else do
    let workers := min source.workers keys.length
    let chunkSize := Threads.divCeil keys.length workers
    let chunks := (List.range (Threads.divCeil keys.length chunkSize)).map
      (source.chunkMessages keys pageBytes chunkSize)
    let received := (Threads.run reader schedule keys.length 0 chunks []).2
    -- the receiver waits for a message for every key
    Outcome.reject (received.length < keys.length) .panic
    let (pages, firstError) ← (received.take keys.length).foldlM receive (List.replicate keys.length none, none)
    match firstError with
    | some error => .error (.error error)
    | none => pages.mapM fun page => okOr page (.error .invalidPageSource)

/-! ## What arrives -/

variable {source : FilePageSource} {keys : List PageKey} {pageBytes : Nat}

open scoped List

/-- All the messages there are. -/
def FilePageSource.messages (source : FilePageSource) (keys : List PageKey) (pageBytes : Nat) : List Message :=
  keys.zipIdx.map fun entry => (entry.2, source.readOne pageBytes entry.1)

/-- A chunk, numbered from its start. -/
theorem zipIdx_chunk {α : Type} (xs : List α) (start size : Nat) :
    ((xs.drop start).take size).zipIdx start = (xs.zipIdx.drop start).take size := by
  refine List.ext_getElem? fun i => ?_
  rw [List.getElem?_zipIdx, List.getElem?_take, List.getElem?_take, List.getElem?_drop, List.getElem?_drop,
    List.getElem?_zipIdx]
  split
  · rw [Nat.zero_add]
  · rfl

theorem flatten_chunkMessages {chunkSize : Nat} (hsize : 0 < chunkSize) :
    ((List.range (Threads.divCeil keys.length chunkSize)).map (source.chunkMessages keys pageBytes chunkSize)).flatten =
      source.messages keys pageBytes := by
  unfold FilePageSource.chunkMessages
  simp only [zipIdx_chunk]
  rw [← List.flatMap_def, ← List.map_flatMap, ← @List.length_zipIdx _ keys 0, Threads.flatMap_chunks _ hsize]
  rfl

/-- Everything that is sent arrives once, whoever is faster. -/
theorem received_perm (chunks : List (List Message)) (schedule : Nat → Nat × Unit) {fuel : Nat}
    (hfuel : chunks.flatten.length ≤ fuel) : (Threads.run reader schedule fuel 0 chunks []).2 ~ chunks.flatten := by
  have hdone : ∀ messages ∈ (Threads.run reader schedule fuel 0 chunks []).1, messages.isEmpty = true := by
    refine Threads.run_finished (μ := List.length) (fun _ messages _ hlive => ?_) schedule 0 ?_ []
    · cases messages with
      | nil => cases hlive
      | cons message messages => exact Nat.lt_succ_self _
    · rwa [← List.length_flatten]
  have hkept : (Threads.run reader schedule fuel 0 chunks []).2 ++
      (Threads.run reader schedule fuel 0 chunks []).1.flatten ~ chunks.flatten := by
    refine Threads.run_induction (P := fun threads received => received ++ threads.flatten ~ chunks.flatten)
      (List.Perm.refl _) (fun threads received i messages _ hperm hmessages hlive => ?_) fuel 0
    cases messages with
    | nil => cases hlive
    | cons message messages =>
      refine List.Perm.trans ?_ hperm
      obtain ⟨hlt, hget⟩ := List.getElem?_eq_some_iff.mp hmessages
      have hsplit : threads = threads.take i ++ (message :: messages) :: threads.drop (i + 1) := by
        rw [← hget, ← List.drop_eq_getElem_cons hlt, List.take_append_drop]
      have hset : threads.set i messages = threads.take i ++ messages :: threads.drop (i + 1) := by
        rw [List.set_eq_take_append_cons_drop, if_pos hlt]
      show (received ++ [message]) ++ (threads.set i messages).flatten ~ received ++ threads.flatten
      rw [hset]
      nth_rewrite 3 [hsplit]
      simp only [List.flatten_append, List.flatten_cons, List.append_assoc, List.cons_append, List.nil_append]
      exact (List.perm_middle.symm).append_left _
  have hempty : (Threads.run reader schedule fuel 0 chunks []).1.flatten = [] :=
    List.flatten_eq_nil_iff.mpr fun messages hmessages => List.isEmpty_iff.mp (hdone messages hmessages)
  rwa [hempty, List.append_nil] at hkept

/-! ## What becomes of it -/

variable {n : Nat} {result : Nat → Except StoreError (List UInt8)}

/-- What the receiver has, of all the places whose messages it has seen. -/
structure Taken (n : Nat) (result : Nat → Except StoreError (List UInt8)) (seen : List Nat)
    (state : List (Option (List UInt8)) × Option StoreError) : Prop where
  length : state.1.length = n
  page : ∀ i page, i ∈ seen → result i = .ok page → state.1[i]? = some (some page)
  error : state.2 = none ↔ ∀ i ∈ seen, ∃ page, result i = .ok page

theorem Taken.receive {seen : List Nat} {state : List (Option (List UInt8)) × Option StoreError}
    (h : Taken n result seen state) {i : Nat} (hi : i < n) :
    ∃ state', Ple.receive state (i, result i) = .ok state' ∧ Taken n result (seen ++ [i]) state' := by
  obtain ⟨pages, firstError⟩ := state
  have herror (hok : ∃ page, result i = .ok page) :
      firstError = none ↔ ∀ j ∈ seen ++ [i], ∃ page, result j = .ok page := by
    rw [List.forall_mem_append, List.forall_mem_singleton, and_iff_left hok]
    exact h.error
  cases hresult : result i with
  | ok page =>
    have hlength : i < pages.length := by rw [h.length]; exact hi
    refine ⟨(pages.set i (some page), firstError), ?_, ?_, fun j page' hj hpage => ?_, herror ⟨page, hresult⟩⟩
    · rw [Ple.receive]
      simp only [writeAt, if_pos hlength]
      rfl
    · rw [List.length_set]
      exact h.length
    · rw [List.getElem?_set]
      by_cases hij : i = j
      · subst hij
        rw [hpage] at hresult
        cases hresult
        rw [if_pos rfl, if_pos hlength]
      · rw [if_neg hij]
        exact h.page j page' ((List.mem_append.mp hj).resolve_right fun hmem =>
          hij (List.mem_singleton.mp hmem).symm) hpage
  | error error =>
    refine ⟨(pages, if firstError = none then some error else firstError), rfl, h.length, fun j page hj hpage => ?_, ?_⟩
    · rcases List.mem_append.mp hj with hj | hj
      · exact h.page j page hj hpage
      · rw [List.mem_singleton.mp hj, hresult] at hpage
        cases hpage
    · refine iff_of_false ?_ fun hall => ?_
      · show (if firstError = none then some error else firstError) ≠ none
        split
        · exact Option.some_ne_none _
        · assumption
      · obtain ⟨page, hpage⟩ := hall i (by simp)
        rw [hresult] at hpage
        cases hpage

theorem Taken.foldlM {seen places : List Nat} {state : List (Option (List UInt8)) × Option StoreError}
    (h : Taken n result seen state) (hplaces : ∀ i ∈ places, i < n) :
    ∃ state', (places.map fun i => (i, result i)).foldlM Ple.receive state = .ok state' ∧
      Taken n result (seen ++ places) state' := by
  induction places generalizing seen state with
  | nil => exact ⟨state, rfl, by rwa [List.append_nil]⟩
  | cons i places ih =>
    obtain ⟨hi, hplaces⟩ := List.forall_mem_cons.mp hplaces
    obtain ⟨state', hreceive, hstate'⟩ := h.receive hi
    obtain ⟨state'', hfold, hstate''⟩ := ih hstate' hplaces
    refine ⟨state'', ?_, by rwa [List.append_assoc] at hstate''⟩
    rw [List.map_cons, List.foldlM_cons, bind_of_ok hreceive]
    exact hfold

/-- What is read for the key at a place. -/
def FilePageSource.resultAt (source : FilePageSource) (keys : List PageKey) (pageBytes i : Nat) :
    Except StoreError (List UInt8) :=
  match keys[i]? with
  | some key => source.readOne pageBytes key
  | none => .error .invalidPageSource

theorem messages_eq (source : FilePageSource) (keys : List PageKey) (pageBytes : Nat) :
    source.messages keys pageBytes =
      (List.range keys.length).map fun i => (i, source.resultAt keys pageBytes i) := by
  refine List.ext_getElem? fun i => ?_
  rw [FilePageSource.messages, List.getElem?_map, List.getElem?_zipIdx, List.getElem?_map]
  by_cases hi : i < keys.length
  · simp [FilePageSource.resultAt, hi]
  · simp [hi]

/-- What has arrived is the result of every place, in some order. -/
theorem received_eq {received : List Message} (hperm : received ~ source.messages keys pageBytes) :
    received = (received.map Prod.fst).map (fun i => (i, source.resultAt keys pageBytes i)) ∧
      received.map Prod.fst ~ List.range keys.length := by
  rw [messages_eq] at hperm
  constructor
  · rw [List.map_map]
    refine (List.map_id received).symm.trans (List.map_congr_left fun message hmessage => ?_)
    obtain ⟨i, -, rfl⟩ := List.mem_map.mp (hperm.mem_iff.mp hmessage)
    rfl
  · have hplaces := hperm.map Prod.fst
    rwa [List.map_map, show (Prod.fst ∘ fun i => (i, source.resultAt keys pageBytes i)) = id from rfl,
      List.map_id] at hplaces

/-- Every place is read when every key is. -/
theorem resultAt_ok : (∀ i < keys.length, ∃ page, source.resultAt keys pageBytes i = .ok page) ↔
    ∃ pages, keys.mapM (source.readOne pageBytes) = .ok pages := by
  constructor
  · refine fun hall => Traverse.exists_mapM_ok fun key hkey => ?_
    obtain ⟨i, hi⟩ := List.mem_iff_getElem?.mp hkey
    obtain ⟨page, hpage⟩ := hall i (List.getElem?_eq_some_iff.mp hi).1
    rw [FilePageSource.resultAt, hi] at hpage
    exact ⟨page, hpage⟩
  · rintro ⟨pages, hpages⟩ i hi
    obtain ⟨page, -, hpage⟩ := Traverse.forall₂_exists_right (Traverse.mapM_ok_iff.mp hpages) (List.getElem_mem hi)
    refine ⟨page, ?_⟩
    rw [FilePageSource.resultAt, List.getElem?_eq_getElem hi]
    exact hpage

/-- A traversal that succeeds has the page of every place. -/
theorem getElem?_of_mapM {pages : List (List UInt8)} (hpages : keys.mapM (source.readOne pageBytes) = .ok pages)
    {i : Nat} (hi : i < keys.length) :
    ∃ page, source.resultAt keys pageBytes i = .ok page ∧ pages[i]? = some page := by
  have hall := Traverse.mapM_ok_iff.mp hpages
  have hlt : i < pages.length := hall.length_eq ▸ hi
  refine ⟨pages[i], ?_, List.getElem?_eq_getElem hlt⟩
  rw [FilePageSource.resultAt, List.getElem?_eq_getElem hi]
  exact hall.get hi hlt

theorem mapM_okOr (pages : List (List UInt8)) (error : Outcome.Fault StoreError) :
    (pages.map some).mapM (fun page => okOr page error) = .ok pages := by
  refine Traverse.mapM_ok_iff.mpr ?_
  rw [List.forall₂_map_left_iff]
  exact List.forall₂_same.mpr fun _ _ => rfl

/-- The pages are those that are read one by one; and nothing panics. -/
theorem readPages_iff (source : FilePageSource) (keys : List PageKey) (pageBytes : Nat)
    (schedule : Nat → Nat × Unit) :
    (∀ pages, source.readPages keys pageBytes schedule = .ok pages ↔
      keys.mapM (source.readOne pageBytes) = .ok pages) ∧
    source.readPages keys pageBytes schedule ≠ .error .panic := by
  unfold FilePageSource.readPages
  split
  case isTrue =>
    cases keys.mapM (source.readOne pageBytes) with
    | ok pages => exact ⟨fun _ => by simp [raise], by simp [raise]⟩
    | error error => exact ⟨fun _ => by simp [raise], by simp [raise]⟩
  case isFalse hmany =>
    have hworkers := source.workers_pos
    have hchunk : 0 < Threads.divCeil keys.length (min source.workers keys.length) :=
      Threads.divCeil_pos (by omega) (by omega)
    have hflatten := @flatten_chunkMessages source keys pageBytes _ hchunk
    have hlength : (source.messages keys pageBytes).length = keys.length := by
      rw [messages_eq, List.length_map, List.length_range]
    simp only
    generalize (List.range _).map (source.chunkMessages keys pageBytes _) = chunks at hflatten
    have hperm := received_perm chunks schedule (by rw [hflatten, hlength] : chunks.flatten.length ≤ keys.length)
    rw [hflatten] at hperm
    generalize (Threads.run reader schedule keys.length 0 chunks []).2 = received at hperm
    have hreceived : received.length = keys.length := hperm.length_eq.trans hlength
    obtain ⟨hall, hplaces⟩ := received_eq hperm
    rw [reject_of_not _ (by omega), List.take_of_length_le hreceived.le, hall]
    have hstart : Taken keys.length (source.resultAt keys pageBytes) [] (List.replicate keys.length none, none) :=
      ⟨List.length_replicate, fun _ _ hmem => absurd hmem List.not_mem_nil, by simp⟩
    obtain ⟨⟨pages, firstError⟩, hfold, htaken⟩ := hstart.foldlM (fun i hi => List.mem_range.mp (hplaces.mem_iff.mp hi))
    rw [List.nil_append] at htaken
    have hseen : (∀ i ∈ received.map Prod.fst, ∃ page, source.resultAt keys pageBytes i = .ok page) ↔
        ∃ pages, keys.mapM (source.readOne pageBytes) = .ok pages := by
      rw [← resultAt_ok]
      simp only [hplaces.mem_iff, List.mem_range]
    show (∀ _, (Except.ok () >>= fun _ => List.foldlM receive _ _ >>= _) = _ ↔ _) ∧ _
    rw [bind_of_ok rfl, bind_of_ok hfold]
    cases firstError with
    | some error =>
      -- one key was not read
      have hnone : ¬ ∃ pages, keys.mapM (source.readOne pageBytes) = .ok pages :=
        fun hsome => Option.some_ne_none _ (htaken.error.mpr (hseen.mpr hsome))
      exact ⟨fun pages => iff_of_false (by simp) fun hpages => hnone ⟨pages, hpages⟩, by simp⟩
    | none =>
      obtain ⟨read, hread⟩ := hseen.mp (htaken.error.mp rfl)
      have hpages : pages = read.map some := by
        refine List.ext_getElem? fun i => ?_
        have hlong := (Traverse.mapM_ok_iff.mp hread).length_eq
        have hsame := htaken.length
        simp only at hsame
        by_cases hi : i < keys.length
        · obtain ⟨page, hpage, hget⟩ := getElem?_of_mapM hread hi
          rw [htaken.page i page (hplaces.mem_iff.mpr (List.mem_range.mpr hi)) hpage, List.getElem?_map, hget]
          rfl
        · rw [List.getElem?_eq_none (by omega), List.getElem?_eq_none (by rw [List.length_map]; omega)]
      simp only [hpages, mapM_okOr, hread]
      exact ⟨fun pages => by simp, by simp⟩

/-- **Parallel and sequential reads agree.** For every list of keys, number of threads and order in which their
messages arrive, `read_pages` returns the pages that are read one by one, or fails where one of them fails. And for
every list of operations that `validate` accepts: the ring that is idle returns `Ok` when every operation is completed
with all its bytes, in whatever order; the threads do when the operations are inside their files and no read is
answered with an error; and both leave the same slab when they return `Ok`, the file bytes at every destination and
everything else as it was. -/
theorem parallel_reads_agree :
    (∀ (source : FilePageSource) (keys : List PageKey) (pageBytes : Nat) (schedule : Nat → Nat × Unit),
      (∀ pages, source.readPages keys pageBytes schedule = .ok pages ↔
        keys.mapM (source.readOne pageBytes) = .ok pages) ∧
      source.readPages keys pageBytes schedule ≠ .error .panic) ∧
    (∀ (config : ReaderConfig) (reads : List FixedRead),
      validate config.maxBatch config.bufferLen reads = .ok () →
      ∀ (call : Nat) (answers : Nat → BatchAnswers) (reader : Reader) (workers : Nat)
        (schedule : Nat → Nat × Except Int Nat), reader.ring = .idle →
        let sequential := Uring.read config call reads answers reader
        let parallel := readParallel config reads workers schedule reader.slab
        (Completes config call reads answers → ∃ stats, sequential.2 = .ok stats) ∧
        (workers ≠ 0 → (∀ read ∈ reads, read.fileOffset + read.bytes ≤ read.file.size) →
          (∀ time code, (schedule time).2 ≠ .error code) → ∃ stats, parallel.2 = .ok stats) ∧
        (∀ stats, sequential.2 = .ok stats → sequential.1.slab = wanted reads reader.slab) ∧
        (∀ stats, parallel.2 = .ok stats → parallel.1 = wanted reads reader.slab) ∧
        (∀ read ∈ reads, ∀ i < read.bytes,
          wanted reads reader.slab (read.bufferOffset + i) = read.file.contents (read.fileOffset + i)) ∧
        (∀ i, (∀ read ∈ reads, read.covers i = false) →
          wanted reads reader.slab i = reader.slab i ∧ sequential.1.slab i = reader.slab i ∧
            parallel.1 i = reader.slab i)) := by
  refine ⟨readPages_iff, fun config reads hvalid call answers reader workers schedule hidle => ?_⟩
  refine ⟨read_completes hvalid hidle, fun hworkers hinside hquiet => ?_, fun stats hread => ?_,
    fun stats hparallel => readParallel_slab hparallel, ?_, fun i hi => ?_⟩
  · exact readParallel_ok hvalid hworkers hinside hquiet reader.slab
  · exact read_slab hvalid hidle hread
  · exact wanted_inside (validate_ok hvalid).2 reader.slab
  · exact ⟨wanted_outside reads reader.slab hi, read_outside hidle hi, readParallel_outside hi⟩

/-- A file of five bytes that is read two bytes at a time. -/
def haltingFile : SourceFile where
  readAt offset count := .ok ((([1, 2, 3, 4, 5].drop offset).take count).take 2)
  short offset count bytes h := by
    cases h
    rw [List.length_take, List.length_take]
    omega

def haltingSource : FilePageSource := ⟨[haltingFile], [5], 2, rfl, Nat.two_pos⟩

/-- Two pages on two threads, the second of them first; and three operations, on the ring in two batches and on two
threads in turns. -/
theorem parallel_reads_agree_sample :
    haltingSource.readPages [⟨0, 0⟩, ⟨0, 4⟩] 4 (fun time => (1 - time, ())) = .ok [[1, 2, 3, 4], [5, 0, 0, 0]] ∧
    (∃ stats, (Uring.read smallConfig 0 threeReads lateKernel freshReader).2 = .ok stats) ∧
    (∃ stats, (readParallel smallConfig threeReads 2 (fun time => (time % 2, .ok 0)) freshReader.slab).2 = .ok stats) ∧
    (Uring.read smallConfig 0 threeReads lateKernel freshReader).1.slab =
      (readParallel smallConfig threeReads 2 (fun time => (time % 2, .ok 0)) freshReader.slab).1 ∧
    ((List.range 6).map (readParallel smallConfig threeReads 2 (fun time => (time % 2, .ok 0)) freshReader.slab).1) =
      [2, 3, 4, 5, 6, 1] := by
  obtain ⟨hpages, hslabs⟩ := parallel_reads_agree
  have hvalid : validate smallConfig.maxBatch smallConfig.bufferLen threeReads = .ok () := by decide
  obtain ⟨hring, hthreads, hread, hparallel, -⟩ :=
    hslabs smallConfig threeReads hvalid 0 lateKernel freshReader 2 (fun time => (time % 2, .ok 0)) rfl
  obtain ⟨stats, hok⟩ := hring (lateKernel_completes 0)
  obtain ⟨stats', hok'⟩ := hthreads (by decide) (by decide) nofun
  refine ⟨((hpages haltingSource [⟨0, 0⟩, ⟨0, 4⟩] 4 _).1 _).mpr rfl, ⟨stats, hok⟩, ⟨stats', hok'⟩,
    (hread stats hok).trans (hparallel stats' hok').symm, ?_⟩
  rw [hparallel stats' hok']
  rfl

end Spark.Ple
