import Spark.Lib.Threads
import Spark.Uring.Protocol

/-!
# Parallel positional reads

`read_parallel` cuts the operations of a batch into chunks, and one thread reads each chunk into the slab. The
destinations of a batch are apart, so it does not matter who is faster.

* **`Confined`** — the batch reader writes where its operations say.
* **`wanted`** — the slab with every destination read.
* **`read_slab`**, **`readParallel_slab`** — both ways to read leave it.
-/

namespace Spark.Uring

open scoped List

/-! ## Where the batch reader writes -/

/-- Everything the ring may still write belongs to the batch, and nothing else of the slab has changed. -/
structure Confined (reads : List FixedRead) (start : Mem UInt8) (reader : Reader) : Prop where
  ops : ∀ op ∈ reader.ring.queued ++ reader.ring.inFlight, op.read ∈ reads
  outside : ∀ i, (∀ read ∈ reads, read.covers i = false) → reader.slab i = start i

variable {reads : List FixedRead} {start : Mem UInt8} {reader : Reader}

theorem Confined.push (h : Confined reads start reader) {op : Op} (hop : op.read ∈ reads) :
    Confined reads start { reader with ring := reader.ring.push op } := by
  refine ⟨fun other hother => ?_, h.outside⟩
  simp only [AsyncRing.push, List.mem_append, List.mem_singleton] at hother
  rcases hother with (hqueued | rfl) | hflight
  · exact h.ops other (List.mem_append_left _ hqueued)
  · exact hop
  · exact h.ops other (List.mem_append_right _ hflight)

theorem Confined.submit (h : Confined reads start reader) (count : Nat) :
    Confined reads start { reader with ring := reader.ring.submit count } := by
  refine ⟨fun op hop => ?_, h.outside⟩
  simp only [AsyncRing.submit, List.mem_append] at hop
  rcases hop with hqueued | hflight | htaken
  · exact h.ops op (List.mem_append_left _ (List.mem_of_mem_drop hqueued))
  · exact h.ops op (List.mem_append_right _ hflight)
  · exact h.ops op (List.mem_append_left _ (List.mem_of_mem_take htaken))

theorem Confined.kernel (h : Confined reads start reader) (step : KernelStep) :
    Confined reads start (reader.kernel step) := by
  unfold Reader.kernel
  cases step with
  | transfer index junk =>
    simp only
    split
    · exact h
    · next op hop =>
      have hread := h.ops op (List.mem_append_right _ (List.mem_of_getElem? hop))
      exact ⟨h.ops, fun i hi => (Mem.scribble_clean _ _ (hi op.read hread)).trans (h.outside i hi)⟩
  | complete index result junk =>
    simp only
    split
    · exact h
    · next op hop =>
      have hread := h.ops op (List.mem_append_right _ (List.mem_of_getElem? hop))
      refine ⟨fun other hother => ?_, fun i hi => ?_⟩
      · simp only [AsyncRing.complete, hop, List.mem_append] at hother
        rcases hother with hqueued | hflight
        · exact h.ops other (List.mem_append_left _ hqueued)
        · exact h.ops other (List.mem_append_right _ (List.mem_of_mem_eraseIdx hflight))
      · have houtside := hi op.read hread
        simp only
        rw [Mem.write_outside _ (covers_transferred op.read result houtside), Mem.scribble_clean _ _ houtside]
        exact h.outside i hi

theorem Confined.kernelSteps (steps : List KernelStep) :
    ∀ {reader : Reader}, Confined reads start reader → Confined reads start (reader.kernelSteps steps) := by
  induction steps with
  | nil =>
    intro reader h
    exact h
  | cons step steps ih =>
    intro reader h
    exact ih (h.kernel step)

theorem Confined.pushAll (pushes : Nat → Bool) (ops : List Op) :
    ∀ {place : Nat} {reader : Reader}, Confined reads start reader → (∀ op ∈ ops, op.read ∈ reads) →
      Confined reads start (pushAll pushes place ops reader).1 := by
  induction ops with
  | nil =>
    intro place reader h _
    exact h
  | cons op ops ih =>
    intro place reader h hops
    obtain ⟨hop, hops⟩ := List.forall_mem_cons.mp hops
    unfold Uring.pushAll
    split
    · exact ih (h.push hop) hops
    · exact h

theorem Confined.drain {limit : Nat} (count : Nat) :
    ∀ {reader : Reader} {results : List Int}, Confined reads start reader →
      Confined reads start (drain limit count reader results).1 := by
  induction count with
  | zero =>
    intro reader results h
    exact h
  | succ count ih =>
    intro reader results h
    unfold Uring.drain
    split
    · exact h
    · next first ring hreap =>
      have hring : ring.queued = reader.ring.queued ∧ ring.inFlight = reader.ring.inFlight := by
        unfold AsyncRing.reap at hreap
        split at hreap
        · cases hreap
        · cases hreap
          exact ⟨rfl, rfl⟩
      have hconfined : Confined reads start { reader with ring := ring } := by
        refine ⟨fun op hop => h.ops op ?_, h.outside⟩
        simp only [hring.1, hring.2] at hop
        exact hop
      simp only
      split
      · exact hconfined
      · exact ih hconfined

theorem Confined.readBatch {limit : Nat} {ops : List Op} {answers : BatchAnswers} {results : List Int}
    (h : Confined reads start reader) (hops : ∀ op ∈ ops, op.read ∈ reads) :
    Confined reads start (readBatch limit ops answers reader results).1 := by
  have hpushed := @Confined.pushAll reads start answers.pushes ops 0 reader h hops
  unfold Uring.readBatch
  split
  · next after hpush =>
    rw [hpush] at hpushed
    exact hpushed
  · next after hpush =>
    rw [hpush] at hpushed
    have hturn := Confined.kernelSteps answers.kernel (hpushed.submit answers.taken)
    simp only
    split
    · exact hturn
    · exact hturn.drain ops.length

theorem Confined.readLoop {config : ReaderConfig} {limit : Nat} {answers : Nat → BatchAnswers} (fuel : Nat) :
    ∀ {round : Nat} {ops : List Op} {reader : Reader} {results : List Int}, Confined reads start reader →
      (∀ op ∈ ops, op.read ∈ reads) →
        Confined reads start (readLoop config limit answers fuel round ops reader results).1 := by
  induction fuel with
  | zero =>
    intro round ops reader results h _
    exact h
  | succ fuel ih =>
    intro round ops reader results h hops
    have hbatch := @Confined.readBatch reads start reader limit (ops.take config.queueDepth) (answers round) results h
      fun op hop => hops op (List.mem_of_mem_take hop)
    unfold Uring.readLoop
    split
    · exact h
    · split
      · next after error hrun =>
        rw [hrun] at hbatch
        exact hbatch
      · next after results' hrun =>
        rw [hrun] at hbatch
        exact ih hbatch fun op hop => hops op (List.mem_of_mem_drop hop)

/-- Clearing the destinations leaves the rest alone. -/
theorem clear_outside {i : Nat} (reads : List FixedRead) (slab : Mem UInt8)
    (houtside : ∀ read ∈ reads, read.covers i = false) :
    reads.foldl (fun slab read => slab.fill read.bufferOffset read.bytes 0) slab i = slab i := by
  induction reads generalizing slab with
  | nil => rfl
  | cons read reads ih =>
    obtain ⟨hread, hreads⟩ := List.forall_mem_cons.mp houtside
    rw [List.foldl_cons, ih _ hreads]
    refine Mem.fill_outside slab ?_
    simp only [FixedRead.covers, Bool.and_eq_false_iff, decide_eq_false_iff_not] at hread
    omega

/-- Whatever becomes of a call on an idle ring, what it leaves in the ring is its own, and so is what it has
written. -/
theorem read_confined {config : ReaderConfig} {call : Nat} {answers : Nat → BatchAnswers}
    (hidle : reader.ring = .idle) : Confined reads reader.slab (read config call reads answers reader).1 := by
  have hnothing : ∀ op ∈ reader.ring.queued ++ reader.ring.inFlight, op.read ∈ reads := by
    intro op hop
    simp only [hidle, AsyncRing.idle, List.append_nil] at hop
    cases hop
  have hstart : Confined reads reader.slab
      { reader with
        slab := reads.foldl (fun slab read => slab.fill read.bufferOffset read.bytes 0) reader.slab } :=
    ⟨hnothing, fun i hi => clear_outside reads reader.slab hi⟩
  have hops : ∀ op ∈ ownOps call reads, op.read ∈ reads := by
    intro op hop
    obtain ⟨entry, hentry, rfl⟩ := List.mem_map.mp hop
    exact List.fst_mem_of_mem_zipIdx hentry
  have hloop := @Confined.readLoop reads reader.slab config reads.length answers reads.length 0 (ownOps call reads) _
    (List.replicate reads.length noResult) hstart hops
  unfold read
  split
  · exact ⟨hnothing, fun _ _ => rfl⟩
  · split
    · exact ⟨hnothing, fun _ _ => rfl⟩
    · simp only
      split
      · next after error hrun =>
        rw [hrun] at hloop
        exact hloop
      · next after results batches hrun =>
        rw [hrun] at hloop
        exact hloop

/-- Whatever becomes of a call on an idle ring, it writes nothing but its destinations. -/
theorem read_outside {config : ReaderConfig} {call : Nat} {answers : Nat → BatchAnswers} (hidle : reader.ring = .idle)
    {i : Nat} (houtside : ∀ read ∈ reads, read.covers i = false) :
    (read config call reads answers reader).1.slab i = reader.slab i :=
  (read_confined hidle).outside i houtside

/-! ## The slab that is wanted -/

/-- The slab with the file bytes of every operation at its destination. -/
def wanted (reads : List FixedRead) (slab : Mem UInt8) : Mem UInt8 :=
  reads.foldl
    (fun slab read => slab.write read.bufferOffset (read.file.contents.slice read.fileOffset read.bytes)) slab

theorem wanted_outside {i : Nat} (reads : List FixedRead) (slab : Mem UInt8)
    (houtside : ∀ read ∈ reads, read.covers i = false) : wanted reads slab i = slab i := by
  induction reads generalizing slab with
  | nil => rfl
  | cons read reads ih =>
    obtain ⟨hread, hreads⟩ := List.forall_mem_cons.mp houtside
    refine (ih _ hreads).trans (Mem.write_outside slab ?_)
    simp only [FixedRead.covers, Bool.and_eq_false_iff, decide_eq_false_iff_not] at hread
    rw [Mem.length_slice]
    omega

theorem FixedRead.Apart.covers {a b : FixedRead} (h : a.Apart b) {i : Nat} (hi : i < a.bytes) :
    b.covers (a.bufferOffset + i) = false := by
  unfold FixedRead.Apart at h
  simp only [FixedRead.covers, Bool.and_eq_false_iff, decide_eq_false_iff_not]
  omega

/-- With the destinations apart, every one holds its own bytes. -/
theorem wanted_inside {reads : List FixedRead} (hapart : reads.Pairwise FixedRead.Apart) (slab : Mem UInt8) :
    ∀ read ∈ reads, ∀ i < read.bytes,
      wanted reads slab (read.bufferOffset + i) = read.file.contents (read.fileOffset + i) := by
  induction reads generalizing slab with
  | nil => simp
  | cons first reads ih =>
    obtain ⟨hfirst, hreads⟩ := List.pairwise_cons.mp hapart
    intro read hread i hi
    rcases List.mem_cons.mp hread with rfl | hread
    · refine (wanted_outside reads _ fun other hother => (hfirst other hother).covers hi).trans ?_
      exact Mem.write_inside slab (Mem.getElem?_slice _ hi)
    · exact ih hreads _ read hread i hi

/-- A slab that holds the bytes of every operation, and is otherwise what it was, is the wanted one. -/
theorem eq_wanted {reads : List FixedRead} {slab after : Mem UInt8} (hapart : reads.Pairwise FixedRead.Apart)
    (hinside : ∀ read ∈ reads, ∀ i < read.bytes,
      after (read.bufferOffset + i) = read.file.contents (read.fileOffset + i))
    (houtside : ∀ i, (∀ read ∈ reads, read.covers i = false) → after i = slab i) : after = wanted reads slab := by
  funext i
  by_cases hcovered : ∃ read ∈ reads, read.covers i = true
  · obtain ⟨read, hread, hcovers⟩ := hcovered
    simp only [FixedRead.covers, Bool.and_eq_true, decide_eq_true_eq] at hcovers
    obtain ⟨j, rfl⟩ : ∃ j, i = read.bufferOffset + j := ⟨i - read.bufferOffset, by omega⟩
    rw [hinside read hread j (by omega), wanted_inside hapart slab read hread j (by omega)]
  · have hnone : ∀ read ∈ reads, read.covers i = false := fun read hread => by
      by_contra hcovers
      exact hcovered ⟨read, hread, by simpa using hcovers⟩
    rw [houtside i hnone, wanted_outside reads slab hnone]

/-- A call on an idle ring that returns `Ok` leaves the wanted slab. -/
theorem read_slab {config : ReaderConfig} {call : Nat} {answers : Nat → BatchAnswers} {stats : FixedReadStats}
    (hvalid : validate config.maxBatch config.bufferLen reads = .ok ()) (hidle : reader.ring = .idle)
    (hok : (read config call reads answers reader).2 = .ok stats) :
    (read config call reads answers reader).1.slab = wanted reads reader.slab := by
  have hsound := read_sound hidle (Prod.ext rfl hok)
  exact eq_wanted (validate_ok hvalid).2 hsound.bytes fun i hi => read_outside hidle hi

/-! ## The threads -/

/-- A thread of `read_parallel`: the operations it has still to do, how far it is with the first of them, and what it
has counted. -/
structure ParallelWorker where
  todo : List FixedRead
  completed : Nat := 0
  operations : Nat := 0
  bytes : Nat := 0
  failed : Option IoError := none

/-- One `read_at`, or the end of one operation. The kernel answers with an error, or with the number of bytes it reads
at most, less one. -/
def ParallelWorker.step (answer : Except Int Nat) (worker : ParallelWorker) (slab : Mem UInt8) :
    ParallelWorker × Mem UInt8 :=
  match worker.todo with
  | [] => (worker, slab)
  | read :: todo =>
    if worker.completed < read.bytes then
      match answer with
      | .error code => ({ worker with failed := some (.rawOs code) }, slab)
      | .ok most =>
        let data := (read.file.readAt (read.fileOffset + worker.completed) (read.bytes - worker.completed)).take
          (most + 1)
        if data.length = 0 then
          ({ worker with
              failed := some (.unexpectedEof
                s!"short positional read at offset {read.fileOffset}: expected {read.bytes}, got {worker.completed}") },
            slab)
        else
          ({ worker with completed := worker.completed + data.length },
            slab.write (read.bufferOffset + worker.completed) data)
    else
      ({ worker with
          todo
          completed := 0
          operations := min (worker.operations + 1) (2 ^ 64 - 1)
          bytes := min (worker.bytes + read.bytes) (2 ^ 64 - 1) },
        slab)

def positionalReader : Threads.Program ParallelWorker (Mem UInt8) (Except Int Nat) where
  step := ParallelWorker.step
  finished worker := worker.failed.isSome || worker.todo.isEmpty

/-- What a thread returns. -/
def ParallelWorker.result (worker : ParallelWorker) : Except IoError (Nat × Nat) :=
  match worker.failed with
  | some error => .error error
  | none => .ok (worker.operations, worker.bytes)

/-- The steps that are left of an operation list. -/
def stepsOf (reads : List FixedRead) : Nat := (reads.map fun read => read.bytes + 1).sum

/-- The chunks of the operations. -/
def chunksOf (reads : List FixedRead) (workers : Nat) : List (List FixedRead) :=
  let workers := min workers reads.length
  let chunkSize := Threads.divCeil reads.length workers
  (List.range (Threads.divCeil reads.length chunkSize)).map fun chunk =>
    (reads.drop (chunk * chunkSize)).take chunkSize

/-- The threads from the first to the last step. The schedule says which of them is next and what the kernel answers
it. -/
def readThreads (reads : List FixedRead) (workers : Nat) (schedule : Nat → Nat × Except Int Nat) (slab : Mem UInt8) :
    List ParallelWorker × Mem UInt8 :=
  let cleared := reads.foldl (fun slab read => slab.fill read.bufferOffset read.bytes 0) slab
  Threads.run positionalReader schedule (stepsOf reads) 0 ((chunksOf reads workers).map fun chunk => { todo := chunk })
    cleared

/-- `read_parallel`. -/
def readParallel (config : ReaderConfig) (reads : List FixedRead) (workers : Nat)
    (schedule : Nat → Nat × Except Int Nat) (slab : Mem UInt8) : Mem UInt8 × Except IoError FixedReadStats :=
  if workers = 0 then (slab, .error (.invalidInput "parallel fixed-buffer workers must be non-zero"))
  else
    match validate config.maxBatch config.bufferLen reads with
    | .error error => (slab, .error error)
    | .ok () =>
      if reads = [] then (slab, .ok {})
      else
        let (threads, slab) := readThreads reads workers schedule slab
        match threads.mapM ParallelWorker.result with
        | .error error => (slab, .error error)
        | .ok results =>
          (slab, .ok (results.foldl (fun stats counted =>
            { stats with
              operations := min (stats.operations + counted.1) (2 ^ 64 - 1)
              bytes := min (stats.bytes + counted.2) (2 ^ 64 - 1) }) {}))

/-! ## What they leave -/

variable {goal slab slab' : Mem UInt8} {chunk : List FixedRead} {worker : ParallelWorker} {answer : Except Int Nat}

/-- A thread has put the bytes of what it has done into the slab. -/
structure Working (goal slab : Mem UInt8) (chunk : List FixedRead) (worker : ParallelWorker) : Prop where
  behind : ∃ past, chunk = past ++ worker.todo ∧
    ∀ read ∈ past, ∀ i < read.bytes, slab (read.bufferOffset + i) = goal (read.bufferOffset + i)
  ahead : ∀ read todo, worker.todo = read :: todo →
    worker.completed ≤ read.bytes ∧
      ∀ i < worker.completed, slab (read.bufferOffset + i) = goal (read.bufferOffset + i)

/-- Cells that are right stay right, whoever writes next. -/
theorem Working.mono (h : Working goal slab chunk worker) (hkept : ∀ i, slab i = goal i → slab' i = goal i) :
    Working goal slab' chunk worker := by
  obtain ⟨past, hchunk, hpast⟩ := h.behind
  refine ⟨⟨past, hchunk, fun read hread i hi => hkept _ (hpast read hread i hi)⟩, fun read todo htodo => ?_⟩
  obtain ⟨hcompleted, hread⟩ := h.ahead read todo htodo
  exact ⟨hcompleted, fun i hi => hkept _ (hread i hi)⟩

/-- Every cell is as it was, or it belongs to an operation and is right. -/
def Wrote (reads : List FixedRead) (goal slab slab' : Mem UInt8) : Prop :=
  ∀ i, slab' i = slab i ∨ (slab' i = goal i ∧ ∃ read ∈ reads, read.covers i = true)

theorem Wrote.kept (h : Wrote reads goal slab slab') {i : Nat} (hi : slab i = goal i) : slab' i = goal i := by
  rcases h i with hsame | ⟨hright, -⟩
  · exact hsame.trans hi
  · exact hright

theorem Wrote.outside (h : Wrote reads goal slab slab') {i : Nat} (hi : ∀ read ∈ reads, read.covers i = false) :
    slab' i = slab i := by
  rcases h i with hsame | ⟨-, read, hread, hcovers⟩
  · exact hsame
  · rw [hi read hread] at hcovers
    cases hcovers

/-- The bytes of a `read_at` are those of the file. -/
theorem getElem_readAt {read : FixedRead} {completed most i : Nat} {byte : UInt8}
    (h : ((read.file.readAt (read.fileOffset + completed) (read.bytes - completed)).take (most + 1))[i]? =
      some byte) :
    i < read.bytes - completed ∧ byte = read.file.contents (read.fileOffset + (completed + i)) := by
  have hi := (List.getElem?_eq_some_iff.mp h).1
  rw [List.length_take, OpenFile.readAt, List.length_take, List.length_drop] at hi
  have hinside : read.fileOffset + completed + i < read.file.size := by
    unfold OpenFile.size
    omega
  have hbyte := read.file.getElem?_readAt (by omega : i < read.bytes - completed) hinside
  rw [List.getElem?_take_of_lt (by omega), hbyte, Nat.add_assoc] at h
  exact ⟨by omega, (Option.some.inj h).symm⟩

/-- One step of one thread. The goal has the bytes of every operation. -/
theorem Working.step
    (hgoal : ∀ read ∈ reads, ∀ i < read.bytes,
      goal (read.bufferOffset + i) = read.file.contents (read.fileOffset + i))
    (hchunk : ∀ read ∈ chunk, read ∈ reads) (h : Working goal slab chunk worker) :
    Working goal (worker.step answer slab).2 chunk (worker.step answer slab).1 ∧
      Wrote reads goal slab (worker.step answer slab).2 := by
  obtain ⟨past, hsplit, hpast⟩ := h.behind
  have hquiet : Wrote reads goal slab slab := fun i => Or.inl rfl
  unfold ParallelWorker.step
  split
  · exact ⟨h, hquiet⟩
  · next read todo htodo =>
    obtain ⟨hcompleted, hread⟩ := h.ahead read todo htodo
    have hmem : read ∈ reads := hchunk read (by rw [hsplit, htodo]; simp)
    split
    · next hmore =>
      cases answer with
      | error code => exact ⟨⟨h.behind, h.ahead⟩, hquiet⟩
      | ok most =>
        simp only
        split
        · exact ⟨⟨h.behind, h.ahead⟩, hquiet⟩
        · generalize hdata : (read.file.readAt (read.fileOffset + worker.completed)
            (read.bytes - worker.completed)).take (most + 1) = data
          have hbyte : ∀ i byte, data[i]? = some byte →
              i < read.bytes - worker.completed ∧ byte = goal (read.bufferOffset + (worker.completed + i)) := by
            intro i byte hi
            rw [← hdata] at hi
            obtain ⟨hlt, rfl⟩ := getElem_readAt hi
            exact ⟨hlt, (hgoal read hmem _ (by omega)).symm⟩
          have hlength : worker.completed + data.length ≤ read.bytes := by
            rw [← hdata, List.length_take, OpenFile.readAt, List.length_take]
            omega
          -- the cells that are written, and the others
          have hcell : ∀ i < data.length,
              slab.write (read.bufferOffset + worker.completed) data (read.bufferOffset + (worker.completed + i)) =
                goal (read.bufferOffset + (worker.completed + i)) := by
            intro i hi
            rw [← Nat.add_assoc, Mem.write_inside slab (List.getElem?_eq_getElem hi), Nat.add_assoc]
            exact (hbyte i _ (List.getElem?_eq_getElem hi)).2
          have hwrote : Wrote reads goal slab (slab.write (read.bufferOffset + worker.completed) data) := by
            intro i
            by_cases hi : read.bufferOffset + worker.completed ≤ i ∧
                i < read.bufferOffset + worker.completed + data.length
            · obtain ⟨j, rfl⟩ : ∃ j, i = read.bufferOffset + (worker.completed + j) :=
                ⟨i - (read.bufferOffset + worker.completed), by omega⟩
              refine Or.inr ⟨hcell j (by omega), read, hmem, ?_⟩
              simp only [FixedRead.covers, Bool.and_eq_true, decide_eq_true_eq]
              omega
            · exact Or.inl (Mem.write_outside slab (by omega))
          have hkept := h.mono fun i hi => hwrote.kept hi
          refine ⟨⟨hkept.behind, fun other rest hother => ?_⟩, hwrote⟩
          obtain ⟨rfl, rfl⟩ := List.cons.inj (htodo.symm.trans hother)
          refine ⟨hlength, fun i hi => ?_⟩
          by_cases hold : i < worker.completed
          · exact (hkept.ahead read todo htodo).2 i hold
          · obtain ⟨j, rfl⟩ : ∃ j, i = worker.completed + j := ⟨i - worker.completed, by omega⟩
            exact hcell j (by simp only at hi; omega)
    · next hdone =>
      -- the operation is done: its bytes are among those behind
      refine ⟨⟨⟨past ++ [read], ?_, fun other hother i hi => ?_⟩, fun other rest _ => ⟨Nat.zero_le _, ?_⟩⟩, hquiet⟩
      · rw [hsplit, htodo, List.append_assoc]
        rfl
      · rcases List.mem_append.mp hother with hother | hother
        · exact hpast other hother i hi
        · cases List.mem_singleton.mp hother
          exact hread i (by omega)
      · exact fun i hi => absurd hi (Nat.not_lt_zero i)

theorem forall₂_set {α β : Type} {R : α → β → Prop} {xs : List α} {ys : List β} (h : List.Forall₂ R xs ys) {i : Nat}
    {y : β} (hy : ∀ x, xs[i]? = some x → R x y) : List.Forall₂ R xs (ys.set i y) := by
  induction h generalizing i with
  | nil => exact List.Forall₂.nil
  | cons hhead htail ih =>
    cases i with
    | zero => exact .cons (hy _ rfl) htail
    | succ i => exact .cons hhead (ih fun x hx => hy x hx)

/-- What all the threads keep. -/
structure AllWorking (reads : List FixedRead) (goal start : Mem UInt8) (chunks : List (List FixedRead))
    (threads : List ParallelWorker) (slab : Mem UInt8) : Prop where
  working : List.Forall₂ (Working goal slab) chunks threads
  outside : ∀ i, (∀ read ∈ reads, read.covers i = false) → slab i = start i

variable {start : Mem UInt8} {chunks : List (List FixedRead)} {threads : List ParallelWorker}

theorem AllWorking.turn
    (hgoal : ∀ read ∈ reads, ∀ i < read.bytes,
      goal (read.bufferOffset + i) = read.file.contents (read.fileOffset + i))
    (hchunks : ∀ chunk ∈ chunks, ∀ read ∈ chunk, read ∈ reads) (h : AllWorking reads goal start chunks threads slab)
    {i : Nat} (hworker : threads[i]? = some worker) :
    AllWorking reads goal start chunks (threads.set i (worker.step answer slab).1) (worker.step answer slab).2 := by
  obtain ⟨hlt, rfl⟩ := List.getElem?_eq_some_iff.mp hworker
  have hchunk : i < chunks.length := h.working.length_eq ▸ hlt
  obtain ⟨hstep, hwrote⟩ : Working goal (threads[i].step answer slab).2 chunks[i] (threads[i].step answer slab).1 ∧
      Wrote reads goal slab (threads[i].step answer slab).2 :=
    Working.step hgoal (hchunks chunks[i] (List.getElem_mem hchunk)) (h.working.get hchunk hlt)
  refine ⟨forall₂_set (h.working.imp fun chunk other hother => hother.mono fun i hi => hwrote.kept hi) ?_, ?_⟩
  · intro chunk hget
    rw [List.getElem?_eq_getElem hchunk] at hget
    cases hget
    exact hstep
  · exact fun i hi => (hwrote.outside hi).trans (h.outside i hi)

/-! ## The end of the run -/

/-- The steps a thread has still to take, if none fails. -/
def ParallelWorker.left (worker : ParallelWorker) : Nat :=
  match worker.failed, worker.todo with
  | none, read :: todo => read.bytes - worker.completed + 1 + stepsOf todo
  | _, _ => 0

theorem left_start (chunk : List FixedRead) : ParallelWorker.left { todo := chunk } = stepsOf chunk := by
  cases chunk with
  | nil => rfl
  | cons read todo =>
    show read.bytes - 0 + 1 + stepsOf todo = stepsOf (read :: todo)
    simp [stepsOf]

theorem left_step (answer : Except Int Nat) (worker : ParallelWorker) (slab : Mem UInt8)
    (hlive : positionalReader.finished worker = false) : (worker.step answer slab).1.left < worker.left := by
  obtain ⟨todo, completed, operations, bytes, failed⟩ := worker
  cases failed with
  | some error => cases hlive
  | none =>
    cases todo with
    | nil => cases hlive
    | cons read todo =>
      show (ParallelWorker.step answer _ slab).1.left < read.bytes - completed + 1 + stepsOf todo
      unfold ParallelWorker.step
      simp only
      split
      · next hmore =>
        cases answer with
        | error code =>
          show 0 < _
          omega
        | ok most =>
          simp only
          split
          · show 0 < _
            omega
          · next hdata =>
            show read.bytes - (completed + _) + 1 + stepsOf todo < _
            omega
      · have hstart := left_start todo
        unfold ParallelWorker.left at hstart ⊢
        simp only at hstart ⊢
        omega

theorem sum_left (chunks : List (List FixedRead)) :
    ((chunks.map fun chunk => ({ todo := chunk } : ParallelWorker)).map ParallelWorker.left).sum =
      stepsOf chunks.flatten := by
  induction chunks with
  | nil => rfl
  | cons chunk chunks ih =>
    simp only [List.map_cons, List.sum_cons, ih, left_start]
    simp [stepsOf]

/-- A thread that ends without an error has put all its bytes into the slab. -/
theorem Working.finished (h : Working goal slab chunk worker) (hfinished : positionalReader.finished worker = true)
    {counted : Nat × Nat} (hresult : worker.result = .ok counted) :
    ∀ read ∈ chunk, ∀ i < read.bytes, slab (read.bufferOffset + i) = goal (read.bufferOffset + i) := by
  obtain ⟨past, hsplit, hpast⟩ := h.behind
  have htodo : worker.todo = [] := by
    unfold ParallelWorker.result at hresult
    split at hresult
    · cases hresult
    · next hfailed =>
      simpa [positionalReader, hfailed] using hfinished
  rw [htodo, List.append_nil] at hsplit
  subst hsplit
  exact hpast

theorem flatten_chunksOf {workers : Nat} (hworkers : workers ≠ 0) (hreads : reads ≠ []) :
    (chunksOf reads workers).flatten = reads := by
  have hlength := List.length_pos_iff.mpr hreads
  rw [chunksOf, ← List.flatMap_def]
  exact Threads.flatMap_chunks reads (Threads.divCeil_pos hlength (by omega))

/-- The threads with their slab at the end. -/
theorem readThreads_working (hapart : reads.Pairwise FixedRead.Apart) {workers : Nat} (hworkers : workers ≠ 0)
    (hreads : reads ≠ []) (schedule : Nat → Nat × Except Int Nat) (slab : Mem UInt8) :
    AllWorking reads (wanted reads slab) slab (chunksOf reads workers) (readThreads reads workers schedule slab).1
      (readThreads reads workers schedule slab).2 := by
  have hflatten := flatten_chunksOf hworkers hreads
  have hchunks : ∀ chunk ∈ chunksOf reads workers, ∀ read ∈ chunk, read ∈ reads := by
    intro chunk hchunk read hread
    rw [← hflatten]
    exact List.mem_flatten_of_mem hchunk hread
  refine Threads.run_induction ⟨?_, fun i hi => clear_outside reads slab hi⟩
    (fun threads slab' i worker time h hworker _ => h.turn (wanted_inside hapart slab) hchunks hworker) _ 0
  -- no thread has done anything
  rw [List.forall₂_map_right_iff]
  refine List.forall₂_same.mpr fun chunk _ => ⟨⟨[], rfl, nofun⟩, fun read todo _ => ⟨Nat.zero_le _, nofun⟩⟩

theorem readThreads_finished {workers : Nat} (hworkers : workers ≠ 0) (hreads : reads ≠ [])
    (schedule : Nat → Nat × Except Int Nat) (slab : Mem UInt8) :
    ∀ worker ∈ (readThreads reads workers schedule slab).1, positionalReader.finished worker = true := by
  refine Threads.run_finished (μ := ParallelWorker.left) left_step schedule 0 ?_ _
  rw [sum_left, flatten_chunksOf hworkers hreads]

/-- Whatever becomes of the threads, they write nothing but their destinations. -/
theorem readParallel_outside {config : ReaderConfig} {workers : Nat} {schedule : Nat → Nat × Except Int Nat} {i : Nat}
    (houtside : ∀ read ∈ reads, read.covers i = false) :
    (readParallel config reads workers schedule slab).1 i = slab i := by
  unfold readParallel
  split
  · rfl
  · next hworkers =>
    split
    · rfl
    · next hvalid =>
      split
      · rfl
      · next hreads =>
        have hend := (readThreads_working (validate_ok hvalid).2 hworkers hreads schedule slab).outside i houtside
        simp only
        split
        · exact hend
        · exact hend

/-- Threads that return `Ok` had operations that are apart. -/
theorem readParallel_apart {config : ReaderConfig} {workers : Nat} {schedule : Nat → Nat × Except Int Nat}
    {stats : FixedReadStats} (hok : (readParallel config reads workers schedule slab).2 = .ok stats) :
    reads.Pairwise FixedRead.Apart := by
  unfold readParallel at hok
  split at hok
  · cases hok
  split at hok
  · cases hok
  next hvalid => exact (validate_ok hvalid).2

/-- Threads that return `Ok` leave the wanted slab. -/
theorem readParallel_slab {config : ReaderConfig} {workers : Nat} {schedule : Nat → Nat × Except Int Nat}
    {stats : FixedReadStats} (hok : (readParallel config reads workers schedule slab).2 = .ok stats) :
    (readParallel config reads workers schedule slab).1 = wanted reads slab := by
  have houtside := fun i => @readParallel_outside reads slab config workers schedule i
  unfold readParallel at hok houtside ⊢
  split at hok
  · cases hok
  · next hworkers =>
    rw [if_neg hworkers] at houtside ⊢
    split at hok
    · cases hok
    · next hvalid =>
      simp only [hvalid] at houtside ⊢
      split at hok
      · next hnil =>
        rw [if_pos hnil, hnil]
        rfl
      · next hreads =>
        have hapart := (validate_ok hvalid).2
        have hworking := (readThreads_working hapart hworkers hreads schedule slab).working
        have hfinished := readThreads_finished hworkers hreads schedule slab
        simp only [if_neg hreads] at hok houtside ⊢
        split at hok
        · cases hok
        · next results hresults =>
          simp only [hresults] at houtside ⊢
          refine eq_wanted hapart (fun read hread i hi => ?_) houtside
          rw [← wanted_inside hapart slab read hread i hi]
          -- the thread that has the operation
          have hmem := hread
          rw [← flatten_chunksOf hworkers hreads] at hmem
          obtain ⟨chunk, hchunk, hin⟩ := List.mem_flatten.mp hmem
          obtain ⟨worker, hworker, hpart⟩ := Traverse.forall₂_exists_right hworking hchunk
          obtain ⟨counted, -, hcounted⟩ := Traverse.forall₂_exists_right (Traverse.mapM_ok_iff.mp hresults) hworker
          exact hpart.finished (hfinished worker hworker) hcounted read hin i hi

/-- A thread that has not failed, with operations that are inside their files. -/
structure Healthy (worker : ParallelWorker) : Prop where
  failed : worker.failed = none
  inside : ∀ read ∈ worker.todo, read.fileOffset + read.bytes ≤ read.file.size

/-- Without an error from the kernel a thread does not fail. -/
theorem Healthy.step (h : Healthy worker) (hanswer : ∀ code, answer ≠ .error code) (slab : Mem UInt8) :
    Healthy (worker.step answer slab).1 := by
  unfold ParallelWorker.step
  split
  · exact h
  · next read todo htodo =>
    have hread : read.fileOffset + read.bytes ≤ read.file.size := h.inside read (by rw [htodo]; exact List.mem_cons_self)
    split
    · next hmore =>
      cases answer with
      | error code => exact absurd rfl (hanswer code)
      | ok most =>
        simp only
        split
        · next hempty =>
          -- there are bytes left in the file
          rw [List.length_take, OpenFile.readAt, List.length_take, List.length_drop] at hempty
          unfold OpenFile.size at hread
          omega
        · exact ⟨h.failed, h.inside⟩
    · refine ⟨h.failed, fun other hother => h.inside other ?_⟩
      rw [htodo]
      exact List.mem_cons_of_mem read hother

/-- With the operations inside their files and no error from the kernel no thread fails. -/
theorem readParallel_ok {config : ReaderConfig} {workers : Nat} {schedule : Nat → Nat × Except Int Nat}
    (hvalid : validate config.maxBatch config.bufferLen reads = .ok ()) (hworkers : workers ≠ 0)
    (hinside : ∀ read ∈ reads, read.fileOffset + read.bytes ≤ read.file.size)
    (hquiet : ∀ time code, (schedule time).2 ≠ .error code) (slab : Mem UInt8) :
    ∃ stats, (readParallel config reads workers schedule slab).2 = .ok stats := by
  unfold readParallel
  rw [if_neg hworkers, hvalid]
  simp only
  split
  · exact ⟨_, rfl⟩
  · next hreads =>
    have hhealthy : ∀ worker ∈ (readThreads reads workers schedule slab).1, Healthy worker := by
      refine Threads.run_induction (P := fun threads _ => ∀ worker ∈ threads, Healthy worker) ?_
        (fun threads slab i worker time h hworker _ other hother => ?_) _ 0
      · intro worker hworker
        obtain ⟨chunk, hchunk, rfl⟩ := List.mem_map.mp hworker
        refine ⟨rfl, fun read hread => hinside read ?_⟩
        rw [← flatten_chunksOf hworkers hreads]
        exact List.mem_flatten_of_mem hchunk hread
      · rcases List.mem_or_eq_of_mem_set hother with hother | rfl
        · exact h other hother
        · exact (h worker (List.mem_of_getElem? hworker)).step (hquiet time) slab
    have hresult : ∀ worker ∈ (readThreads reads workers schedule slab).1, ∃ counted, worker.result = .ok counted := by
      intro worker hworker
      exact ⟨(worker.operations, worker.bytes), by rw [ParallelWorker.result, (hhealthy worker hworker).failed]⟩
    obtain ⟨results, hresults⟩ := Traverse.exists_mapM_ok hresult
    rw [hresults]
    exact ⟨_, rfl⟩

end Spark.Uring
