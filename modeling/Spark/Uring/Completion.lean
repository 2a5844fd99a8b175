import Spark.Uring.Parallel

/-!
# Reads that the kernel completes

`read_sound` says what an `Ok` of the batch reader is worth. This module says when there is one: on an idle ring,
when every push fits, the kernel takes what is submitted and finishes each operation with all its bytes, in any
order, and the waits return.

* **`finishes`** — the kernel steps that complete everything in flight.
* **`readBatch_completes`** — a batch is reaped whole, in whatever order it was finished.
* **`read_completes`** — the call returns `Ok`.
-/

namespace Spark.Uring

open scoped List

/-- The kernel finishes every operation in flight with all its bytes. What it moves before that is free. -/
def finishes : List Op → List KernelStep → Bool
  | inFlight, [] => inFlight.isEmpty
  | inFlight, .transfer _ _ :: steps => finishes inFlight steps
  | inFlight, .complete index result _ :: steps =>
    match inFlight[index]? with
    | none => finishes inFlight steps
    | some op => result == (op.read.bytes : Int) && finishes (inFlight.eraseIdx index) steps

/-- The answers to a batch of `ops` when nothing fails. -/
structure BatchAnswers.Completes (answers : BatchAnswers) (ops : List Op) : Prop where
  pushed : ∀ place < ops.length, answers.pushes place = true
  taken : ops.length ≤ answers.taken
  finished : finishes ops answers.kernel = true
  waited : answers.wait = none

/-- The operations of one batch of a call. -/
def batchOps (config : ReaderConfig) (call : Nat) (reads : List FixedRead) (round : Nat) : List Op :=
  ((ownOps call reads).drop (round * config.queueDepth)).take config.queueDepth

/-- The answers to a call when nothing fails. -/
def Completes (config : ReaderConfig) (call : Nat) (reads : List FixedRead) (answers : Nat → BatchAnswers) : Prop :=
  ∀ round, round * config.queueDepth < reads.length → (answers round).Completes (batchOps config call reads round)

/-- The completions of some operations, all of them full, in any order. -/
structure Fulfils (ops : List Op) (completions : List (Op × Int)) : Prop where
  each : completions.map Prod.fst ~ ops
  full : ∀ entry ∈ completions, entry.2 = (entry.1.read.bytes : Int)

theorem Fulfils.append {ops ops' : List Op} {completions completions' : List (Op × Int)}
    (h : Fulfils ops completions) (h' : Fulfils ops' completions') :
    Fulfils (ops ++ ops') (completions ++ completions') where
  each := by
    rw [List.map_append]
    exact h.each.append h'.each
  full := List.forall_mem_append.mpr ⟨h.full, h'.full⟩

/-! ## One batch -/

/-- What is in flight when the kernel starts is done when it ends, each with all its bytes. -/
theorem kernelSteps_finishes (steps : List KernelStep) :
    ∀ {reader : Reader} {inFlight : List Op} {done : List (Op × Int)}, reader.ring = ⟨[], inFlight, done⟩ →
      finishes inFlight steps = true →
      ∃ more, (reader.kernelSteps steps).ring = ⟨[], [], done ++ more⟩ ∧ Fulfils inFlight more := by
  induction steps with
  | nil =>
    intro reader inFlight done hring hfinishes
    have hnone : inFlight = [] := List.isEmpty_iff.mp hfinishes
    subst hnone
    exact ⟨[], by rw [List.append_nil]; exact hring, List.Perm.nil, nofun⟩
  | cons step steps ih =>
    intro reader inFlight done hring hfinishes
    -- a step on nothing leaves the reader as it is
    have hnothing (hsame : reader.kernel step = reader) (hrest : finishes inFlight steps = true) :
        ∃ more, (reader.kernelSteps (step :: steps)).ring = ⟨[], [], done ++ more⟩ ∧ Fulfils inFlight more := by
      rw [Reader.kernelSteps, List.foldl_cons, hsame]
      exact ih hring hrest
    cases step with
    | transfer index junk =>
      have hsame : (reader.kernel (.transfer index junk)).ring = reader.ring := by
        unfold Reader.kernel
        simp only
        split <;> rfl
      exact ih (hsame.trans hring) hfinishes
    | complete index result junk =>
      rw [finishes] at hfinishes
      cases hop : inFlight[index]? with
      | none =>
        rw [hop] at hfinishes
        refine hnothing ?_ hfinishes
        unfold Reader.kernel
        rw [hring]
        simp only [hop]
      | some op =>
        rw [hop] at hfinishes
        simp only [Bool.and_eq_true, beq_iff_eq] at hfinishes
        obtain ⟨hfull, hrest⟩ := hfinishes
        have hafter : (reader.kernel (.complete index result junk)).ring =
            ⟨[], inFlight.eraseIdx index, done ++ [(op, result)]⟩ := by
          unfold Reader.kernel
          rw [hring]
          simp only [hop, AsyncRing.complete]
        obtain ⟨more, hend, hmore⟩ := ih hafter hrest
        refine ⟨(op, result) :: more, by rw [List.append_assoc] at hend; exact hend, ?_, ?_⟩
        · obtain ⟨hlt, hget⟩ := List.getElem?_eq_some_iff.mp hop
          refine (hmore.each.cons op).trans ?_
          rw [← hget]
          exact List.getElem_cons_eraseIdx_perm hlt
        · exact List.forall_mem_cons.mpr ⟨hfull, hmore.full⟩

theorem pushAll_completes (pushes : Nat → Bool) (ops : List Op) :
    ∀ {place : Nat} {reader : Reader}, (∀ i < ops.length, pushes (place + i) = true) →
      pushAll pushes place ops reader =
        ({ reader with ring := { reader.ring with queued := reader.ring.queued ++ ops } }, true) := by
  induction ops with
  | nil =>
    intro place reader _
    rw [List.append_nil]
    rfl
  | cons op ops ih =>
    intro place reader hpushes
    have hfirst : pushes place = true := hpushes 0 (Nat.succ_pos _)
    rw [pushAll, if_pos hfirst, ih fun i hi => ?_]
    · simp only [AsyncRing.push, List.append_assoc, List.singleton_append]
    · have hnext := hpushes (i + 1) (Nat.succ_lt_succ hi)
      rwa [Nat.add_assoc, Nat.add_comm 1 i]

/-- The numbers of the operations are places of the results. -/
def Numbered (limit : Nat) (ops : List Op) : Prop := ∀ op ∈ ops, 0 < op.userData ∧ op.userData ≤ limit

theorem drain_completes {limit : Nat} (completions : List (Op × Int)) :
    ∀ {reader : Reader} {results : List Int}, reader.ring = ⟨[], [], completions⟩ →
      Numbered limit (completions.map Prod.fst) →
      ∃ after, drain limit completions.length reader results = (after, .ok (enter results completions)) ∧
        after.ring = .idle := by
  induction completions with
  | nil =>
    intro reader results hring _
    exact ⟨reader, rfl, hring⟩
  | cons first completions ih =>
    intro reader results hring hnumbered
    obtain ⟨hfirst, hrest⟩ := List.forall_mem_cons.mp hnumbered
    have hreap : reader.ring.reap = some (first, ⟨[], [], completions⟩) := by
      rw [hring]
      rfl
    rw [List.length_cons, drain, hreap]
    simp only
    rw [if_neg (by omega)]
    exact ih rfl hrest

/-- A batch on an idle ring that is completed is reaped whole. -/
theorem readBatch_completes {limit : Nat} {ops : List Op} {answers : BatchAnswers} {reader : Reader}
    {results : List Int} (hidle : reader.ring = .idle) (h : answers.Completes ops) (hnumbered : Numbered limit ops) :
    ∃ after completions, readBatch limit ops answers reader results = (after, .ok (enter results completions)) ∧
      after.ring = .idle ∧ Fulfils ops completions := by
  have hpush := @pushAll_completes answers.pushes ops 0 reader fun i hi => by
    rw [Nat.zero_add]
    exact h.pushed i hi
  have hsubmitted : ({ reader with
      ring := { reader.ring with queued := reader.ring.queued ++ ops } } : Reader).ring.submit answers.taken =
      ⟨[], ops, []⟩ := by
    rw [hidle]
    simp only [AsyncRing.submit, AsyncRing.idle, List.nil_append, List.drop_of_length_le h.taken,
      List.take_of_length_le h.taken]
  obtain ⟨completions, hdone, hfulfils⟩ := @kernelSteps_finishes answers.kernel
    { reader with ring := ⟨[], ops, []⟩ } ops [] rfl h.finished
  rw [List.nil_append] at hdone
  have hplaces : Numbered limit (completions.map Prod.fst) :=
    fun op hop => hnumbered op (hfulfils.each.mem_iff.mp hop)
  obtain ⟨after, hdrain, hend⟩ := @drain_completes limit completions _ results hdone hplaces
  refine ⟨after, completions, ?_, hend, hfulfils⟩
  have hcount : completions.length = ops.length := by
    rw [← hfulfils.each.length_eq, List.length_map]
  rw [readBatch, hpush]
  simp only
  rw [hsubmitted, h.waited, ← hcount]
  exact hdrain

/-! ## A call -/

theorem readLoop_completes {config : ReaderConfig} {limit : Nat} {answers : Nat → BatchAnswers} (fuel : Nat) :
    ∀ {round : Nat} {ops : List Op} {reader : Reader} {results : List Int}, ops.length ≤ fuel →
      reader.ring = .idle → Numbered limit ops →
      (∀ k, k * config.queueDepth < ops.length →
        (answers (round + k)).Completes ((ops.drop (k * config.queueDepth)).take config.queueDepth)) →
      ∃ after batches completions,
        readLoop config limit answers fuel round ops reader results =
          (after, .ok (enter results completions, batches)) ∧
        Fulfils ops completions := by
  induction fuel with
  | zero =>
    intro round ops reader results hfuel _ _ _
    have hnil : ops = [] := List.length_eq_zero_iff.mp (by omega)
    subst hnil
    exact ⟨reader, round, [], rfl, List.Perm.nil, nofun⟩
  | succ fuel ih =>
    intro round ops reader results hfuel hidle hnumbered hcompletes
    by_cases hnil : ops = []
    · subst hnil
      exact ⟨reader, round, [], rfl, List.Perm.nil, nofun⟩
    · have hpos := List.length_pos_iff.mpr hnil
      have hdepth := config.depth_pos
      have hfirst := hcompletes 0 (by omega)
      rw [Nat.zero_mul, List.drop_zero, Nat.add_zero] at hfirst
      obtain ⟨middle, some, hbatch, hstill, hsome⟩ := @readBatch_completes limit _ _ _ results hidle hfirst
        fun op hop => hnumbered op (List.mem_of_mem_take hop)
      obtain ⟨after, batches, more, hloop, hmore⟩ := @ih (round + 1) (ops.drop config.queueDepth) middle
        (enter results some) (by rw [List.length_drop]; omega) hstill
        (fun op hop => hnumbered op (List.mem_of_mem_drop hop)) fun k hk => by
          rw [List.length_drop] at hk
          have hlater := hcompletes (k + 1) (by rw [Nat.add_mul]; omega)
          rwa [List.drop_drop, Nat.add_assoc, Nat.add_comm 1 k, Nat.add_comm config.queueDepth,
            show k * config.queueDepth + config.queueDepth = (k + 1) * config.queueDepth from by
              rw [Nat.add_mul, Nat.one_mul]]
      refine ⟨after, batches, some ++ more, ?_, ?_⟩
      · rw [readLoop, if_neg hnil, hbatch]
        simp only
        rw [hloop, enter, enter, enter, List.foldl_append]
      · have hboth := hsome.append hmore
        rwa [List.take_append_drop] at hboth

/-- Results that are the lengths asked for pass. -/
theorem checkResults_full (reads : List FixedRead) :
    ∀ {results : List Int} {stats : FixedReadStats},
      (∀ (i : Nat) (read : FixedRead), reads[i]? = some read → results[i]? = some (read.bytes : Int)) →
      ∃ final, checkResults reads results stats = .ok final := by
  induction reads with
  | nil =>
    intro results stats _
    exact ⟨stats, rfl⟩
  | cons read reads ih =>
    intro results stats hall
    have hfirst := hall 0 read rfl
    cases results with
    | nil => cases hfirst
    | cons result results =>
      cases hfirst
      rw [checkResults, if_neg (by omega), if_neg (by simp)]
      exact ih fun i other hother => hall (i + 1) other hother

theorem ownOps_numbered (call : Nat) (reads : List FixedRead) : Numbered reads.length (ownOps call reads) := by
  intro op hop
  obtain ⟨entry, hentry, rfl⟩ := List.mem_map.mp hop
  have hplace := List.snd_lt_of_mem_zipIdx hentry
  simp only at hplace ⊢
  omega

/-- The results of a call whose operations were all completed. -/
theorem enter_fulfils {call : Nat} {reads : List FixedRead} {completions : List (Op × Int)}
    (h : Fulfils (ownOps call reads) completions) {i : Nat} {read : FixedRead} (hread : reads[i]? = some read) :
    (enter (List.replicate reads.length noResult) completions)[i]? = some (read.bytes : Int) := by
  have hplaces : (completions.map fun entry => entry.1.userData - 1) ~ List.range reads.length := by
    rw [← ownOps_places call reads]
    simpa [Function.comp_def] using h.each.map fun op => op.userData - 1
  have hop : (⟨read, i + 1, call⟩ : Op) ∈ ownOps call reads := by
    refine List.mem_of_getElem? (show (ownOps call reads)[i]? = _ from ?_)
    rw [ownOps_getElem?, hread]
    rfl
  obtain ⟨⟨op, result⟩, hentry, hsame⟩ := List.mem_map.mp (h.each.mem_iff.mpr hop)
  simp only at hsame
  have hown := enter_own completions (List.replicate reads.length noResult) (hplaces.nodup_iff.mpr List.nodup_range)
    (fun entry hentry => by
      rw [List.length_replicate]
      exact List.mem_range.mp (hplaces.mem_iff.mp (List.mem_map_of_mem hentry)))
  have hfull : result = (op.read.bytes : Int) := h.full _ hentry
  have hresult := hown _ hentry
  simp only at hresult
  rwa [hfull, hsame, Nat.add_sub_cancel] at hresult

/-- **A call that is completed returns `Ok`.** Whatever else stands in the slab, and in whatever order the kernel
finishes the operations of a batch. -/
theorem read_completes {config : ReaderConfig} {call : Nat} {reads : List FixedRead} {answers : Nat → BatchAnswers}
    {reader : Reader} (hvalid : validate config.maxBatch config.bufferLen reads = .ok ())
    (hidle : reader.ring = .idle) (h : Completes config call reads answers) :
    ∃ stats, (read config call reads answers reader).2 = .ok stats := by
  unfold read
  rw [hvalid]
  simp only
  split
  · exact ⟨_, rfl⟩
  · have hlength : (ownOps call reads).length = reads.length := by simp [ownOps]
    obtain ⟨after, batches, completions, hloop, hfulfils⟩ := @readLoop_completes config reads.length answers
      reads.length 0 (ownOps call reads)
      { reader with slab := reads.foldl (fun slab read => slab.fill read.bufferOffset read.bytes 0) reader.slab }
      (List.replicate reads.length noResult) (Nat.le_of_eq hlength) hidle (ownOps_numbered call reads) fun k hk => by
        rw [Nat.zero_add]
        exact h k (by rwa [hlength] at hk)
    simp only [hloop]
    exact checkResults_full reads fun i read hread => enter_fulfils hfulfils hread

/-- The kernel of the three operations fails nowhere. -/
theorem lateKernel_completes (call : Nat) : Completes smallConfig call threeReads lateKernel := by
  intro round hround
  rcases round with _ | _ | round
  · exact ⟨fun _ _ => rfl, Nat.le_refl 2, rfl, rfl⟩
  · exact ⟨fun _ _ => rfl, Nat.le_refl 1, rfl, rfl⟩
  · have htwo : (round + 1 + 1) * 2 < 3 := hround
    omega

end Spark.Uring
