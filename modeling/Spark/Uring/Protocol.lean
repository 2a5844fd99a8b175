import Spark.Uring.Reader

/-!
# The ring protocol of the batch reader

Completions are matched to operations by a number that starts over with every call, and the ring
outlives a call that breaks off. So a call can be trusted when it starts on an idle ring: then
everything the ring ever hands back to it is its own.

* **`Progress`** — what is pushed is held or reaped, and what is finished has landed in the slab.
* **`readLoop_progress`** — kept by every batch, whatever the kernel does.
* **`readAll_sound`** — the calls of a reader that find the ring idle.
* **`broken_call_answers_next`** — a call that does not.
-/

namespace Spark.Uring

open scoped List

/-- A completion that reports all its bytes has put them into the slab. -/
def Landed (slab : Mem UInt8) (completion : Op × Int) : Prop :=
  completion.2 = completion.1.read.bytes →
    ∀ i < completion.1.read.bytes,
      slab (completion.1.read.bufferOffset + i) =
        completion.1.read.file.contents (completion.1.read.fileOffset + i)

def Op.Apart (a b : Op) : Prop := a.read.Apart b.read

theorem Op.Apart.symm {a b : Op} (h : a.Apart b) : b.Apart a := Or.symm h

/-- `pushed` is everything pushed so far, `reaped` what was handed back. -/
structure Progress (reader : Reader) (reaped : List (Op × Int)) (pushed : List Op) : Prop where
  held : reader.ring.held ++ reaped.map Prod.fst ~ pushed
  landed : ∀ completion ∈ reader.ring.done ++ reaped, Landed reader.slab completion
  logged : ∀ completion ∈ reader.ring.done ++ reaped, completion ∈ reader.log

/-! ## One step of either side -/

theorem Progress.push {reader : Reader} {reaped : List (Op × Int)} {pushed : List Op}
    (h : Progress reader reaped pushed) (op : Op) :
    Progress { reader with ring := reader.ring.push op } reaped (op :: pushed) where
  held := ((reader.ring.held_push op).append_right _).trans (h.held.cons op)
  landed := h.landed
  logged := h.logged

theorem Progress.submit {reader : Reader} {reaped : List (Op × Int)} {pushed : List Op}
    (h : Progress reader reaped pushed) (count : Nat) :
    Progress { reader with ring := reader.ring.submit count } reaped pushed where
  held := ((reader.ring.held_submit count).append_right _).trans h.held
  landed := h.landed
  logged := h.logged

theorem Progress.reap {reader : Reader} {reaped : List (Op × Int)} {pushed : List Op}
    (h : Progress reader reaped pushed) {first : Op × Int} {ring : AsyncRing Op}
    (hreap : reader.ring.reap = some (first, ring)) :
    Progress { reader with ring := ring } (reaped ++ [first]) pushed := by
  have hdone : reader.ring.done = first :: ring.done := by
    unfold AsyncRing.reap at hreap
    split at hreap
    · cases hreap
    · next head tail hdone =>
      cases hreap
      exact hdone
  have hmem : ∀ completion ∈ ring.done ++ (reaped ++ [first]),
      completion ∈ reader.ring.done ++ reaped := by
    intro completion hcompletion
    rw [hdone]
    simp only [List.mem_append, List.mem_cons, List.not_mem_nil, or_false] at hcompletion ⊢
    tauto
  refine ⟨?_, fun completion hcompletion => h.landed completion (hmem completion hcompletion),
    fun completion hcompletion => h.logged completion (hmem completion hcompletion)⟩
  refine List.Perm.trans ?_ h.held
  rw [List.map_append]
  calc ring.held ++ (reaped.map Prod.fst ++ [first.1])
      _ ~ ring.held ++ ([first.1] ++ reaped.map Prod.fst) :=
        List.Perm.append_left _ List.perm_append_comm
      _ ~ (first.1 :: ring.held) ++ reaped.map Prod.fst := List.perm_middle
      _ ~ reader.ring.held ++ reaped.map Prod.fst :=
        ((reader.ring.held_reap hreap).append_right _).symm

/-- A write into another operation's cells leaves a landed completion alone. -/
theorem Landed.of_outside {slab slab' : Mem UInt8} {completion : Op × Int} {op : Op}
    (h : Landed slab completion) (hapart : op.Apart completion.1)
    (hframe : ∀ i, op.read.covers i = false → slab' i = slab i) : Landed slab' completion := by
  intro hfull i hi
  rw [hframe _ ?_]
  · exact h hfull i hi
  · unfold Op.Apart FixedRead.Apart at hapart
    simp only [FixedRead.covers, Bool.and_eq_false_iff, decide_eq_false_iff_not]
    omega

/-- Whatever is in flight is apart from whatever is finished. -/
theorem Progress.apart {reader : Reader} {reaped : List (Op × Int)} {pushed : List Op}
    (h : Progress reader reaped pushed) (hpushed : pushed.Pairwise Op.Apart) {op : Op}
    (hop : op ∈ reader.ring.inFlight) :
    ∀ completion ∈ reader.ring.done ++ reaped, op.Apart completion.1 := by
  have hall : (reader.ring.held ++ reaped.map Prod.fst).Pairwise Op.Apart :=
    (List.Perm.pairwise_iff Op.Apart.symm h.held).mpr hpushed
  unfold AsyncRing.held at hall
  rw [List.append_assoc, ← List.map_append] at hall
  intro completion hcompletion
  exact (List.pairwise_append.mp hall).2.2 op (List.mem_append_right _ hop) completion.1
    (List.mem_map_of_mem hcompletion)

theorem covers_transferred (read : FixedRead) (result : Int) {i : Nat}
    (h : read.covers i = false) :
    i < read.bufferOffset ∨ read.bufferOffset + (read.transferred result).length ≤ i := by
  simp only [FixedRead.covers, Bool.and_eq_false_iff, decide_eq_false_iff_not] at h
  simp only [FixedRead.transferred, Mem.length_slice]
  omega

theorem Progress.kernel {reader : Reader} {reaped : List (Op × Int)} {pushed : List Op}
    (h : Progress reader reaped pushed) (hpushed : pushed.Pairwise Op.Apart) (step : KernelStep) :
    Progress (reader.kernel step) reaped pushed := by
  unfold Reader.kernel
  cases step with
  | transfer index junk =>
    simp only
    split
    · exact h
    · next op hop =>
      have hapart := h.apart hpushed (List.mem_of_getElem? hop)
      refine ⟨h.held, fun completion hcompletion => ?_, h.logged⟩
      exact (h.landed completion hcompletion).of_outside (hapart completion hcompletion)
        fun i hi => Mem.scribble_clean _ _ hi
  | complete index result junk =>
    simp only
    split
    · exact h
    · next op hop =>
      have hapart := h.apart hpushed (List.mem_of_getElem? hop)
      have hframe : ∀ i, op.read.covers i = false →
          (reader.slab.scribble op.read.covers junk).write op.read.bufferOffset
            (op.read.transferred result) i = reader.slab i := by
        intro i hi
        rw [Mem.write_outside _ (covers_transferred op.read result hi), Mem.scribble_clean _ _ hi]
      have hdone : (reader.ring.complete index result).done =
          reader.ring.done ++ [(op, result)] := by
        unfold AsyncRing.complete
        rw [hop]
      refine ⟨((reader.ring.held_complete index result).append_right _).trans h.held, ?_, ?_⟩
      · intro completion hcompletion
        simp only [hdone, List.mem_append, List.mem_singleton] at hcompletion
        rcases hcompletion with (hold | rfl) | hreaped
        · have hmem := List.mem_append_left reaped hold
          exact (h.landed completion hmem).of_outside (hapart completion hmem) hframe
        · -- the operation that has just finished
          intro hfull i hi
          simp only at hfull hi ⊢
          refine Mem.write_inside _ ?_
          simp only [FixedRead.transferred, hfull, Int.toNat_natCast, Nat.min_self]
          exact Mem.getElem?_slice _ hi
        · have hmem := List.mem_append_right reader.ring.done hreaped
          exact (h.landed completion hmem).of_outside (hapart completion hmem) hframe
      · intro completion hcompletion
        simp only [hdone, List.mem_append, List.mem_singleton] at hcompletion ⊢
        rcases hcompletion with (hold | rfl) | hreaped
        · exact Or.inl (h.logged completion (List.mem_append_left reaped hold))
        · exact Or.inr rfl
        · exact Or.inl (h.logged completion (List.mem_append_right _ hreaped))

/-! ## One batch -/

theorem Progress.kernelSteps {reaped : List (Op × Int)} {pushed : List Op}
    (hpushed : pushed.Pairwise Op.Apart) (steps : List KernelStep) :
    ∀ {reader : Reader}, Progress reader reaped pushed →
      Progress (reader.kernelSteps steps) reaped pushed := by
  induction steps with
  | nil =>
    intro reader h
    exact h
  | cons step steps ih =>
    intro reader h
    exact ih (h.kernel hpushed step)

theorem pushAll_progress (pushes : Nat → Bool) {reaped : List (Op × Int)} (ops : List Op) :
    ∀ {place : Nat} {reader after : Reader} {pushed : List Op},
      Progress reader reaped pushed → pushAll pushes place ops reader = (after, true) →
      Progress after reaped (ops ++ pushed) := by
  induction ops with
  | nil =>
    intro place reader after pushed h hpush
    cases hpush
    exact h
  | cons op ops ih =>
    intro place reader after pushed h hpush
    unfold pushAll at hpush
    split at hpush
    · have hrest := ih (h.push op) hpush
      exact ⟨hrest.held.trans List.perm_middle, hrest.landed, hrest.logged⟩
    · cases hpush

/-- The results after some completions are entered. -/
def enter (results : List Int) (completions : List (Op × Int)) : List Int :=
  completions.foldl (fun results entry => results.set (entry.1.userData - 1) entry.2) results

theorem drain_progress {limit : Nat} {pushed : List Op} (count : Nat) :
    ∀ {reader after : Reader} {reaped : List (Op × Int)} {results final : List Int},
      Progress reader reaped pushed → drain limit count reader results = (after, .ok final) →
      ∃ more, more.length = count ∧ Progress after (reaped ++ more) pushed ∧
        final = enter results more := by
  induction count with
  | zero =>
    intro reader after reaped results final h hdrain
    cases hdrain
    exact ⟨[], rfl, by simpa using h, rfl⟩
  | succ count ih =>
    intro reader after reaped results final h hdrain
    unfold drain at hdrain
    split at hdrain
    · cases hdrain
    · next first ring hreap =>
      simp only at hdrain
      split at hdrain
      · cases hdrain
      · obtain ⟨more, hlength, hprogress, hfinal⟩ := ih (h.reap hreap) hdrain
        refine ⟨first :: more, by rw [List.length_cons, hlength], ?_, hfinal⟩
        rw [List.append_assoc] at hprogress
        exact hprogress

/-- A batch from an idle ring that succeeds leaves it idle. -/
theorem readBatch_progress {limit : Nat} {ops pushed : List Op} {answers : BatchAnswers}
    {reader after : Reader} {reaped : List (Op × Int)} {results final : List Int}
    (h : Progress reader reaped pushed) (hidle : reader.ring = .idle)
    (hapart : (ops ++ pushed).Pairwise Op.Apart)
    (hrun : readBatch limit ops answers reader results = (after, .ok final)) :
    ∃ more, Progress after (reaped ++ more) (ops ++ pushed) ∧ after.ring = .idle ∧
      final = enter results more := by
  unfold readBatch at hrun
  split at hrun
  · cases hrun
  · next middle hpush =>
    simp only at hrun
    split at hrun
    · cases hrun
    · have hfilled := pushAll_progress answers.pushes ops h hpush
      have hturn := Progress.kernelSteps hapart answers.kernel (hfilled.submit answers.taken)
      obtain ⟨more, hlength, hprogress, hfinal⟩ := drain_progress ops.length hturn hrun
      refine ⟨more, hprogress, AsyncRing.eq_idle_of_held _ (List.length_eq_zero_iff.mp ?_), hfinal⟩
      -- as many were reaped as were pushed
      have hall := hprogress.held.length_eq
      have hbefore := h.held.length_eq
      rw [hidle] at hbefore
      simp only [List.length_append, List.length_map, AsyncRing.idle, AsyncRing.held,
        List.length_nil] at hall hbefore
      simp only [AsyncRing.held, List.length_append, List.length_map]
      omega

theorem readLoop_progress {config : ReaderConfig} {limit : Nat} {answers : Nat → BatchAnswers}
    (fuel : Nat) :
    ∀ {round batches : Nat} {ops pushed : List Op} {reader after : Reader}
      {reaped : List (Op × Int)} {results final : List Int},
      ops.length ≤ fuel → Progress reader reaped pushed → reader.ring = .idle →
      (ops ++ pushed).Pairwise Op.Apart →
      readLoop config limit answers fuel round ops reader results =
        (after, .ok (final, batches)) →
      ∃ more, Progress after (reaped ++ more) (ops ++ pushed) ∧ after.ring = .idle ∧
        final = enter results more := by
  induction fuel with
  | zero =>
    intro round batches ops pushed reader after reaped results final hfuel h hidle _ hrun
    have hnil : ops = [] := List.length_eq_zero_iff.mp (by omega)
    subst hnil
    cases hrun
    exact ⟨[], by simpa using h, hidle, rfl⟩
  | succ fuel ih =>
    intro round batches ops pushed reader after reaped results final hfuel h hidle hapart hrun
    unfold readLoop at hrun
    split at hrun
    · next hnil =>
      subst hnil
      cases hrun
      exact ⟨[], by simpa using h, hidle, rfl⟩
    · next hmore =>
      have hpos := List.length_pos_iff.mpr hmore
      have hdepth := config.depth_pos
      split at hrun
      · cases hrun
      · next middle entered hbatch =>
        have hsplit : ops.drop config.queueDepth ++ (ops.take config.queueDepth ++ pushed) ~
            ops ++ pushed := by
          rw [← List.append_assoc]
          refine List.Perm.append_right _ (List.perm_append_comm.trans ?_)
          rw [List.take_append_drop]
        have hparts := (List.Perm.pairwise_iff Op.Apart.symm hsplit).mpr hapart
        obtain ⟨some, hprogress, hstill, hentered⟩ := readBatch_progress h hidle
          (List.pairwise_append.mp hparts).2.1 hbatch
        obtain ⟨more, hfinal, hend, hresults⟩ := ih (by rw [List.length_drop]; omega) hprogress
          hstill hparts hrun
        refine ⟨some ++ more, ?_, hend, ?_⟩
        · rw [List.append_assoc] at hfinal
          exact ⟨hfinal.held.trans hsplit, hfinal.landed, hfinal.logged⟩
        · rw [hresults, hentered, enter, enter, enter, List.foldl_append]

/-! ## The results of a call -/

theorem enter_other {index : Nat} (completions : List (Op × Int)) :
    ∀ {results : List Int}, (∀ entry ∈ completions, entry.1.userData - 1 ≠ index) →
      (enter results completions)[index]? = results[index]? := by
  induction completions with
  | nil =>
    intro results _
    rfl
  | cons first rest ih =>
    intro results hother
    have hfirst := hother first List.mem_cons_self
    calc (enter (results.set (first.1.userData - 1) first.2) rest)[index]?
        _ = (results.set (first.1.userData - 1) first.2)[index]? :=
          ih fun entry hentry => hother entry (List.mem_cons_of_mem first hentry)
        _ = results[index]? := List.getElem?_set_ne hfirst

theorem length_enter (completions : List (Op × Int)) :
    ∀ results : List Int, (enter results completions).length = results.length := by
  induction completions with
  | nil =>
    intro results
    rfl
  | cons first rest ih =>
    intro results
    exact (ih _).trans List.length_set

/-- With distinct numbers every completion is found under its own. -/
theorem enter_own (completions : List (Op × Int)) :
    ∀ results : List Int, (completions.map fun entry => entry.1.userData - 1).Nodup →
      (∀ entry ∈ completions, entry.1.userData - 1 < results.length) →
      ∀ entry ∈ completions,
        (enter results completions)[entry.1.userData - 1]? = some entry.2 := by
  induction completions with
  | nil =>
    intro results _ _ entry hentry
    cases hentry
  | cons first rest ih =>
    intro results hdistinct hrange entry hentry
    rw [List.map_cons, List.nodup_cons] at hdistinct
    rcases List.mem_cons.mp hentry with rfl | hentry
    · have hrest : ∀ other ∈ rest, other.1.userData - 1 ≠ entry.1.userData - 1 :=
        fun other hother heq => hdistinct.1 (heq ▸ List.mem_map_of_mem hother)
      calc (enter (results.set (entry.1.userData - 1) entry.2) rest)[entry.1.userData - 1]?
          _ = (results.set (entry.1.userData - 1) entry.2)[entry.1.userData - 1]? :=
            enter_other rest hrest
          _ = some entry.2 := List.getElem?_set_self (hrange entry List.mem_cons_self)
    · refine ih _ hdistinct.2 (fun other hother => ?_) entry hentry
      rw [List.length_set]
      exact hrange other (List.mem_cons_of_mem first hother)

theorem checkResults_ok (reads : List FixedRead) :
    ∀ {results : List Int} {stats final : FixedReadStats},
      checkResults reads results stats = .ok final → results.length = reads.length →
      ∀ {i : Nat} {read : FixedRead}, reads[i]? = some read →
        results[i]? = some (read.bytes : Int) := by
  induction reads with
  | nil =>
    intro results stats final _ _ i read hread
    simp at hread
  | cons head reads ih =>
    intro results stats final hcheck hlength i read hread
    cases results with
    | nil => cases hlength
    | cons result results =>
      unfold checkResults at hcheck
      split at hcheck
      · cases hcheck
      · next hnonneg =>
        split at hcheck
        · cases hcheck
        · next hfull =>
          cases i with
          | zero =>
            cases hread
            simp only [List.getElem?_cons_zero, Option.some.injEq]
            omega
          | succ i => exact ih hcheck (by simpa using hlength) hread

theorem ownOps_getElem? (call : Nat) (reads : List FixedRead) (i : Nat) :
    (ownOps call reads)[i]? = reads[i]?.map fun read => ⟨read, i + 1, call⟩ := by
  unfold ownOps
  rw [List.getElem?_map, List.getElem?_zipIdx]
  cases reads[i]? with
  | none => rfl
  | some read => simp

theorem ownOps_places (call : Nat) (reads : List FixedRead) :
    (ownOps call reads).map (fun op => op.userData - 1) = List.range reads.length := by
  refine List.ext_getElem? fun i => ?_
  rw [List.getElem?_map, ownOps_getElem?]
  by_cases h : i < reads.length
  · simp [h]
  · simp [h]

theorem ownOps_apart {reads : List FixedRead} (h : reads.Pairwise FixedRead.Apart) (call : Nat) :
    (ownOps call reads).Pairwise Op.Apart := by
  have hreads : (ownOps call reads).map Op.read = reads := by
    refine List.ext_getElem? fun i => ?_
    rw [List.getElem?_map, ownOps_getElem?]
    cases reads[i]? with
    | none => rfl
    | some read => rfl
  rw [← hreads, List.pairwise_map] at h
  exact h

/-! ## Calls -/

/-- What an `Ok` promises: every operation of the call is complete with all its bytes, the slab
holds them, and nothing that could still write is left in the ring. -/
structure ReadSound (outcome : ReadOutcome) : Prop where
  completed : ∀ i read, outcome.reads[i]? = some read →
    (⟨read, i + 1, outcome.call⟩, (read.bytes : Int)) ∈ outcome.after.log
  bytes : ∀ read ∈ outcome.reads, ∀ i < read.bytes,
    outcome.after.slab (read.bufferOffset + i) = read.file.contents (read.fileOffset + i)
  settled : outcome.after.ring = .idle

theorem read_sound {config : ReaderConfig} {call : Nat} {reads : List FixedRead}
    {answers : Nat → BatchAnswers} {reader after : Reader} {stats : FixedReadStats}
    (hidle : reader.ring = .idle)
    (hrun : read config call reads answers reader = (after, .ok stats)) :
    ReadSound ⟨call, reads, reader, after, .ok stats⟩ := by
  unfold read at hrun
  split at hrun
  · cases hrun
  · next hvalid =>
    split at hrun
    · next hnil =>
      subst hnil
      cases hrun
      exact ⟨by simp, by simp, hidle⟩
    · simp only at hrun
      split at hrun
      · cases hrun
      · next ended results batches hloop =>
        have hcheck := congrArg Prod.snd hrun
        have hafter := congrArg Prod.fst hrun
        simp only at hcheck hafter
        subst hafter
        have hapart : (ownOps call reads ++ []).Pairwise Op.Apart := by
          rw [List.append_nil]
          exact ownOps_apart (validate_ok hvalid).2 call
        -- nothing is held and nothing has been reaped when the loop starts
        have hstart : Progress
            { reader with
              slab := reads.foldl (fun slab read => slab.fill read.bufferOffset read.bytes 0)
                reader.slab } [] [] := by
          refine ⟨?_, ?_, ?_⟩
          · simp only [hidle]
            exact List.Perm.nil
          · simp [hidle, AsyncRing.idle]
          · simp [hidle, AsyncRing.idle]
        have hlength : (ownOps call reads).length ≤ reads.length := by simp [ownOps]
        obtain ⟨more, hprogress, hsettled, hresults⟩ :=
          readLoop_progress reads.length hlength hstart hidle hapart hloop
        have hreaped : more.map Prod.fst ~ ownOps call reads := by
          have hheld := hprogress.held
          rw [hsettled] at hheld
          simpa [AsyncRing.held, AsyncRing.idle] using hheld
        have hplaces : (more.map fun entry => entry.1.userData - 1) ~ List.range reads.length := by
          rw [← ownOps_places call reads]
          simpa [Function.comp_def] using hreaped.map fun op => op.userData - 1
        have hown := enter_own more (List.replicate reads.length noResult)
          (hplaces.nodup_iff.mpr List.nodup_range)
          (fun entry hentry => by
            rw [List.length_replicate]
            exact List.mem_range.mp (hplaces.mem_iff.mp (List.mem_map_of_mem hentry)))
        -- the completion of the operation at `i`, with the result the check has seen
        have hfind : ∀ i read, reads[i]? = some read →
            (⟨read, i + 1, call⟩, (read.bytes : Int)) ∈ more := by
          intro i read hread
          have hop : (⟨read, i + 1, call⟩ : Op) ∈ ownOps call reads := by
            refine List.mem_of_getElem? (show (ownOps call reads)[i]? = _ from ?_)
            rw [ownOps_getElem?, hread]
            rfl
          obtain ⟨⟨op, result⟩, hentry, hsame⟩ := List.mem_map.mp (hreaped.mem_iff.mpr hop)
          simp only at hsame
          subst hsame
          have hresult := hown _ hentry
          rw [← hresults] at hresult
          have hfull := checkResults_ok reads hcheck (by
            rw [hresults, length_enter, List.length_replicate]) hread
          simp only [Nat.add_sub_cancel] at hresult
          rw [hfull] at hresult
          rw [Option.some.inj hresult]
          exact hentry
        refine ⟨fun i read hread => hprogress.logged _ ?_, fun read hread i hi => ?_, hsettled⟩
        · exact List.mem_append_right _ (hfind i read hread)
        · obtain ⟨index, hindex⟩ := List.mem_iff_getElem?.mp hread
          exact hprogress.landed _ (List.mem_append_right _ (hfind index read hindex)) rfl i hi

/-- **A call on an idle ring can be trusted.** In every run of one reader, whatever the earlier
calls did and whatever the kernel does, a call that finds the ring idle and returns `Ok` has all
its bytes in the slab and leaves nothing behind. -/
theorem readAll_sound (config : ReaderConfig) (calls : List ReadCall) :
    ∀ (call : Nat) (reader : Reader), ∀ outcome ∈ readAll config call reader calls,
      outcome.start.ring = .idle → ∀ stats, outcome.result = .ok stats → ReadSound outcome := by
  induction calls with
  | nil =>
    intro call reader outcome houtcome
    cases houtcome
  | cons next calls ih =>
    intro call reader outcome houtcome hidle stats hok
    rcases List.mem_cons.mp houtcome with rfl | hlater
    · simp only at hidle hok ⊢
      rw [hok]
      exact read_sound hidle (Prod.ext rfl hok)
    · exact ih _ _ outcome hlater hidle stats hok

/-- A file of one byte. -/
def byteFile (byte : UInt8) : OpenFile := ⟨[byte], show 1 < 2 ^ 63 by decide⟩

def byteConfig : ReaderConfig := ⟨1, 1, 1, by decide⟩

def freshReader : Reader := ⟨.idle, fun _ => 0, []⟩

/-- A one-byte read into the only cell of the slab. -/
def byteRead (byte : UInt8) : FixedRead := ⟨byteFile byte, 0, 0, 1⟩

/-- Every push succeeds; the kernel finishes the first operation in flight with one byte. -/
def promptKernel : BatchAnswers := ⟨fun _ => true, 1, [.complete 0 1 fun _ => 0], none⟩

/-- The wait is interrupted after the operation is submitted. -/
def interruptedWait : BatchAnswers := ⟨fun _ => true, 1, [], some 4⟩

/-- A slab of six bytes, two operations at a time. -/
def smallConfig : ReaderConfig := ⟨6, 2, 4, by decide⟩

def lowFile : OpenFile := ⟨[1, 2, 3], show 3 < 2 ^ 63 by decide⟩

def highFile : OpenFile := ⟨[4, 5, 6], show 3 < 2 ^ 63 by decide⟩

/-- Bytes of two files, in three operations. -/
def threeReads : List FixedRead := [⟨lowFile, 1, 0, 2⟩, ⟨highFile, 0, 2, 3⟩, ⟨lowFile, 0, 5, 1⟩]

/-- The kernel moves a byte early, finishes the second operation before the first, and the third in a batch of its
own. -/
def lateKernel : Nat → BatchAnswers
  | 0 => ⟨fun _ => true, 2, [.transfer 0 fun _ => 7, .complete 1 3 fun _ => 0, .complete 0 2 fun _ => 0], none⟩
  | _ => ⟨fun _ => true, 1, [.complete 0 1 fun _ => 0], none⟩

/-- Three calls of one reader: three operations that complete out of order, a short read, and one more read. -/
theorem readAll_sound_sample :
    ∃ first short last,
      readAll smallConfig 0 freshReader
        [⟨[], threeReads, lateKernel⟩, ⟨[], [⟨highFile, 2, 0, 2⟩], fun _ => promptKernel⟩,
          ⟨[.transfer 0 fun _ => 7], [⟨highFile, 2, 1, 1⟩], fun _ => promptKernel⟩] = [first, short, last] ∧
      first.result = .ok ⟨3, 6, 2⟩ ∧ ReadSound first ∧
      short.result = .error (.unexpectedEof "short fixed-buffer read at offset 2: expected 2, got 1") ∧
      ReadSound last ∧ (List.range 6).map last.after.slab = [6, 6, 4, 5, 6, 1] := by
  have hall := readAll_sound smallConfig
    [⟨[], threeReads, lateKernel⟩, ⟨[], [⟨highFile, 2, 0, 2⟩], fun _ => promptKernel⟩,
      ⟨[.transfer 0 fun _ => 7], [⟨highFile, 2, 1, 1⟩], fun _ => promptKernel⟩] 0 freshReader
  refine ⟨_, _, _, rfl, by decide, ?_, by decide, ?_, by decide⟩
  · exact hall _ List.mem_cons_self rfl _ rfl
  · exact hall _ (List.mem_cons_of_mem _ (List.mem_cons_of_mem _ List.mem_cons_self)) rfl _ rfl

/-- The first call is interrupted while its byte is on the way. The second call takes the first
one's completion for its own: it returns `Ok` with the wrong byte in the slab, and its own read is
still in flight. -/
theorem broken_call_answers_next :
    ∃ first second,
      readAll byteConfig 0 freshReader
        [⟨[], [byteRead 7], fun _ => interruptedWait⟩,
          ⟨[], [byteRead 9], fun _ => promptKernel⟩] = [first, second] ∧
      second.result = .ok ⟨1, 1, 1⟩ ∧ second.after.slab 0 = 7 ∧
      second.after.ring.inFlight.length = 1 ∧ ¬ ReadSound second := by
  refine ⟨_, _, rfl, by decide, by decide, by decide, fun hsound => ?_⟩
  have hbyte := hsound.bytes (byteRead 9) List.mem_cons_self 0 (by decide)
  revert hbyte
  decide

end Spark.Uring
