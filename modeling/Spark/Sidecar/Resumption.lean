import Spark.Sidecar.CrashSafety

/-!
# Which left-over files a build resumes from

An interrupted build leaves a partial file. The next run goes on from it if it has its full length
and a readable header of a build in progress, and refuses it otherwise: a file that was created and
never got its header, one whose header was torn, and one that was complete and never renamed.

* **`Usable`** — the left-over files a run accepts.
* **`builds_resume_iff`** — an uninterrupted run publishes exactly from these.
-/

namespace Spark.Sidecar

/-- The output is there, or the partial file, if there is one, can be gone on with. -/
def Usable (format : Format) (fs : Fs) : Prop :=
  fs.lookup .output ≠ none ∨ ∀ inode, fs.lookup .partialFile = some inode →
    (fs.image inode).size = format.totalBytes ∧
      ∃ header, readHeaderFrom format (fs.image inode) = .ok header ∧ header.stateComplete = false

/-- The run answers, and what it leaves under the output name is the sidecar. -/
def Publishes (format : Format) (checkpoint : Checkpoint)
    (record : Nat → Except SidecarError (List UInt8)) (build : Job BuildReport) (fs : Fs) : Prop :=
  ∃ answer inode, (build.run fs).result = .ok answer ∧
    (build.run fs).final.lookup .output = some inode ∧
    Sound format checkpoint record ((build.run fs).final.image inode)

/-- A checkpoint whose build goes through when it is not interrupted. -/
def Builds (build : Job BuildReport) : Prop := ∃ answer, (build.run .empty).result = .ok answer

namespace Plan

variable {format : Format} {plan : Plan format} {fs : Fs}

theorem resumable_iff (h : plan.FsInv fs) (hnone : fs.lookup .output = none) :
    plan.Resumable fs ↔ Usable format fs := by
  constructor
  · refine fun hresumable => .inr fun inode hinode => ?_
    obtain ⟨hsize, committed, hheader⟩ := hresumable inode hinode
    exact ⟨hsize, plan.header false committed, by rw [readHeaderFrom_eq hsize, hheader], rfl⟩
  · rintro (hshown | husable) inode hinode
    · exact absurd hnone hshown
    · obtain ⟨hsize, header, hheader, hbuilding⟩ := husable inode hinode
      obtain ⟨mark, -, halways⟩ := h.files inode
      rw [readHeaderFrom_eq hsize] at hheader
      obtain ⟨complete, committed, rfl, -, -⟩ := halways.current.claims header hheader
      obtain rfl : complete = false := hbuilding
      exact ⟨hsize, committed, hheader⟩

theorem building_of_validate {header expected : Header}
    (h : validateHeader format header expected false = .ok ()) : header.stateComplete = false := by
  unfold validateHeader at h
  split at h
  · cases h
  · next hall =>
    simp only [not_or] at hall
    simpa using hall.2.2.2.2.2.2.2.2

/-- A header a build resumes from says that its file is usable. -/
theorem usable_of_resumeHeader {sum : Image → Header → Nat → Except SidecarError UInt64}
    {fingerprint : Vector UInt8 32} {partialName : String} {inode : Inode}
    (hshown : fs.lookup .partialFile = some inode) :
    Script.Triple (fun _ => True) (fun _ => True) (· = fs)
      (resumeHeader format sum (format.header fingerprint false 0) partialName inode)
      (fun _ _ => Usable format fs) := by
  have htotal : (format.header fingerprint false 0).totalBytes.toNat = format.totalBytes :=
    UInt64.toNat_ofNat_of_lt' format.totalBytes_lt
  unfold resumeHeader
  rw [htotal]
  refine Script.triple_answer (fs.image inode).size (by rintro s rfl; rfl) ?_
  split
  · exact Script.triple_lift nofun fun _ _ _ _ => trivial
  · next hsize =>
    rw [Classical.not_not] at hsize
    refine Script.triple_bind (fun header s => readHeaderFrom format (fs.image inode) = .ok header ∧ s = fs)
      (Script.triple_ask (by rintro s header rfl hheader; exact ⟨hheader, rfl⟩) fun _ _ _ _ => trivial)
      fun header => Script.triple_of_fact fun hheader => ?_
    refine Script.triple_bind (fun _ _ => header.stateComplete = false)
      (Script.triple_lift (fun _ _ _ hvalid => building_of_validate hvalid) fun _ _ _ _ => trivial)
      fun _ => Script.triple_fact (fun _ hbuilding => .inr fun other hother => ?_) _
    obtain rfl : inode = other := Option.some.inj (hshown.symm.trans hother)
    exact ⟨hsize, header, hheader, hbuilding⟩

/-- A run that answers has a place to put its partial file and found one it could use. -/
theorem usable_of_answer {path : OutputPath} {fill : Inode → Header → Job Header}
    {sum : Image → Header → Nat → Except SidecarError UInt64} {checkpoint : Checkpoint}
    {answer : BuildReport} (hnone : fs.lookup .output = none)
    (hanswer : ((buildSidecar format path sum checkpoint fill).run fs).result = .ok answer) :
    path.fileName.isSome ∧ Usable format fs := by
  have htriple : Script.Triple (fun _ => True) (fun _ => True) (· = fs)
      (buildSidecar format path sum checkpoint fill)
      (fun _ _ => path.fileName.isSome ∧ Usable format fs) := by
    unfold buildSidecar
    refine Script.triple_bind (fun _ => (· = fs))
      (Script.triple_lift (fun _ _ h _ => h) fun _ _ _ _ => trivial) fun _ => ?_
    refine Script.triple_bind (fun _ => (· = fs))
      (Script.triple_lift (fun _ _ h _ => h) fun _ _ _ _ => trivial) fun fingerprint => ?_
    refine Script.triple_answer _ (fun _ _ => expectedHeader_ok format fingerprint false 0) ?_
    refine Script.triple_answer false (by rintro s rfl; rw [hnone]; rfl) ?_
    unfold buildPartial
    refine Script.triple_bind (fun _ s => path.fileName.isSome ∧ s = fs)
      (Script.triple_lift (fun s name hs hname => ⟨?_, hs⟩) fun _ _ _ _ => trivial)
      fun partialName => Script.triple_of_fact fun hnamed => ?_
    · unfold OutputPath.partialPath at hname
      split at hname
      · cases hname
      · next fileName hfile => rw [hfile]; rfl
    cases hshown : fs.lookup .partialFile with
    | none =>
      refine Script.triple_fact (fun _ _ => ⟨hnamed, .inr fun inode hinode => ?_⟩) _
      rw [hshown] at hinode
      cases hinode
    | some inode =>
      refine Script.triple_bind (fun opened s => opened = inode ∧ s = fs) ?_
        fun opened => Script.triple_of_fact ?_
      · unfold openPartial
        refine Script.triple_answer true (by rintro s rfl; rw [hshown]; rfl) ?_
        refine Script.triple_ask ?_ fun _ _ _ _ => trivial
        rintro s opened rfl hopen
        rw [hshown] at hopen
        exact ⟨(Except.ok.inj hopen).symm, rfl⟩
      · rintro rfl
        refine Script.triple_bind _ (usable_of_resumeHeader hshown) fun resumed => ?_
        exact Script.triple_fact (fun _ husable => ⟨hnamed, husable⟩) _
  obtain ⟨-, hend⟩ := htriple fs rfl
  rw [hanswer] at hend
  exact hend

theorem publishes_iff {path : OutputPath} {fill : Inode → Header → Job Header}
    {sum : Image → Header → Nat → Except SidecarError UInt64} {build : Job BuildReport}
    (hbuild : build = buildSidecar format path sum plan.checkpoint fill)
    (hspec : ∀ start, plan.Does (plan.Ready path start) (fun fs => fs = start ∧ plan.FsInv fs)
      build (fun _ fs => ∃ inode, plan.Shows inode fs)) (hbuilds : Builds build) (h : plan.FsInv fs) :
    Publishes format plan.checkpoint plan.record build fs ↔ Usable format fs := by
  subst hbuild
  obtain ⟨first, hfirst⟩ := hbuilds
  obtain ⟨hnamed, -⟩ := usable_of_answer rfl hfirst
  have hcomplete : ∃ image, plan.Complete image := by
    obtain ⟨-, hend⟩ := hspec .empty .empty ⟨rfl, fsInv_empty⟩
    rw [hfirst] at hend
    obtain ⟨inode, hinv, hshown⟩ := hend
    exact ⟨_, hinv.complete hshown⟩
  obtain ⟨image, hcomplete⟩ := hcomplete
  constructor
  · rintro ⟨answer, inode, hanswer, -⟩
    cases hnone : fs.lookup .output with
    | none => exact (usable_of_answer hnone hanswer).2
    | some shown => exact .inl (by rw [hnone]; nofun)
  · intro husable
    have hready : plan.Ready path fs :=
      { identified := hcomplete.identified
        named := hnamed
        records := fun index hindex => by
          obtain ⟨bytes, hbytes, -⟩ := hcomplete.holds index hindex
          exact ⟨bytes, hbytes⟩
        resumable := fun hnone => (resumable_iff h hnone).mpr husable }
    obtain ⟨answer, hanswer, inode, hinv, hshown⟩ := (hspec fs).answers hready ⟨rfl, h⟩
    exact ⟨answer, inode, hanswer, hshown, (hinv.complete hshown).sound⟩

end Plan

/-- **What a build can be resumed from.** After any interruptions of the builds of a checkpoint that
can be built, the next uninterrupted run publishes the sidecar exactly when the left-over files are
usable. -/
theorem builds_resume_iff (checkpoint : Checkpoint) (path : OutputPath) :
    (Builds (buildExpertSidecar path checkpoint) →
      ∀ fs, Reachable formatV1 (buildExpertSidecar path checkpoint) fs →
        (Publishes formatV1 checkpoint
            (fun index => packRecord checkpoint (index / 512) (index % 512))
            (buildExpertSidecar path checkpoint) fs ↔ Usable formatV1 fs)) ∧
    (Builds (buildExpertSidecarV2 path checkpoint) →
      ∀ fs, Reachable formatV2 (buildExpertSidecarV2 path checkpoint) fs →
        (Publishes formatV2 checkpoint (packedLayer checkpoint)
            (buildExpertSidecarV2 path checkpoint) fs ↔ Usable formatV2 fs)) := by
  constructor
  · intro hbuilds fs hreachable
    have hspec := buildExpertSidecar_spec checkpoint path
    exact Plan.publishes_iff rfl hspec hbuilds (Plan.reachable_inv (fun start => ⟨_, hspec start⟩) hreachable)
  · intro hbuilds fs hreachable
    have hspec := buildExpertSidecarV2_spec checkpoint path
    exact Plan.publishes_iff rfl hspec hbuilds (Plan.reachable_inv (fun start => ⟨_, hspec start⟩) hreachable)

theorem builds_sample :
    Builds (buildExpertSidecar samplePath sampleCheckpoint) ∧
    Builds (buildExpertSidecarV2 samplePath sampleCheckpoint) := by
  have hv1 := buildExpertSidecar_spec sampleCheckpoint samplePath .empty
  have hv2 := buildExpertSidecarV2_spec sampleCheckpoint samplePath .empty
  obtain ⟨first, hfirst, -⟩ := hv1.answers (readyV1_sample fun _ h => by cases h) ⟨rfl, Plan.fsInv_empty⟩
  obtain ⟨second, hsecond, -⟩ := hv2.answers (readyV2_sample fun _ h => by cases h) ⟨rfl, Plan.fsInv_empty⟩
  exact ⟨⟨first, hfirst⟩, second, hsecond⟩

/-- Behind a run that was cut and a power failure: the header is there, and the next run publishes. -/
theorem builds_resume_iff_sample :
    ((Publishes formatV1 sampleCheckpoint
        (fun index => packRecord sampleCheckpoint (index / 512) (index % 512))
        (buildExpertSidecar samplePath sampleCheckpoint) samplePlanV1.headed ↔
          Usable formatV1 samplePlanV1.headed) ∧ Usable formatV1 samplePlanV1.headed) ∧
    (Publishes formatV2 sampleCheckpoint (packedLayer sampleCheckpoint)
        (buildExpertSidecarV2 samplePath sampleCheckpoint) samplePlanV2.headed ↔
          Usable formatV2 samplePlanV2.headed) ∧ Usable formatV2 samplePlanV2.headed := by
  have husableV1 := (Plan.resumable_iff headedV1_inv rfl).mp (Plan.headed_resumable ⟨geometry_sample rfl rfl, rfl⟩)
  have husableV2 := (Plan.resumable_iff headedV2_inv rfl).mp (Plan.headed_resumable ⟨geometry_sample rfl rfl, rfl⟩)
  obtain ⟨hv1, hv2⟩ := builds_resume_iff sampleCheckpoint samplePath
  exact ⟨⟨hv1 builds_sample.1 _ headedV1_reachable, husableV1⟩, hv2 builds_sample.2 _ headedV2_reachable, husableV2⟩

/-! ## The file that never got its header -/

theorem create_mem_states_openPartial (format : Format) (expected : Header) :
    FileSystem.empty.create .partialFile ∈
      ((openPartial format expected).run FileSystem.empty).states := by
  unfold openPartial fileExists
  refine Script.mem_states_answer false rfl ?_
  show FileSystem.empty.create .partialFile ∈
    ((createPartial format expected).run FileSystem.empty).states
  unfold createPartial createNew
  refine Script.mem_states_bind ?_
  refine Script.mem_states_answer FileSystem.empty.next rfl ?_
  exact Script.mem_states_bind (List.mem_singleton.mpr rfl)

theorem not_usable_created (format : Format) :
    ¬ Usable format (FileSystem.empty.create .partialFile) := by
  rintro (hshown | husable)
  · exact hshown rfl
  · have hsize : 0 = format.totalBytes := (husable 0 rfl).1
    have hheader : headerBytes ≤ format.totalBytes := Plan.header_in_file
    have hpos := Plan.headerBytes_pos
    omega

/-- Cut between the creation of the partial file and its first header, a build leaves a file that no
later run accepts. -/
theorem created_partial_blocks_builds :
    (Builds (buildExpertSidecar samplePath sampleCheckpoint) ∧
      FileSystem.empty.create .partialFile ∈
        ((buildExpertSidecar samplePath sampleCheckpoint).run .empty).states ∧
      ∀ answer, ((buildExpertSidecar samplePath sampleCheckpoint).run
        (FileSystem.empty.create .partialFile)).result ≠ .ok answer) ∧
    (Builds (buildExpertSidecarV2 samplePath sampleCheckpoint) ∧
      FileSystem.empty.create .partialFile ∈
        ((buildExpertSidecarV2 samplePath sampleCheckpoint).run .empty).states ∧
      ∀ answer, ((buildExpertSidecarV2 samplePath sampleCheckpoint).run
        (FileSystem.empty.create .partialFile)).result ≠ .ok answer) := by
  refine ⟨⟨builds_sample.1, openPartial_mem_states (geometry_sample rfl rfl) rfl rfl (create_mem_states_openPartial formatV1 _), ?_⟩,
    builds_sample.2, openPartial_mem_states (geometry_sample rfl rfl) rfl rfl (create_mem_states_openPartial formatV2 _), ?_⟩
  · exact fun answer hanswer => not_usable_created formatV1 (Plan.usable_of_answer rfl hanswer).2
  · exact fun answer hanswer => not_usable_created formatV2 (Plan.usable_of_answer rfl hanswer).2

end Spark.Sidecar
