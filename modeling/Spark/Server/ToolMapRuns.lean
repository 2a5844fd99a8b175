import Spark.Server.ToolMapRoundTrip

/-!
# Tool maps over runs

A server takes its calls, writes maps and loads them in any order. The marks that its scans leave in the blocks stay
behind the count of its scans, so that the next scan takes no block for one it has seen.

* **`KeptMarks`** — what the calls do to the marks: nothing, and a new block has none.
* **`mapRun_sound`** — no run meets a dead pointer, and the pointers hold a map behind every one of them.
* **`toolMap_round_trip`** — the size that is announced is the size that is written, and a server that loads the file
  puts in what the prompt shows of what was remembered.
* **`restored_replayed`** — a server that was started anew gives a sampled text back from the file.
-/

namespace Spark.Server

open FixedCodec

/-! ## Marks -/

section Marks

namespace ToolMemory

variable {m m' m₁ m₂ m₃ : ToolMemory} {e p : Nat} {b : ToolMemoryBlock}

/-- A mark of a block in `m`, or none yet. -/
def OldMark (m : ToolMemory) (p : Nat) (mark : UInt64) : Prop := mark = 0 ∨ ∃ b, m.blockAt p = some b ∧ b.seen = mark

/-- The blocks of `m'` have their marks from `m`, where no scan came in between. -/
structure KeptMarks (m m' : ToolMemory) : Prop where
  clock : m'.scanClock = m.scanClock
  marks : ∀ p b, m'.blockAt p = some b → m.OldMark p b.seen

theorem keptMarks_of_blocks (hclock : m'.scanClock = m.scanClock) (hblocks : m'.blockAt = m.blockAt) :
    KeptMarks m m' where
  clock := hclock
  marks p b hb := .inr ⟨b, by rw [← hblocks]; exact hb, rfl⟩

theorem KeptMarks.refl (m : ToolMemory) : KeptMarks m m := keptMarks_of_blocks rfl rfl

theorem KeptMarks.trans (h : KeptMarks m₁ m₂) (h' : KeptMarks m₂ m₃) : KeptMarks m₁ m₃ where
  clock := h'.clock.trans h.clock
  marks p b hb := by
    rcases h'.marks p b hb with hzero | ⟨b', hb', hseen⟩
    · exact .inl hzero
    · have hold := h.marks p b' hb'
      rw [hseen] at hold
      exact hold

theorem KeptMarks.after (h : KeptMarks m₁ m₂) (hclock : m₁.scanClock = m.scanClock)
    (hblocks : m₁.blockAt = m.blockAt) : KeptMarks m m₂ := (keptMarks_of_blocks hclock hblocks).trans h

/-- A block that is written back with its mark, or freed. -/
theorem keptMarks_of_update {o : Option ToolMemoryBlock} (hclock : m'.scanClock = m.scanClock)
    (hblocks : m'.blockAt = Function.update m.blockAt p o) (hmark : ∀ b, o = some b → m.OldMark p b.seen) :
    KeptMarks m m' where
  clock := hclock
  marks p' b' hb' := by
    rw [hblocks] at hb'
    by_cases hp : p' = p
    · rw [hp, Function.update_self] at hb'
      rw [hp]
      exact hmark b' hb'
    · rw [Function.update_of_ne hp] at hb'
      exact .inr ⟨b', hb', rfl⟩

theorem oldMark_of_block (hb : m.blockAt p = some b) {b' : ToolMemoryBlock} (hseen : b'.seen = b.seen) :
    ∀ b₁, some b' = some b₁ → m.OldMark p b₁.seen := by
  intro b₁ hsame
  cases hsame
  exact .inr ⟨b, hb, hseen.symm⟩

theorem touch_marks (h : m.touch e = some m') : KeptMarks m m' := by
  obtain ⟨x, -, hrest⟩ := Option.bind_eq_some_iff.mp h
  dsimp only at hrest
  split at hrest
  · cases hrest
    exact keptMarks_of_blocks rfl rfl
  · cases hrest
    exact keptMarks_of_blocks rfl rfl

theorem blockUnlinkEntry_marks (h : m.blockUnlinkEntry p e = some m') : KeptMarks m m' := by
  obtain ⟨b, hb, hrest⟩ := Option.bind_eq_some_iff.mp h
  obtain ⟨c, -, hrest⟩ := Option.bind_eq_some_iff.mp hrest
  cases hrest
  exact keptMarks_of_update rfl rfl (oldMark_of_block hb rfl)

theorem releaseBlock_marks (h : m.releaseBlock p = some m') : KeptMarks m m' := by
  obtain ⟨b, hb, hrest⟩ := Option.bind_eq_some_iff.mp h
  dsimp only at hrest
  split at hrest
  · cases hrest
    exact keptMarks_of_update rfl rfl (oldMark_of_block hb rfl)
  · obtain ⟨removed, -, hrest⟩ := Option.bind_eq_some_iff.mp hrest
    cases hrest
    refine keptMarks_of_update rfl rfl fun b hnone => ?_
    cases hnone

theorem removeEntry_marks (h : m.removeEntry e = some m') : KeptMarks m m' := by
  obtain ⟨x, -, hrest⟩ := Option.bind_eq_some_iff.mp h
  obtain ⟨removed, -, hrest⟩ := Option.bind_eq_some_iff.mp hrest
  obtain ⟨m₁, hunlink, hrest⟩ := Option.bind_eq_some_iff.mp hrest
  obtain ⟨m₂, hrelease, hrest⟩ := Option.bind_eq_some_iff.mp hrest
  cases hrest
  have hfirst : KeptMarks m m₁ := (blockUnlinkEntry_marks hunlink).after rfl rfl
  have hsecond : KeptMarks m₁ m₂ := (releaseBlock_marks hrelease).after rfl rfl
  exact (hfirst.trans hsecond).trans (keptMarks_of_blocks rfl rfl)

theorem pruneLoop_marks {fuel : Nat} (h : pruneLoop fuel m = some m') : KeptMarks m m' := by
  induction fuel generalizing m with
  | zero => cases h
  | succ fuel ih =>
    rw [pruneLoop] at h
    split at h
    · obtain ⟨m₁, hremove, hrest⟩ := Option.bind_eq_some_iff.mp h
      exact (removeEntry_marks hremove).trans (ih hrest)
    · cases h
      exact KeptMarks.refl _

theorem getBlock_marks {dsml : List UInt8} (h : m.getBlock dsml = some (m', p)) : KeptMarks m m' := by
  rw [getBlock] at h
  split at h
  · cases h
    exact KeptMarks.refl m
  · dsimp only at h
    split at h
    · cases h
      refine keptMarks_of_update rfl rfl fun b hnew => ?_
      cases hnew
      exact .inl rfl
    · cases h

theorem insertEntry_marks {id dsml : List UInt8} {source : ToolMemorySource}
    (h : m.insertEntry id dsml source = some m') : KeptMarks m m' := by
  obtain ⟨⟨m₁, p⟩, hblock, hrest⟩ := Option.bind_eq_some_iff.mp h
  obtain ⟨b, hb, hrest⟩ := Option.bind_eq_some_iff.mp hrest
  dsimp only at hrest
  split at hrest
  · refine (getBlock_marks hblock).trans (KeptMarks.trans ?_ (pruneLoop_marks hrest))
    exact keptMarks_of_update rfl rfl (oldMark_of_block hb rfl)
  · cases hrest

theorem put_marks {id dsml : List UInt8} {source : ToolMemorySource} (h : m.put id dsml source = some m') :
    KeptMarks m m' := by
  rw [put] at h
  split at h
  · cases h
    exact KeptMarks.refl m
  · split at h
    · exact insertEntry_marks h
    · obtain ⟨x, -, hrest⟩ := Option.bind_eq_some_iff.mp h
      obtain ⟨b, -, hrest⟩ := Option.bind_eq_some_iff.mp hrest
      split at hrest
      · obtain ⟨m₁, htouch, hprune⟩ := Option.bind_eq_some_iff.mp hrest
        have hset : KeptMarks m m₁ := by
          refine KeptMarks.trans ?_ (touch_marks htouch)
          split
          · exact keptMarks_of_blocks rfl rfl
          · exact KeptMarks.refl m
        exact hset.trans (pruneLoop_marks hprune)
      · obtain ⟨m₁, hremove, hinsert⟩ := Option.bind_eq_some_iff.mp hrest
        exact (removeEntry_marks hremove).trans (insertEntry_marks hinsert)

theorem lookup_marks {id : List UInt8} {found : Option (List UInt8 × ToolMemorySource × Nat)}
    (h : m.lookup id = some (m', found)) : KeptMarks m m' := by
  rw [lookup] at h
  split at h
  · cases h
    exact KeptMarks.refl m
  · obtain ⟨x, -, hrest⟩ := Option.bind_eq_some_iff.mp h
    obtain ⟨b, -, hrest⟩ := Option.bind_eq_some_iff.mp hrest
    obtain ⟨m₁, htouch, hrest⟩ := Option.bind_eq_some_iff.mp hrest
    cases hrest
    exact touch_marks htouch

end ToolMemory

namespace ToolServer

open ToolMemory

variable {m m' : ToolMemory} {s s' : ToolServer}

theorem putAll_marks {raw : List UInt8} {ids : List (List UInt8)} (h : putAll m raw ids = some m') :
    KeptMarks m m' := by
  induction ids generalizing m with
  | nil =>
    cases h
    exact KeptMarks.refl _
  | cons id ids ih =>
    obtain ⟨m₁, hput, hrest⟩ := Option.bind_eq_some_iff.mp h
    exact (put_marks hput).trans (ih hrest)

theorem matchCalls_marks {ids : List (List UInt8)} {found found' : Matching}
    (h : matchCalls ids m found = some (m', found')) : KeptMarks m m' := by
  induction ids generalizing m found with
  | nil =>
    cases h
    exact KeptMarks.refl _
  | cons id ids ih =>
    obtain ⟨⟨m₁, answer⟩, hlookup, hrest⟩ := Option.bind_eq_some_iff.mp h
    apply (lookup_marks hlookup).trans
    cases answer with
    | none => exact ih hrest
    | some answer => exact ih hrest

theorem attachCalls_marks {calls calls' : MessageCalls} {stats stats' : ToolReplayStats}
    (h : attachCalls m calls stats = some (m', calls', stats')) : KeptMarks m m' := by
  rw [attachCalls] at h
  split at h
  · cases h
    exact KeptMarks.refl _
  · obtain ⟨⟨m₁, found⟩, hmatch, hrest⟩ := Option.bind_eq_some_iff.mp h
    apply (matchCalls_marks hmatch).trans
    dsimp only at hrest
    split at hrest
    · obtain ⟨b, -, hrest⟩ := Option.bind_eq_some_iff.mp hrest
      cases hrest
      exact KeptMarks.refl _
    · cases hrest
      exact KeptMarks.refl _

theorem attachLoop_marks {msgs msgs' : List MessageCalls} {stats stats' : ToolReplayStats}
    (h : attachLoop msgs m stats = some (m', msgs', stats')) : KeptMarks m m' := by
  induction msgs generalizing m stats msgs' stats' with
  | nil =>
    cases h
    exact KeptMarks.refl _
  | cons calls msgs ih =>
    obtain ⟨⟨m₁, calls₁, stats₁⟩, hcalls, hrest⟩ := Option.bind_eq_some_iff.mp h
    obtain ⟨⟨m₂, msgs₂, stats₂⟩, hloop, hrest⟩ := Option.bind_eq_some_iff.mp hrest
    cases hrest
    exact (attachCalls_marks hcalls).trans (ih hloop)

theorem putSource_marks {id dsml : List UInt8} {source : ToolMemorySource}
    (h : s.putSource id dsml source = some s') : KeptMarks s.toolMem s'.toolMem := by
  rw [putSource] at h
  split at h
  · cases h
    exact KeptMarks.refl _
  · obtain ⟨m', hput, heq⟩ := Option.map_eq_some_iff.mp h
    cases heq
    exact put_marks hput

/-- No call of the server into its tool memory is a scan. -/
theorem step_marks {op : ToolOp} {answer : ToolAnswer} (h : s.step op = some (s', answer)) :
    KeptMarks s.toolMem s'.toolMem := by
  cases op with
  | remember calls =>
    obtain ⟨s₁, hremember, heq⟩ := Option.map_eq_some_iff.mp h
    cases heq
    rw [remember] at hremember
    split at hremember
    · cases hremember
      exact KeptMarks.refl _
    · split at hremember
      · cases hremember
        exact KeptMarks.refl _
      · split at hremember
        · cases hremember
          exact KeptMarks.refl _
        · obtain ⟨m', hall, heq⟩ := Option.map_eq_some_iff.mp hremember
          cases heq
          exact putAll_marks hall
  | putSource id dsml source =>
    obtain ⟨s₁, hput, heq⟩ := Option.map_eq_some_iff.mp h
    cases heq
    exact putSource_marks hput
  | attach msgs stats =>
    obtain ⟨⟨s₁, msgs₁, stats₁⟩, hattach, heq⟩ := Option.map_eq_some_iff.mp h
    cases heq
    rw [attachToMessages] at hattach
    split at hattach
    · cases hattach
      exact KeptMarks.refl _
    · obtain ⟨⟨m', msgs', stats'⟩, hloop, heq⟩ := Option.bind_eq_some_iff.mp hattach
      cases heq
      exact attachLoop_marks hloop
  | hasId id =>
    cases h
    exact KeptMarks.refl _

end ToolServer

end Marks

/-! ## A scan of a server -/

section Scans

namespace ToolMemory

variable {m m' : ToolMemory} {a : Recall} {n : Nat}

/-- No mark is in front of the count of scans, of which there were at most `n`. -/
structure Marked (m : ToolMemory) (n : Nat) : Prop where
  clock : m.scanClock.toNat ≤ n
  marks : ∀ p b, m.blockAt p = some b → b.seen.toNat ≤ m.scanClock.toNat

theorem Marked.kept (h : m.Marked n) (hkept : KeptMarks m m') : m'.Marked n where
  clock := by
    rw [hkept.clock]
    exact h.clock
  marks p b hb := by
    rw [hkept.clock]
    rcases hkept.marks p b hb with hzero | ⟨b', hb', hseen⟩
    · rw [hzero]
      exact Nat.zero_le _
    · rw [← hseen]
      exact h.marks p b' hb'

theorem Marked.mono {n' : Nat} (h : m.Marked n) (hn : n ≤ n') : m.Marked n' where
  clock := Nat.le_trans h.clock hn
  marks := h.marks

theorem Marked.next (h : m.Marked n) (hroom : n + 1 < 2 ^ 64) :
    (m.scanClock + 1).toNat = m.scanClock.toNat + 1 := by
  have hclock := h.clock
  rw [UInt64.toNat_add, UInt64.toNat_one]
  exact Nat.mod_eq_of_lt (by omega)

end ToolMemory

open ToolMemory

variable {m : ToolMemory} {a : Recall} {n : Nat}

/-- The items of a map that a text shows. -/
def shownItems (text : List UInt8) (items : List (List UInt8 × List UInt8)) : List (List UInt8 × List UInt8) :=
  items.filter fun item => decide (item.2 ∈ toolBlocks text)

/-- A scan for its own number meets what the text shows of the map, in some order, and leaves the map as it is. -/
theorem scan_sound {β : Type} {visit : ToolMemoryBlock → β → List UInt8 → Option β}
    {visit' : β → List UInt8 × List UInt8 → Option β} (hvisit : Visits visit visit') (hrep : m.Represents a)
    (hmarked : m.Marked n) (hroom : n + 1 < 2 ^ 64) (text : List UInt8) (acc : β) :
    ∃ (items : List (List UInt8 × List UInt8)) (m' : ToolMemory), items.Perm (shownItems text a.items) ∧
      scanBlocks visit (m.scanClock + 1) (toolBlocks text) { m with scanClock := m.scanClock + 1 } acc =
        some (m', items.foldlM visit' acc) ∧
      m'.Represents a ∧ m'.Marked (n + 1) ∧ m'.fits = m.fits ∧ m'.limitEntries = m.limitEntries := by
  obtain ⟨l, ⟨blocks, cells, hshape, htight⟩, hitems, hsource⟩ := hrep
  have hnext := hmarked.next hroom
  have hclock := hmarked.clock
  let marks : Nat → UInt64 := fun p => (m.blockAt p).elim 0 fun b => b.seen
  have hfresh : ∀ p ∈ blocks, marks p = m.scanClock + 1 ↔ p ∈ ([] : List Nat) := by
    intro p hp
    obtain ⟨b, hb⟩ := (hshape.blockAt p).mp hp
    refine iff_of_false (fun hsame => ?_) List.not_mem_nil
    have hseen : b.seen = m.scanClock + 1 := by
      rw [← hsame]
      show b.seen = (m.blockAt p).elim 0 _
      rw [hb]
      rfl
    have hle := hmarked.marks p b hb
    rw [hseen, hnext] at hle
    omega
  have hself : ({ m with scanClock := m.scanClock + 1 } : ToolMemory) = m.remark (m.scanClock + 1) marks := by
    conv_lhs => rw [← remark_self m]
    rfl
  obtain ⟨marks', hscan, hkept⟩ :=
    scan_spec hvisit hshape (m.scanClock + 1) (m.scanClock + 1) (toolBlocks text) marks [] acc hfresh
  refine ⟨m.scanned cells [] (toolBlocks text), m.remark (m.scanClock + 1) marks', ?_, ?_, ?_, ?_, rfl, rfl⟩
  · rw [shownItems, hitems]
    exact scanned_perm hshape
  · rw [hself]
    exact hscan
  · apply Represents.remark
    exact ⟨l, ⟨blocks, cells, hshape, htight⟩, hitems, hsource⟩
  · refine ⟨?_, fun p b hb => ?_⟩
    · show (m.scanClock + 1).toNat ≤ n + 1
      omega
    · show b.seen.toNat ≤ (m.scanClock + 1).toNat
      obtain ⟨b', hb', rfl⟩ := remark_block.mp hb
      have hp := (hshape.blockAt p).mpr ⟨b', hb'⟩
      show (marks' p).toNat ≤ _
      rcases hkept p hp with hold | hnew
      · have hle := hmarked.marks p b' hb'
        have hseen : marks p = b'.seen := by
          show (m.blockAt p).elim 0 _ = _
          rw [hb']
          rfl
        rw [hold, hseen, hnext]
        omega
      · rw [hnew]

/-- The count and the size of a map, from the items it meets. -/
def measureAll (items : List (List UInt8 × List UInt8)) : Option (Nat × Nat) :=
  (items.foldlM measureItem (0, kvToolMapHeader)).map fun acc => (acc.1, if acc.1 = 0 then 0 else acc.2)

/-- A scan that takes its number and ends there. -/
theorem number_sound (hrep : m.Represents a) (hmarked : m.Marked n) (hroom : n + 1 < 2 ^ 64) :
    ({ m with scanClock := m.scanClock + 1 } : ToolMemory).Represents a ∧
      ({ m with scanClock := m.scanClock + 1 } : ToolMemory).Marked (n + 1) := by
  obtain ⟨_, m', -, hscan, hrep', hmarked', -⟩ := scan_sound visits_measure hrep hmarked hroom [] (0, 0)
  rw [toolBlocks_nil, scanBlocks] at hscan
  obtain ⟨rfl, -⟩ := Prod.mk.inj (Option.some.inj hscan)
  exact ⟨hrep', hmarked'⟩

theorem measure_sound (hrep : m.Represents a) (hmarked : m.Marked n) (hroom : n + 1 < 2 ^ 64) (text : List UInt8) :
    ∃ (items : List (List UInt8 × List UInt8)) (m' : ToolMemory), items.Perm (shownItems text a.items) ∧
      kvToolMapMeasure m text = some (m', measureAll items) ∧
      m'.Represents a ∧ m'.Marked (n + 1) ∧ m'.fits = m.fits ∧ m'.limitEntries = m.limitEntries := by
  obtain ⟨items, m', hperm, hscan, hkept⟩ :=
    scan_sound visits_measure hrep hmarked hroom text (0, kvToolMapHeader)
  refine ⟨items, m', hperm, ?_, hkept⟩
  unfold kvToolMapMeasure
  dsimp only
  rw [hscan]
  rfl

end Scans

/-! ## Runs -/

section Runs

open ToolMemory

/-- What the server does with its tool memory: a call, or a map of a file. -/
inductive MapOp where
  | call (op : ToolOp)
  | size (text : List UInt8)
  | write (room : Nat) (text : List UInt8)
  | load (file : List UInt8) (wanted : Option (List (List UInt8)))

/-- The texts that a file has for the tree fit one node of it, up to the first entry that is not well formed. -/
def entriesFit : Nat → List UInt8 → Bool
  | 0, _ => true
  | count + 1, file =>
    if file.length < entryLengths.size then true
    else
      let lengths := entryLengths.dec (file.take entryLengths.size)
      let idLen := lengths.1.toNat
      let dsmlLen := lengths.2.toNat
      if idLen = 0 ∨ idLen > 256 ∨ dsmlLen = 0 ∨ dsmlLen > toolMemoryMaxBytesDefault then true
      else
        decide (dsmlLen ≤ Rax.raxNodeMaxSize) &&
          entriesFit count ((file.drop entryLengths.size).drop (idLen + dsmlLen))

/-- What the step puts into the two trees fits one node of them. -/
def MapOp.Fits : MapOp → Prop
  | .call op => op.Fits
  | .load file _ => entriesFit (word32.dec ((file.drop 4).take 4)).toNat (file.drop kvToolMapHeader) = true
  | _ => True

instance (op : MapOp) : Decidable op.Fits := by
  cases op <;> unfold MapOp.Fits <;> infer_instance

namespace ToolServer

def mapStep (s : ToolServer) : MapOp → Option ToolServer
  | .call op => (s.step op).map Prod.fst
  | .size text => (s.kvToolMapSerializedSize text).map Prod.fst
  | .write room text => (s.kvToolMapWrite room text).map Prod.fst
  | .load file wanted => (s.kvToolMapLoadFromPos file wanted).map Prod.fst

def mapRun (ops : List MapOp) (s : ToolServer) : Option ToolServer := ops.foldlM mapStep s

/-- What holds of a server behind any of its calls. -/
structure Sound (fits : List (List UInt8 × List UInt8) → Bool) (disabled : Bool) (n : Nat) (s : ToolServer) :
    Prop where
  represents : ∃ a, s.toolMem.Represents a
  marked : s.toolMem.Marked n
  fits : s.toolMem.fits = fits
  disabled : s.disableExactDsmlToolReplay = disabled

variable {fits : List (List UInt8 × List UInt8) → Bool} {disabled : Bool} {n : Nat} {s : ToolServer}

theorem sound_start (maxEntries : Int) (maxBytes : Nat) (disabled : Bool) :
    Sound (ToolMemory.empty maxEntries maxBytes).fits disabled 0 (start maxEntries maxBytes disabled) where
  represents := ⟨_, represents_empty maxEntries maxBytes fun _ => .disk⟩
  marked := by
    refine ⟨Nat.le_refl 0, fun p b hb => ?_⟩
    cases hb
  fits := rfl
  disabled := rfl

theorem Sound.mono {n' : Nat} (h : s.Sound fits disabled n) (hn : n ≤ n') : s.Sound fits disabled n' :=
  { h with marked := h.marked.mono hn }

theorem size_sound (h : s.Sound fits disabled n) (hroom : n + 1 < 2 ^ 64) (text : List UInt8) :
    ∃ s' size, s.kvToolMapSerializedSize text = some (s', size) ∧ s'.Sound fits disabled (n + 1) := by
  obtain ⟨a, hrep⟩ := h.represents
  rw [kvToolMapSerializedSize]
  split
  · exact ⟨s, _, rfl, h.mono (Nat.le_succ n)⟩
  · obtain ⟨items, m', -, hmeasure, hrep', hmarked', hfits', -⟩ := measure_sound hrep h.marked hroom text
    rw [hmeasure]
    exact ⟨{ s with toolMem := m' }, _, rfl, ⟨a, hrep'⟩, hmarked', hfits'.trans h.fits, h.disabled⟩

theorem write_sound (h : s.Sound fits disabled n) (hroom : n + 2 < 2 ^ 64) (room : Nat) (text : List UInt8) :
    ∃ s' file, s.kvToolMapWrite room text = some (s', file) ∧ s'.Sound fits disabled (n + 2) := by
  obtain ⟨a, hrep⟩ := h.represents
  rw [kvToolMapWrite]
  split
  · exact ⟨s, _, rfl, h.mono (Nat.le_add_right n 2)⟩
  · obtain ⟨items, m₁, -, hmeasure, hrep₁, hmarked₁, hfits₁, -⟩ :=
      measure_sound hrep h.marked (Nat.lt_of_succ_lt hroom) text
    have hmeasured : Sound fits disabled (n + 2) { s with toolMem := m₁ } :=
      ⟨⟨a, hrep₁⟩, hmarked₁.mono (Nat.le_succ _), hfits₁.trans h.fits, h.disabled⟩
    rw [hmeasure, Option.bind_some]
    cases hall : measureAll items with
    | none => exact ⟨_, _, rfl, hmeasured⟩
    | some acc =>
      obtain ⟨count, size⟩ := acc
      dsimp only
      split
      · exact ⟨_, _, rfl, hmeasured⟩
      · split
        · obtain ⟨hrep₂, hmarked₂⟩ := number_sound hrep₁ hmarked₁ hroom
          exact ⟨_, _, rfl, ⟨a, hrep₂⟩, hmarked₂, hfits₁.trans h.fits, h.disabled⟩
        · obtain ⟨items₂, m₂, -, hscan, hrep₂, hmarked₂, hfits₂, -⟩ := scan_sound (visits_write room) hrep₁ hmarked₁
            hroom text (kvToolMapMagic ++ word32.enc (UInt32.ofNat count))
          rw [hscan]
          exact ⟨_, _, rfl, ⟨a, hrep₂⟩, hmarked₂, (hfits₂.trans hfits₁).trans h.fits, h.disabled⟩

theorem length_cString_take (file : List UInt8) (k : Nat) : (cString (file.take k)).length ≤ k :=
  Nat.le_trans (List.takeWhile_sublist _).length_le (List.length_take_le k file)

/-- Whatever else a file holds, it only puts calls into the memory. -/
theorem loadEntries_sound (h : s.Sound fits disabled n) (wanted : Option (List (List UInt8))) {count : Nat}
    {file : List UInt8} (hfile : entriesFit count file = true) :
    ∃ s' loaded, loadEntries wanted count s file = some (s', loaded) ∧ s'.Sound fits disabled n := by
  induction count generalizing s file with
  | zero => exact ⟨s, 0, rfl, h⟩
  | succ count ih =>
    rw [loadEntries]
    rw [entriesFit] at hfile
    dsimp only at hfile ⊢
    split
    · exact ⟨s, 0, rfl, h⟩
    rename_i hlong
    rw [if_neg hlong] at hfile
    split
    · exact ⟨s, 0, rfl, h⟩
    rename_i hlengths
    rw [if_neg hlengths, Bool.and_eq_true, decide_eq_true_iff] at hfile
    obtain ⟨hdsml, hrest⟩ := hfile
    split
    case isTrue => exact ⟨s, 0, rfl, h⟩
    split
    case isFalse => exact ih h hrest
    case isTrue =>
      obtain ⟨a, hrep⟩ := h.represents
      -- what is read as a C string is no longer than its field
      have hid : (entryLengths.dec (file.take entryLengths.size)).1.toNat ≤ Rax.raxNodeMaxSize := by
        unfold Rax.raxNodeMaxSize
        omega
      obtain ⟨s₁, hput, hfits, hdisabled, hrep₁⟩ := putSource_spec hrep
        (Nat.le_trans (length_cString_take _ _) hid) (Nat.le_trans (length_cString_take _ _) hdsml) .disk
      rw [hput, Option.bind_some]
      have hsound : s₁.Sound fits disabled n :=
        ⟨⟨_, hrep₁⟩, h.marked.kept (putSource_marks hput), hfits.trans h.fits, hdisabled.trans h.disabled⟩
      obtain ⟨s', loaded, hload, hsound'⟩ := ih hsound hrest
      rw [hload]
      exact ⟨s', loaded + 1, rfl, hsound'⟩

theorem load_sound (h : s.Sound fits disabled n) {file : List UInt8} {wanted : Option (List (List UInt8))}
    (hfile : (MapOp.load file wanted).Fits) :
    ∃ s' loaded, s.kvToolMapLoadFromPos file wanted = some (s', loaded) ∧ s'.Sound fits disabled n := by
  rw [kvToolMapLoadFromPos]
  dsimp only
  split
  · exact ⟨s, 0, rfl, h⟩
  · split
    · exact ⟨s, 0, rfl, h⟩
    · split
      · exact ⟨s, 0, rfl, h⟩
      · split
        · exact ⟨s, 0, rfl, h⟩
        · exact loadEntries_sound h wanted hfile

/-- One step keeps it, with at most two scans. -/
theorem mapStep_sound (h : s.Sound fits disabled n) (hroom : n + 2 < 2 ^ 64) (op : MapOp) (hop : op.Fits) :
    ∃ s', s.mapStep op = some s' ∧ s'.Sound fits disabled (n + 2) := by
  cases op with
  | call op =>
    obtain ⟨a, hrep⟩ := h.represents
    obtain ⟨s', hstep, hfits, hdisabled, hrep'⟩ := step_spec hrep op hop
    refine ⟨s', by rw [mapStep, hstep]; rfl, ⟨_, hrep'⟩, ?_, hfits.trans h.fits, hdisabled.trans h.disabled⟩
    exact (h.marked.kept (step_marks hstep)).mono (Nat.le_add_right n 2)
  | size text =>
    obtain ⟨s', size, hsize, hsound⟩ := size_sound h (Nat.lt_of_succ_lt hroom) text
    exact ⟨s', by rw [mapStep, hsize]; rfl, hsound.mono (Nat.le_succ _)⟩
  | write room text =>
    obtain ⟨s', file, hwrite, hsound⟩ := write_sound h hroom room text
    exact ⟨s', by rw [mapStep, hwrite]; rfl, hsound⟩
  | load file wanted =>
    obtain ⟨s', loaded, hload, hsound⟩ := load_sound h hop
    exact ⟨s', by rw [mapStep, hload]; rfl, hsound.mono (Nat.le_add_right n 2)⟩

/-- No run meets a dead pointer, and the pointers hold a map behind every one of them. -/
theorem mapRun_sound (h : s.Sound fits disabled n) (ops : List MapOp) (hops : ∀ op ∈ ops, op.Fits)
    (hroom : n + 2 * ops.length < 2 ^ 64) :
    ∃ s', mapRun ops s = some s' ∧ s'.Sound fits disabled (n + 2 * ops.length) := by
  induction ops generalizing s n with
  | nil => exact ⟨s, rfl, h⟩
  | cons op ops ih =>
    rw [List.length_cons] at hroom
    obtain ⟨s₁, hstep, hsound₁⟩ := mapStep_sound h (by omega) op (hops op List.mem_cons_self)
    obtain ⟨s', hrun, hsound'⟩ := ih hsound₁ (fun op hmem => hops op (List.mem_cons_of_mem _ hmem)) (by omega)
    refine ⟨s', ?_, hsound'.mono (by rw [List.length_cons]; omega)⟩
    rw [mapRun, List.foldlM_cons, hstep]
    exact hrun

end ToolServer

end Runs

/-! ## The round trip -/

section RoundTrip

open ToolMemory

variable {items : List (List UInt8 × List UInt8)}

theorem length_itemBytes_perm {items' : List (List UInt8 × List UInt8)} (hperm : items'.Perm items) :
    (itemBytes items').length = (itemBytes items).length := by
  have hbytes : (itemBytes items').Perm (itemBytes items) := hperm.flatMap_right _
  exact hbytes.length_eq

/-- What fits into the fields of a map. -/
structure Storable (items : List (List UInt8 × List UInt8)) : Prop where
  lengths : ∀ item ∈ items, entryFits item.1.length item.2.length = true
  zeroFree : ∀ item ∈ items, ZeroFree item
  count : items.length ≤ mapUint32Max
  size : kvToolMapHeader + (itemBytes items).length ≤ mapUint64Max

theorem Storable.perm {items' : List (List UInt8 × List UInt8)} (h : Storable items) (hperm : items'.Perm items) :
    Storable items' where
  lengths item hmem := h.lengths item (hperm.mem_iff.mp hmem)
  zeroFree item hmem := h.zeroFree item (hperm.mem_iff.mp hmem)
  count := by
    rw [hperm.length_eq]
    exact h.count
  size := by
    rw [length_itemBytes_perm hperm]
    exact h.size

/-- The bytes of a map; there are none for no items. -/
def mapBytes (items : List (List UInt8 × List UInt8)) : List UInt8 :=
  if items = [] then [] else kvToolMapMagic ++ word32.enc (UInt32.ofNat items.length) ++ itemBytes items

theorem length_mapBytes : (mapBytes items).length =
    if items.length = 0 then 0 else kvToolMapHeader + (itemBytes items).length := by
  unfold mapBytes
  by_cases hnil : items = []
  · rw [if_pos hnil, hnil]
    rfl
  · rw [if_neg hnil, if_neg (fun hzero => hnil (List.length_eq_zero_iff.mp hzero)), List.length_append,
      List.length_append, word32.length_enc]
    rfl

theorem length_mapBytes_perm {items' : List (List UInt8 × List UInt8)} (hperm : items'.Perm items) :
    (mapBytes items').length = (mapBytes items).length := by
  rw [length_mapBytes, length_mapBytes, hperm.length_eq, length_itemBytes_perm hperm]

theorem measureAll_eq (h : Storable items) : measureAll items = some (items.length, (mapBytes items).length) := by
  have hcount : 0 + items.length ≤ mapUint32Max := by
    rw [Nat.zero_add]
    exact h.count
  rw [measureAll, measure_items h.lengths (0, kvToolMapHeader) hcount h.size, length_mapBytes]
  dsimp only
  rw [Nat.zero_add]
  rfl

theorem mapless_eq_false {s : ToolServer} {text : List UInt8} (hon : s.disableExactDsmlToolReplay = false)
    (htext : 0 ∉ text) (hne : text ≠ []) : s.mapless text = false := by
  rw [ToolServer.mapless, hon, Bool.false_or, cString_eq htext]
  exact decide_eq_false hne

theorem shownItems_nil : shownItems [] items = [] := by
  rw [shownItems, toolBlocks_nil]
  simp

namespace ToolServer

variable {s t : ToolServer} {a b : Recall} {text : List UInt8} {fits : List (List UInt8 × List UInt8) → Bool}
  {n : Nat}

/-- The size that is announced is that of the items the text shows. -/
theorem size_spec (h : s.Sound fits false n) (hroom : n + 1 < 2 ^ 64) (ha : s.toolMem.Represents a)
    (htext : 0 ∉ text) (hitems : Storable (shownItems text a.items)) :
    ∃ s', s.kvToolMapSerializedSize text = some (s', some (mapBytes (shownItems text a.items)).length) ∧
      s'.toolMem.Represents a ∧ s'.Sound fits false (n + 1) := by
  rw [kvToolMapSerializedSize]
  by_cases hne : text = []
  · subst hne
    have hless : s.mapless [] = true := by
      rw [mapless, Bool.or_eq_true]
      exact .inr (decide_eq_true rfl)
    rw [if_pos hless, shownItems_nil]
    exact ⟨s, rfl, ha, h.mono (Nat.le_succ n)⟩
  · rw [if_neg (by rw [mapless_eq_false h.disabled htext hne]; exact Bool.false_ne_true)]
    obtain ⟨items, m', hperm, hmeasure, hrep, hmarked, hfits, -⟩ := measure_sound ha h.marked hroom text
    rw [hmeasure, measureAll_eq (hitems.perm hperm)]
    refine ⟨{ s with toolMem := m' }, ?_, hrep, ⟨a, hrep⟩, hmarked, hfits.trans h.fits, h.disabled⟩
    rw [← length_mapBytes_perm hperm]
    rfl

/-- What is written are the items the text shows, in some order, as long as the disk has room for all of them. -/
theorem write_spec (h : s.Sound fits false n) (hroom : n + 2 < 2 ^ 64) (ha : s.toolMem.Represents a)
    (htext : 0 ∉ text) (hitems : Storable (shownItems text a.items)) (room : Nat) :
    ∃ items s', items.Perm (shownItems text a.items) ∧
      s.kvToolMapWrite room text = some (s', if (mapBytes items).length ≤ room then
        some (mapBytes items, (mapBytes items).length) else none) ∧
      s'.toolMem.Represents a := by
  rw [kvToolMapWrite]
  by_cases hne : text = []
  · subst hne
    have hless : s.mapless [] = true := by
      rw [mapless, Bool.or_eq_true]
      exact .inr (decide_eq_true rfl)
    rw [if_pos hless, shownItems_nil]
    exact ⟨[], s, List.Perm.refl _, rfl, ha⟩
  · rw [if_neg (by rw [mapless_eq_false h.disabled htext hne]; exact Bool.false_ne_true)]
    obtain ⟨items₁, m₁, hperm₁, hmeasure, hrep₁, hmarked₁, hfits₁, -⟩ :=
      measure_sound ha h.marked (Nat.lt_of_succ_lt hroom) text
    rw [hmeasure, measureAll_eq (hitems.perm hperm₁), Option.bind_some]
    dsimp only
    by_cases hzero : items₁.length = 0
    · -- nothing is shown
      have hnil := List.length_eq_zero_iff.mp hzero
      rw [if_pos hzero]
      subst hnil
      exact ⟨[], { s with toolMem := m₁ }, hperm₁, rfl, hrep₁⟩
    · rw [if_neg hzero]
      obtain ⟨items, m', hperm, hscan, hrep', -⟩ := scan_sound (visits_write room) hrep₁ hmarked₁ hroom text
        (kvToolMapMagic ++ word32.enc (UInt32.ofNat items₁.length))
      have hsame := hperm.trans hperm₁.symm
      have hfile : kvToolMapMagic ++ word32.enc (UInt32.ofNat items₁.length) ++ itemBytes items = mapBytes items := by
        have hnil : items ≠ [] := by
          rintro rfl
          exact hzero hsame.length_eq.symm
        rw [mapBytes, if_neg hnil, hsame.length_eq]
      split
      case isTrue hfull =>
        -- not even the header
        refine ⟨items, { s with toolMem := { m₁ with scanClock := m₁.scanClock + 1 } }, hperm, ?_,
          (number_sound hrep₁ hmarked₁ hroom).1⟩
        rw [if_neg]
        rw [← hfile, List.length_append]
        omega
      case isFalse hheader =>
        rw [hscan, write_items (hitems.perm hperm).lengths _ (Nat.not_lt.mp hheader), hfile]
        refine ⟨items, { s with toolMem := m' }, hperm, ?_, hrep'⟩
        rw [Option.map_some, ← length_mapBytes_perm hsame]
        split <;> rfl

/-- A map that is read puts its items into the memory. -/
theorem load_spec (hon : t.disableExactDsmlToolReplay = false) (hb : t.toolMem.Represents b)
    (hitems : Storable items) (htexts : ∀ item ∈ items, item.2.length ≤ Rax.raxNodeMaxSize)
    (hlimit : (items.length : Int) ≤ t.toolMem.limitEntries * 4) (wanted : Option (List (List UInt8))) :
    ∃ t', t.kvToolMapLoadFromPos (mapBytes items) wanted = some (t', (loadedItems wanted items).length) ∧
      t'.toolMem.fits = t.toolMem.fits ∧ t'.disableExactDsmlToolReplay = false ∧
      t'.toolMem.Represents (b.putFromDisk t.toolMem.fits (loadedItems wanted items)) := by
  rw [kvToolMapLoadFromPos, if_neg (by rw [hon]; exact Bool.false_ne_true)]
  by_cases hnil : items = []
  · -- an empty file is at its end
    subst hnil
    exact ⟨t, rfl, rfl, hon, hb⟩
  have hfile : mapBytes items = kvToolMapMagic ++ (word32.enc (UInt32.ofNat items.length) ++ itemBytes items) := by
    rw [mapBytes, if_neg hnil, List.append_assoc]
  have hmagic : kvToolMapMagic.length = 4 := by decide
  have hlong : ¬ (mapBytes items).length < kvToolMapHeader := by
    rw [hfile, List.length_append, List.length_append, word32.length_enc, hmagic]
    show ¬ 4 + (4 + _) < 8
    omega
  have htake : (mapBytes items).take 4 = kvToolMapMagic := by
    rw [hfile, ← hmagic, List.take_left]
  have hdrop : (mapBytes items).drop 4 = word32.enc (UInt32.ofNat items.length) ++ itemBytes items := by
    rw [hfile, ← hmagic, List.drop_left]
  obtain ⟨hcount, hrest⟩ := word32.take_drop_enc (UInt32.ofNat items.length) (itemBytes items)
  have hcount' : (word32.dec (((mapBytes items).drop 4).take 4)).toNat = items.length := by
    have hread : word32.dec (((mapBytes items).drop 4).take 4) = UInt32.ofNat items.length := by
      rw [hdrop]
      exact hcount
    have hsmall := hitems.count
    unfold mapUint32Max at hsmall
    have hsize : UInt32.size = 2 ^ 32 := rfl
    rw [hread, UInt32.toNat_ofNat_of_lt' (by omega)]
  have hbody : (mapBytes items).drop kvToolMapHeader = itemBytes items ++ [] := by
    rw [show kvToolMapHeader = 4 + 4 from rfl, ← List.drop_drop, hdrop, List.append_nil]
    exact hrest
  rw [if_neg hlong, if_neg (not_not.mpr htake)]
  dsimp only
  rw [hcount', if_neg (Int.not_lt.mpr hlimit), hbody]
  exact load_entries wanted hon hb (fun item hmem => ⟨hitems.lengths item hmem, hitems.zeroFree item hmem⟩) htexts []

end ToolServer

open ToolServer in
/-- A map on disk, written behind any run of the server where there is room for it, and read by any other one. The
size that is announced is the size that is written, the memory stays as it is, and the file holds the items that are
remembered with a block of the text. The reader puts in those in front of the first one that is too long for it, as
far as it asks for them. -/
theorem toolMap_round_trip (maxEntries : Int) (maxBytes : Nat) (ops : List MapOp) (hops : 2 * ops.length + 3 < 2 ^ 64)
    (hfits : ∀ op ∈ ops, op.Fits) {s t : ToolServer} {a b : Recall}
    (hs : (start maxEntries maxBytes false).mapRun ops = some s)
    (ha : s.toolMem.Represents a) (hon : t.disableExactDsmlToolReplay = false) (hb : t.toolMem.Represents b)
    (text : List UInt8) (htext : 0 ∉ text) (hitems : Storable (shownItems text a.items)) {room : Nat}
    (hdisk : (mapBytes (shownItems text a.items)).length ≤ room)
    (hlimit : ((shownItems text a.items).length : Int) ≤ t.toolMem.limitEntries * 4)
    (wanted : Option (List (List UInt8))) :
    ∃ items s₁ s₂ file t', items.Perm (shownItems text a.items) ∧
      s.kvToolMapSerializedSize text = some (s₁, some file.length) ∧
      s₁.kvToolMapWrite room text = some (s₂, some (file, file.length)) ∧ s₂.toolMem.Represents a ∧
      t.kvToolMapLoadFromPos file wanted = some (t', (loadedItems wanted items).length) ∧
      t'.toolMem.Represents (b.putFromDisk t.toolMem.fits (loadedItems wanted items)) := by
  obtain ⟨s', hrun, hsound⟩ := mapRun_sound (sound_start maxEntries maxBytes false) ops hfits (by omega)
  have hsame : s' = s := Option.some.inj (hrun.symm.trans hs)
  subst hsame
  obtain ⟨s₁, hsize, ha₁, hsound₁⟩ := size_spec hsound (by omega) ha htext hitems
  obtain ⟨items, s₂, hperm, hwrite, ha₂⟩ := write_spec hsound₁ (by omega) ha₁ htext hitems room
  rw [if_pos (by rwa [length_mapBytes_perm hperm])] at hwrite
  have hlimit' : (items.length : Int) ≤ t.toolMem.limitEntries * 4 := by
    rw [hperm.length_eq]
    exact hlimit
  obtain ⟨t', hload, -, -, hb'⟩ := load_spec hon hb (hitems.perm hperm)
    (fun item hmem => ha.text_fits (List.mem_of_mem_filter (hperm.mem_iff.mp hmem))) hlimit' wanted
  refine ⟨items, s₁, s₂, mapBytes items, t', hperm, ?_, hwrite, ha₂, hload, hb'⟩
  rw [length_mapBytes_perm hperm]
  exact hsize

def sampleBlock : List UInt8 := bytes "<tool_calls></tool_calls>"

/-- Two calls sampled as one block. -/
def sampleOp : ToolOp := .remember ⟨[[65], [66]], some sampleBlock⟩

def sampleRecall : Recall := (Recall.start.step (ToolMemory.empty 0 0).fits false sampleOp).1

def sampleItems : List (List UInt8 × List UInt8) := [([66], sampleBlock), ([65], sampleBlock)]

/-- What the two calls look like, evaluated once. -/
theorem sample_facts : sampleRecall.items = sampleItems ∧ shownItems (104 :: sampleBlock) sampleItems = sampleItems ∧
    (0 ∉ 104 :: sampleBlock ∧ ∀ item ∈ sampleItems, 0 ∉ item.1 ∧ 0 ∉ item.2) ∧
    (∀ item ∈ sampleItems, entryFits item.1.length item.2.length = true ∧ loadable item = true) ∧
    kvToolMapHeader + (itemBytes sampleItems).length ≤ mapUint64Max ∧
    (ToolMemory.empty 2 0).fits sampleItems = true ∧ sampleBlock ∈ toolBlocks (104 :: sampleBlock) ∧
    (∀ id ∈ ([[66], [65]] : List (List UInt8)),
      sampleRecall.find id = some sampleBlock ∧ askedFor (some [[66], [65]]) (id, sampleBlock) = true) := by
  decide +kernel

theorem shownItems_sample : shownItems (104 :: sampleBlock) sampleRecall.items = sampleItems := by
  rw [sample_facts.1]
  exact sample_facts.2.1

theorem storable_sample : Storable (shownItems (104 :: sampleBlock) sampleRecall.items) := by
  obtain ⟨-, -, ⟨-, hzero⟩, hitems, hsize, -⟩ := sample_facts
  rw [shownItems_sample]
  exact ⟨fun item hmem => (hitems item hmem).1, hzero, by decide, hsize⟩

theorem mapBytes_sample : (mapBytes (shownItems (104 :: sampleBlock) sampleRecall.items)).length ≤ 100 := by
  rw [shownItems_sample]
  decide +kernel

theorem mapRun_sample : ∃ s, ToolServer.mapRun [.call sampleOp] (ToolServer.start 0 0 false) = some s ∧
    s.toolMem.Represents sampleRecall := by
  have hempty : (ToolServer.start 0 0 false).toolMem.Represents Recall.start := represents_empty 0 0 _
  obtain ⟨s, hstep, -, -, hrep⟩ := ToolServer.step_spec hempty sampleOp (by decide)
  refine ⟨s, ?_, hrep⟩
  rw [ToolServer.mapRun, List.foldlM_cons, ToolServer.mapStep, hstep]
  rfl

/-- The two calls are written with a prompt that shows their block, and loaded by a server that was just started. -/
theorem toolMap_round_trip_sample :
    ∃ s, ToolServer.mapRun [.call sampleOp] (ToolServer.start 0 0 false) = some s ∧
      ∃ items s₁ s₂ file t', items.Perm (shownItems (104 :: sampleBlock) sampleRecall.items) ∧
        s.kvToolMapSerializedSize (104 :: sampleBlock) = some (s₁, some file.length) ∧
        s₁.kvToolMapWrite 100 (104 :: sampleBlock) = some (s₂, some (file, file.length)) ∧
        s₂.toolMem.Represents sampleRecall ∧
        (ToolServer.start 0 0 false).kvToolMapLoadFromPos file none = some (t', (loadedItems none items).length) ∧
        t'.toolMem.Represents
          (Recall.start.putFromDisk (ToolMemory.empty 0 0).fits (loadedItems none items)) := by
  obtain ⟨s, hrun, hrep⟩ := mapRun_sample
  refine ⟨s, hrun, ?_⟩
  have hempty : (ToolServer.start 0 0 false).toolMem.Represents Recall.start := represents_empty 0 0 _
  have hlimit : ((shownItems (104 :: sampleBlock) sampleRecall.items).length : Int) ≤
      (ToolServer.start 0 0 false).toolMem.limitEntries * 4 := by
    rw [shownItems_sample]
    decide
  exact toolMap_round_trip 0 0 [.call sampleOp] (by decide) (by decide) hrun hrep rfl hempty (104 :: sampleBlock)
    sample_facts.2.2.1.1 storable_sample mapBytes_sample hlimit none

end RoundTrip

/-! ## A new start -/

section Restart

open ToolMemory

variable {items : List (List UInt8 × List UInt8)} {fits : List (List UInt8 × List UInt8) → Bool} {a : Recall}

/-- Calls with ids of their own, put in together where there is room for all, are all there. -/
theorem items_putFromDisk (hclosed : Lru.Closed fits) (hne : ∀ item ∈ items, item.1 ≠ [] ∧ item.2 ≠ [])
    (hkeys : ((items.reverse ++ a.items).map Prod.fst).Nodup) (hroom : fits (items.reverse ++ a.items) = true) :
    (a.putFromDisk fits items).items = items.reverse ++ a.items := by
  induction items generalizing a with
  | nil => rfl
  | cons item items ih =>
    obtain ⟨hid, hdsml⟩ := hne item List.mem_cons_self
    rw [List.reverse_cons, List.append_assoc] at hkeys hroom ⊢
    have hput : (a.put fits item.1 item.2 .disk).items = [item] ++ a.items := by
      have hkeys' : (([item] ++ a.items).map Prod.fst).Nodup := by
        rw [List.map_append] at hkeys
        exact (List.nodup_append.mp hkeys).2.1
      have hnew : item.1 ∉ a.items.map Prod.fst := (List.nodup_cons.mp hkeys').1
      have huse : Lru.use item.1 item.2 a.items = [item] ++ a.items := by
        rw [Lru.use, Lru.without_of_not_mem hnew]
        rfl
      have hfits : fits ([item] ++ a.items) = true :=
        hclosed _ _ (List.sublist_append_right items.reverse _).subperm hroom
      rw [Recall.items_put, if_neg (not_or.mpr ⟨hid, hdsml⟩), huse, Lru.prune_of_fits hfits]
    rw [Recall.putFromDisk, List.foldl_cons]
    show (Recall.putFromDisk fits (a.put fits item.1 item.2 .disk) items).items = _
    rw [ih (fun item hmem => hne item (List.mem_cons_of_mem _ hmem)) (by rw [hput]; exact hkeys)
      (by rw [hput]; exact hroom), hput]

theorem takeWhile_loadable (h : ∀ item ∈ items, loadable item = true) : items.takeWhile loadable = items :=
  List.takeWhile_eq_self_iff.mpr h

open ToolServer in
/-- A sampled text outlives its server. A map is written behind any run, a server that was started anew loads it, and
a request for calls of one block of the text gets that block back, if the items that the text shows fit the limits of
the new server and none of them is too long for its loader. -/
theorem restored_replayed (maxEntries maxEntries' : Int) (maxBytes maxBytes' : Nat) (ops : List MapOp)
    (hops : 2 * ops.length + 2 < 2 ^ 64) (hfits : ∀ op ∈ ops, op.Fits) {s : ToolServer} {a : Recall}
    (hs : (start maxEntries maxBytes false).mapRun ops = some s) (ha : s.toolMem.Represents a)
    (text : List UInt8) (htext : 0 ∉ text) (hitems : Storable (shownItems text a.items)) {room : Nat}
    (hdisk : (mapBytes (shownItems text a.items)).length ≤ room)
    (hloadable : ∀ item ∈ shownItems text a.items, loadable item = true)
    (hroom : (ToolMemory.empty maxEntries' maxBytes').fits (shownItems text a.items) = true)
    (msgs : List MessageCalls) (i : Nat) (ids : List (List UInt8)) (hmsg : msgs[i]? = some ⟨ids, none⟩)
    (hids : ids ≠ []) (dsml : List UInt8) (hfind : ∀ id ∈ ids, a.find id = some dsml)
    (hshown : dsml ∈ toolBlocks text) (wanted : Option (List (List UInt8)))
    (hwanted : ∀ id ∈ ids, askedFor wanted (id, dsml) = true) (stats : ToolReplayStats) :
    ∃ s' file t loaded t' msgs' stats', s.kvToolMapWrite room text = some (s', some (file, file.length)) ∧
      (start maxEntries' maxBytes' false).kvToolMapLoadFromPos file wanted = some (t, loaded) ∧
      t.attachToMessages msgs stats = some (t', msgs', stats') ∧ msgs'[i]? = some ⟨ids, some dsml⟩ := by
  obtain ⟨s₀, hrun, hsound⟩ := mapRun_sound (sound_start maxEntries maxBytes false) ops hfits (by omega)
  have hsame : s₀ = s := Option.some.inj (hrun.symm.trans hs)
  subst hsame
  obtain ⟨items, s', hperm, hwrite, -⟩ := write_spec hsound (by omega) ha htext hitems room
  rw [if_pos (by rwa [length_mapBytes_perm hperm])] at hwrite
  have hempty : (start maxEntries' maxBytes' false).toolMem.Represents Recall.start :=
    represents_empty maxEntries' maxBytes' _
  -- the limits leave room for all of them
  have hlimit : (items.length : Int) ≤ (start maxEntries' maxBytes' false).toolMem.limitEntries * 4 := by
    have hnonneg := limitEntries_nonneg (start maxEntries' maxBytes' false).toolMem
    have hfew : ((shownItems text a.items).length : Int) ≤ (ToolMemory.empty maxEntries' maxBytes').limitEntries := by
      rw [ToolMemory.fits, recallFits, Bool.and_eq_true, decide_eq_true_iff, decide_eq_true_iff] at hroom
      exact hroom.1
    have hsame : (start maxEntries' maxBytes' false).toolMem.limitEntries =
      (ToolMemory.empty maxEntries' maxBytes').limitEntries := rfl
    rw [hperm.length_eq]
    omega
  obtain ⟨t, hload, -, hon, hrep⟩ := load_spec rfl hempty (hitems.perm hperm)
    (fun item hmem => ha.text_fits (List.mem_of_mem_filter (hperm.mem_iff.mp hmem))) hlimit wanted
  obtain ⟨t', hattach, -⟩ := attachToMessages_spec hrep msgs stats
  rw [hon] at hattach
  refine ⟨s', mapBytes items, t, _, t', _, _, hwrite, hload, hattach, ?_⟩
  -- what was loaded is a part of what the text shows
  have hloaded : loadedItems wanted items = items.filter (askedFor wanted) := by
    rw [loadedItems, takeWhile_loadable fun item hmem => hloadable item (hperm.mem_iff.mp hmem)]
  have hsub : (items.filter (askedFor wanted)).Subperm (shownItems text a.items) :=
    (List.filter_sublist).subperm.trans hperm.subperm
  have hkeys : (a.items.map Prod.fst).Nodup := by
    obtain ⟨l, hkeeps, heq, -⟩ := ha
    rw [heq]
    exact hkeeps.keys
  have hkeysLoaded : (((items.filter (askedFor wanted)).reverse ++ Recall.start.items).map Prod.fst).Nodup := by
    rw [show Recall.start.items = [] from rfl, List.append_nil, List.map_reverse, List.nodup_reverse]
    have hshownKeys : ((shownItems text a.items).map Prod.fst).Nodup :=
      List.Nodup.sublist (List.filter_sublist.map _) hkeys
    have hitemKeys := (hperm.map Prod.fst).nodup_iff.mpr hshownKeys
    exact List.Nodup.sublist (List.filter_sublist.map _) hitemKeys
  have hroomLoaded : (ToolMemory.empty maxEntries' maxBytes').fits
      ((items.filter (askedFor wanted)).reverse ++ Recall.start.items) = true := by
    rw [show Recall.start.items = [] from rfl, List.append_nil]
    exact closed_recallFits _ _ _ _ ((List.reverse_perm _).subperm.trans hsub) hroom
  have hneLoaded : ∀ item ∈ items.filter (askedFor wanted), item.1 ≠ [] ∧ item.2 ≠ [] := by
    intro item hmem
    have hgood := hloadable item (hsub.subset hmem)
    rw [loadable, decide_eq_true_iff] at hgood
    exact ⟨hgood.1, hgood.2.2.1⟩
  have hall : (Recall.start.putFromDisk (start maxEntries' maxBytes' false).toolMem.fits
      (items.filter (askedFor wanted))).items = (items.filter (askedFor wanted)).reverse ++ Recall.start.items :=
    items_putFromDisk (closed_recallFits _ _) hneLoaded hkeysLoaded hroomLoaded
  have hfindLoaded : ∀ id ∈ ids, (Recall.start.putFromDisk (start maxEntries' maxBytes' false).toolMem.fits
      (loadedItems wanted items)).find id = some dsml := by
    intro id hid
    rw [Recall.find, hloaded, hall]
    apply (Lru.find_eq_some_iff hkeysLoaded).mpr
    have hmem : (id, dsml) ∈ a.items := (Lru.find_eq_some_iff hkeys).mp (hfind id hid)
    have hin : (id, dsml) ∈ items := by
      apply hperm.mem_iff.mpr
      exact List.mem_filter.mpr ⟨hmem, decide_eq_true hshown⟩
    apply List.mem_append_left
    exact List.mem_reverse.mpr (List.mem_filter.mpr ⟨hin, hwanted id hid⟩)
  have htextBack := Recall.replayText_eq_some.mpr ⟨hids, hfindLoaded⟩
  have hopen : Recall.Open ⟨ids, none⟩ = true := by simp [Recall.Open, hids]
  show (msgs.map _)[i]? = _
  rw [List.getElem?_map, hmsg, Option.map_some, Recall.attached, if_pos hopen]
  exact congrArg (fun text => some (MessageCalls.mk ids text)) htextBack

/-- The request answers the two calls in the other order. -/
theorem restored_replayed_sample :
    ∃ s, ToolServer.mapRun [.call sampleOp] (ToolServer.start 0 0 false) = some s ∧
      ∃ s' file t loaded t' msgs' stats',
        s.kvToolMapWrite 100 (104 :: sampleBlock) = some (s', some (file, file.length)) ∧
        (ToolServer.start 2 0 false).kvToolMapLoadFromPos file (some [[66], [65]]) = some (t, loaded) ∧
        t.attachToMessages [⟨[[66], [65]], none⟩] ⟨0, 0, 0, 0⟩ = some (t', msgs', stats') ∧
        msgs'[0]? = some ⟨[[66], [65]], some sampleBlock⟩ := by
  obtain ⟨s, hrun, hrep⟩ := mapRun_sample
  obtain ⟨-, -, ⟨htext, -⟩, hitems, -, hfits, hshown, hids⟩ := sample_facts
  refine ⟨s, hrun, ?_⟩
  exact restored_replayed 0 2 0 0 [.call sampleOp] (by decide) (by decide) hrun hrep (104 :: sampleBlock)
    htext storable_sample mapBytes_sample (by rw [shownItems_sample]; exact fun item hmem => (hitems item hmem).2)
    (by rw [shownItems_sample]; exact hfits) [⟨[[66], [65]], none⟩] 0 [[66], [65]] rfl (by decide) sampleBlock
    (fun id hid => (hids id hid).1) hshown (some [[66], [65]]) (fun id hid => (hids id hid).2) ⟨0, 0, 0, 0⟩

end Restart

end Spark.Server
