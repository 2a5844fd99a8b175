import Spark.Server.ToolRecall

/-!
# Replaying sampled tool calls

The server's calls into the tool memory, over whole runs: every run of them is a run of the map
`Recall`, never reads a dead pointer or loops, and stays within the limits (`toolMemory_run_refines`). A message
gets back exactly the text that all its ids were remembered with (`attachToMessages_spec`), and a
sampled text comes back for as long as what was used since fits the limits with it
(`remembered_replayed`).
-/

namespace Spark.Server

namespace Recall

variable {a : Recall} {id : List UInt8}

@[simp] theorem find_touch (a : Recall) (id id' : List UInt8) : (a.touch id).find id' = a.find id' :=
  Lru.find_touch

@[simp] theorem source_touch (a : Recall) (id : List UInt8) : (a.touch id).source = a.source := rfl

/-- All the ids, one after the other. -/
def touchAll (a : Recall) (ids : List (List UInt8)) : Recall := ids.foldl touch a

@[simp] theorem find_touchAll (a : Recall) (ids : List (List UInt8)) : (a.touchAll ids).find = a.find := by
  induction ids generalizing a with
  | nil => rfl
  | cons id ids ih =>
    funext id'
    show ((a.touch id).touchAll ids).find id' = a.find id'
    rw [ih, find_touch]

@[simp] theorem source_touchAll (a : Recall) (ids : List (List UInt8)) :
    (a.touchAll ids).source = a.source := by
  induction ids generalizing a with
  | nil => rfl
  | cons id ids ih => exact (ih (a.touch id)).trans rfl

/-- The text that all the ids were remembered with, if it is one. -/
def replayText (a : Recall) : List (List UInt8) → Option (List UInt8)
  | [] => none
  | id :: ids => (a.find id).bind fun dsml => if ids.all fun i => a.find i = some dsml then some dsml else none

theorem replayText_eq_some {ids : List (List UInt8)} {dsml : List UInt8} :
    a.replayText ids = some dsml ↔ ids ≠ [] ∧ ∀ id ∈ ids, a.find id = some dsml := by
  cases ids with
  | nil => simp [replayText]
  | cons id ids =>
    cases hfind : a.find id with
    | none => simp [replayText, hfind]
    | some d =>
      by_cases hd : d = dsml
      · subst hd
        simp [replayText, hfind]
      · have hne : ¬(∀ i ∈ id :: ids, a.find i = some dsml) := by
          intro hall
          have hid := hall id List.mem_cons_self
          rw [hfind] at hid
          exact hd (Option.some.inj hid)
        rw [and_iff_right (List.cons_ne_nil id ids), iff_false_right hne]
        have hno : a.replayText (id :: ids) ≠ some dsml := by
          intro hsome
          simp only [replayText, hfind, Option.bind_some] at hsome
          split at hsome
          · exact hd (Option.some.inj hsome)
          · exact absurd hsome (by simp)
        exact hno

/-- Whether the request leaves a message for the map to fill in. -/
def Open (calls : MessageCalls) : Bool := !decide (calls.ids = []) && calls.rawToolText.isNone

/-- A message with the text that its ids were remembered with. -/
def attached (a : Recall) (calls : MessageCalls) : MessageCalls :=
  if Open calls then { calls with rawToolText := a.replayText calls.ids } else calls

/-- How a message counts. -/
def counted (a : Recall) (stats : ToolReplayStats) (calls : MessageCalls) : ToolReplayStats :=
  if Open calls then
    if (a.replayText calls.ids).isSome then
      if calls.ids.any fun id => a.source id = .ram then { stats with mem := stats.mem + 1 }
      else { stats with disk := stats.disk + 1 }
    else
      { stats with canonical := stats.canonical + 1,
                   missingIds := stats.missingIds + calls.ids.countP fun id => (a.find id).isNone }
  else
    stats

/-- The ids that attaching looks up. -/
def lookedUp (msgs : List MessageCalls) : List (List UInt8) := (msgs.filter Open).flatMap fun calls => calls.ids

end Recall

namespace ToolServer

open ToolMemory

variable {m : ToolMemory} {a : Recall}

/-- What the loop over the calls of a message has found out after the ids `seen`. -/
structure Matching.Says (found : Matching) (m : ToolMemory) (a : Recall) (seen : List (List UInt8)) : Prop where
  missing : found.missing = seen.countP fun id => (a.find id).isNone
  source : found.matchedSource = .ram ↔ ∃ id ∈ seen, (a.find id).isSome ∧ a.source id = .ram
  unmatched : found.matched = none → (∀ id ∈ seen, a.find id = none) ∧ (found.exact = true ↔ seen = [])
  matched : ∀ p, found.matched = some p → ∃ b, m.blockAt p = some b ∧ (∃ id ∈ seen, a.find id = some b.dsml) ∧
    (found.exact = true ↔ ∀ id ∈ seen, a.find id = some b.dsml)

theorem says_nil : (⟨none, .disk, true, 0⟩ : Matching).Says m a [] where
  missing := rfl
  source := by simp
  unmatched _ := by simp
  matched p h := by simp at h

theorem Matching.Says.missed {found : Matching} {seen : List (List UInt8)} (h : found.Says m a seen)
    {id : List UInt8} (hid : a.find id = none) :
    Matching.Says { found with exact := false, missing := found.missing + 1 } m a (seen ++ [id]) where
  missing := by simp [h.missing, hid]
  source := by
    rw [h.source]
    simp only [List.mem_append, List.mem_singleton, or_and_right, exists_or, exists_eq_left, hid]
    simp
  unmatched hnone := by
    refine ⟨?_, by simp⟩
    intro i hi
    rcases List.mem_append.mp hi with hi | hi
    · exact (h.unmatched hnone).1 i hi
    · rw [List.mem_singleton.mp hi, hid]
  matched p hp := by
    obtain ⟨b, hb, ⟨i, hi, hfind⟩, -⟩ := h.matched p hp
    refine ⟨b, hb, ⟨i, List.mem_append_left _ hi, hfind⟩, ?_⟩
    constructor
    · intro hfalse
      exact absurd hfalse (by simp)
    · intro hall
      have hmine := hall id (by simp)
      rw [hid] at hmine
      exact absurd hmine (by simp)

/-- What the loop makes of a call that is found. -/
def Matching.hit (found : Matching) (source : ToolMemorySource) (block : Nat) : Matching :=
  let found' : Matching :=
    match found.matched with
    | none => { found with matched := some block, matchedSource := source }
    | some p => if p ≠ block then { found with exact := false } else found
  if source = .ram then { found' with matchedSource := .ram } else found'

theorem Matching.hit_source (found : Matching) (source : ToolMemorySource) (p : Nat) :
    (found.hit source p).matchedSource =
      if source = .ram ∨ found.matched = none then source else found.matchedSource := by
  unfold Matching.hit
  cases source with
  | ram => simp
  | disk =>
    cases hmatched : found.matched with
    | none => simp
    | some p' =>
      by_cases hp : p' = p
      · simp [hp]
      · simp [hp]

theorem Matching.hit_missing (found : Matching) (source : ToolMemorySource) (p : Nat) :
    (found.hit source p).missing = found.missing := by
  unfold Matching.hit
  cases hmatched : found.matched with
  | none => cases source <;> simp
  | some p' =>
    by_cases hp : p' = p
    · cases source <;> simp [hp]
    · cases source <;> simp [hp]

theorem Matching.hit_none {found : Matching} (source : ToolMemorySource) (p : Nat) (h : found.matched = none) :
    (found.hit source p).matched = some p ∧ (found.hit source p).exact = found.exact := by
  unfold Matching.hit
  rw [h]
  cases source <;> simp

theorem Matching.hit_some {found : Matching} (source : ToolMemorySource) {p p' : Nat}
    (h : found.matched = some p') :
    (found.hit source p).matched = some p' ∧
      (found.hit source p).exact = (found.exact && decide (p' = p)) := by
  unfold Matching.hit
  rw [h]
  by_cases hp : p' = p
  · cases source <;> simp [hp, h]
  · cases source <;> simp [hp]

theorem Matching.Says.hit {found : Matching} {seen : List (List UInt8)} (h : found.Says m a seen)
    {a' : Recall} (hrep : m.Represents a') {id : List UInt8} {p : Nat} {b : ToolMemoryBlock}
    (hb : m.blockAt p = some b) (hid : a.find id = some b.dsml) :
    (found.hit (a.source id) p).Says m a (seen ++ [id]) where
  missing := by
    rw [Matching.hit_missing, h.missing]
    simp [hid]
  source := by
    rw [Matching.hit_source]
    by_cases hram : a.source id = .ram
    · rw [if_pos (Or.inl hram)]
      exact ⟨fun _ => ⟨id, by simp, by simp [hid], hram⟩, fun _ => hram⟩
    · have hseen : (∃ i ∈ seen ++ [id], (a.find i).isSome ∧ a.source i = .ram) ↔
          ∃ i ∈ seen, (a.find i).isSome ∧ a.source i = .ram := by
        simp only [List.mem_append, List.mem_singleton, or_and_right, exists_or, exists_eq_left]
        simp [hram]
      rw [hseen]
      by_cases hnone : found.matched = none
      · rw [if_pos (Or.inr hnone)]
        constructor
        · exact fun hyes => absurd hyes hram
        · intro ⟨i, hi, hsome, _⟩
          rw [(h.unmatched hnone).1 i hi] at hsome
          exact absurd hsome (by simp)
      · rw [if_neg (not_or.mpr ⟨hram, hnone⟩)]
        exact h.source
  unmatched hnone := by
    cases hmatched : found.matched with
    | none =>
      rw [(Matching.hit_none (a.source id) p hmatched).1] at hnone
      exact absurd hnone (by simp)
    | some p' =>
      rw [(Matching.hit_some (a.source id) hmatched).1] at hnone
      exact absurd hnone (by simp)
  matched q hq := by
    cases hmatched : found.matched with
    | none =>
      -- the first call that is found
      obtain ⟨hall, hexact⟩ := h.unmatched hmatched
      obtain ⟨hp, hkeep⟩ := Matching.hit_none (a.source id) p hmatched
      obtain rfl := Option.some.inj (hp.symm.trans hq)
      refine ⟨b, hb, ⟨id, by simp, hid⟩, ?_⟩
      rw [hkeep, hexact]
      constructor
      · rintro rfl i hi
        rw [List.mem_singleton.mp hi, hid]
      · intro hsame
        apply List.eq_nil_iff_forall_not_mem.mpr
        intro i hi
        have hi' := hsame i (List.mem_append_left _ hi)
        rw [hall i hi] at hi'
        exact absurd hi' (by simp)
    | some p' =>
      obtain ⟨b', hb', ⟨i, hi, hfind⟩, hexact⟩ := h.matched p' hmatched
      obtain ⟨hp, hkeep⟩ := Matching.hit_some (p := p) (a.source id) hmatched
      obtain rfl := Option.some.inj (hp.symm.trans hq)
      refine ⟨b', hb', ⟨i, List.mem_append_left _ hi, hfind⟩, ?_⟩
      have hsame : p' = p ↔ b'.dsml = b.dsml := hrep.block_inj hb' hb
      rw [hkeep, Bool.and_eq_true, hexact, decide_eq_true_iff, hsame]
      constructor
      · intro ⟨hall, hbb⟩ j hj
        rcases List.mem_append.mp hj with hj | hj
        · exact hall j hj
        · rw [List.mem_singleton.mp hj, hid, hbb]
      · intro hall
        refine ⟨fun j hj => hall j (List.mem_append_left _ hj), ?_⟩
        have hmine := hall id (by simp)
        rw [hid] at hmine
        exact (Option.some.inj hmine).symm

/-- The loop over the calls of a message looks up each of them. -/
theorem matchCalls_spec (ids : List (List UInt8)) {seen : List (List UInt8)} {found : Matching}
    (hrep : m.Represents (a.touchAll seen)) (h : found.Says m a seen) :
    ∃ m' found', matchCalls ids m found = some (m', found') ∧ m'.Represents (a.touchAll (seen ++ ids)) ∧
      m'.fits = m.fits ∧ found'.Says m' a (seen ++ ids) := by
  induction ids generalizing m seen found with
  | nil => exact ⟨m, found, rfl, by simpa using hrep, rfl, by simpa using h⟩
  | cons id ids ih =>
    have hfind : (a.touchAll seen).find id = a.find id := by rw [Recall.find_touchAll]
    have hlast : a.touchAll (seen ++ [id]) = (a.touchAll seen).touch id := by
      simp [Recall.touchAll]
    cases hid : a.find id with
    | none =>
      rw [hid] at hfind
      have hlookup := hrep.lookup_none hfind
      have hmiss : Lru.find id (a.touchAll seen).items = none := hfind
      have hrep' : m.Represents (a.touchAll (seen ++ [id])) := by
        rw [hlast, Recall.touch, Lru.touch, hmiss]
        exact hrep
      obtain ⟨m', found', hloop, hend, hfits, htells⟩ := ih hrep' (h.missed hid)
      rw [List.append_assoc] at hend htells
      refine ⟨m', found', ?_, hend, hfits, htells⟩
      rw [matchCalls, hlookup]
      exact hloop
    | some dsml =>
      rw [hid] at hfind
      obtain ⟨m₁, p, b, hlookup, hrep₁, hfits₁, hblocks, hb, rfl⟩ := hrep.lookup_some hfind
      have htells₁ : (found.hit (a.source id) p).Says m₁ a (seen ++ [id]) := by
        have htells := h.hit hrep hb hid
        exact ⟨htells.missing, htells.source, htells.unmatched, fun q hq => hblocks ▸ htells.matched q hq⟩
      rw [← hlast] at hrep₁
      obtain ⟨m', found', hloop, hend, hfits, htells⟩ := ih hrep₁ htells₁
      rw [List.append_assoc] at hend htells
      refine ⟨m', found', ?_, hend, hfits.trans hfits₁, htells⟩
      rw [matchCalls, hlookup, Recall.source_touchAll]
      exact hloop

theorem attachCalls_spec (hrep : m.Represents a) (calls : MessageCalls) (stats : ToolReplayStats) :
    ∃ m', attachCalls m calls stats = some (m', a.attached calls, a.counted stats calls) ∧
      m'.fits = m.fits ∧ m'.Represents (a.touchAll (if Recall.Open calls then calls.ids else [])) := by
  by_cases hopen : Recall.Open calls = true
  · have hclosed : ¬(calls.ids = [] ∨ calls.rawToolText.isSome = true) := by
      rw [Recall.Open, Bool.and_eq_true] at hopen
      rintro (hids | hraw)
      · simp [hids] at hopen
      · rw [Option.isNone_iff_eq_none] at hopen
        rw [hopen.2] at hraw
        exact absurd hraw (by simp)
    have hraw : calls.rawToolText = none := by
      cases hraw : calls.rawToolText with
      | none => rfl
      | some raw => exact absurd (Or.inr (by simp [hraw])) hclosed
    have hrep₀ : m.Represents (a.touchAll []) := hrep
    obtain ⟨m', found, hloop, hrep', hfits, htells⟩ := matchCalls_spec calls.ids hrep₀ says_nil
    rw [List.nil_append] at hrep' htells
    refine ⟨m', ?_, hfits, by rwa [if_pos hopen]⟩
    have hids : calls.ids ≠ [] := fun hids => hclosed (Or.inl hids)
    rw [attachCalls, if_neg hclosed, hloop, Recall.attached, Recall.counted, if_pos hopen, if_pos hopen]
    cases hmatched : found.matched with
    | none =>
      -- no call is found, and then there is no text
      obtain ⟨hall, hexact⟩ := htells.unmatched hmatched
      have hfalse : found.exact = false := by
        cases hfound : found.exact with
        | false => rfl
        | true => exact absurd (hexact.mp hfound) hids
      have htext : a.replayText calls.ids = none := by
        apply Option.eq_none_iff_forall_not_mem.mpr
        intro dsml hdsml
        obtain ⟨-, hsame⟩ := Recall.replayText_eq_some.mp hdsml
        obtain ⟨id, hid⟩ := List.exists_mem_of_ne_nil _ hids
        have hfind := hsame id hid
        rw [hall id hid] at hfind
        exact absurd hfind (by simp)
      simp [hfalse, hmatched, htext, ← hraw, htells.missing]
    | some p =>
      obtain ⟨b, hb, ⟨i, hi, hfind⟩, hexact⟩ := htells.matched p hmatched
      cases hfound : found.exact with
      | false =>
        have htext : a.replayText calls.ids = none := by
          apply Option.eq_none_iff_forall_not_mem.mpr
          intro dsml hdsml
          obtain ⟨-, hsame⟩ := Recall.replayText_eq_some.mp hdsml
          have hmine := hsame i hi
          obtain rfl := Option.some.inj (hfind.symm.trans hmine)
          have htrue := hexact.mpr hsame
          rw [hfound] at htrue
          exact absurd htrue (by simp)
        simp [hfound, hmatched, htext, ← hraw, htells.missing]
      | true =>
        have hsame := hexact.mp hfound
        have htext : a.replayText calls.ids = some b.dsml := Recall.replayText_eq_some.mpr ⟨hids, hsame⟩
        have hram : found.matchedSource = .ram ↔ (calls.ids.any fun id => decide (a.source id = .ram)) = true := by
          rw [htells.source, List.any_eq_true]
          constructor
          · exact fun ⟨id, hid, _, hsrc⟩ => ⟨id, hid, decide_eq_true hsrc⟩
          · exact fun ⟨id, hid, hsrc⟩ => ⟨id, hid, by simp [hsame id hid], of_decide_eq_true hsrc⟩
        by_cases hsrc : found.matchedSource = .ram
        · simp [hfound, hmatched, htext, hb, hsrc, hram.mp hsrc]
        · have hno : (calls.ids.any fun id => decide (a.source id = .ram)) = false := by
            rw [← Bool.not_eq_true]
            exact fun hyes => hsrc (hram.mpr hyes)
          simp [hfound, hmatched, htext, hb, hsrc, hno]
  · have hclosed : calls.ids = [] ∨ calls.rawToolText.isSome = true := by
      rw [Recall.Open, Bool.and_eq_true, Bool.not_eq_true', Option.isNone_iff_eq_none] at hopen
      by_cases hids : calls.ids = []
      · exact Or.inl hids
      · right
        rw [Option.isSome_iff_ne_none]
        exact fun hraw => hopen ⟨by simpa using hids, hraw⟩
    refine ⟨m, ?_, rfl, by rwa [if_neg hopen]⟩
    rw [attachCalls, if_pos hclosed, Recall.attached, Recall.counted, if_neg hopen, if_neg hopen]

theorem attached_touchAll (ids : List (List UInt8)) : (a.touchAll ids).attached = a.attached := by
  have htext : (a.touchAll ids).replayText = a.replayText := by
    funext ids'
    cases ids' with
    | nil => rfl
    | cons id ids' => simp [Recall.replayText]
  funext calls
  rw [Recall.attached, Recall.attached, htext]

theorem counted_touchAll (ids : List (List UInt8)) : (a.touchAll ids).counted = a.counted := by
  have htext : (a.touchAll ids).replayText = a.replayText := by
    funext ids'
    cases ids' with
    | nil => rfl
    | cons id ids' => simp [Recall.replayText]
  funext stats calls
  rw [Recall.counted, Recall.counted, htext, Recall.source_touchAll, Recall.find_touchAll]

theorem attachLoop_spec (hrep : m.Represents a) (msgs : List MessageCalls) (stats : ToolReplayStats) :
    ∃ m', attachLoop msgs m stats = some (m', msgs.map a.attached, msgs.foldl a.counted stats) ∧
      m'.fits = m.fits ∧ m'.Represents (a.touchAll (Recall.lookedUp msgs)) := by
  induction msgs generalizing m a stats with
  | nil => exact ⟨m, rfl, rfl, hrep⟩
  | cons calls msgs ih =>
    obtain ⟨m₁, hcalls, hfits₁, hrep₁⟩ := attachCalls_spec hrep calls stats
    obtain ⟨m', hloop, hfits, hrep'⟩ := ih hrep₁ (a.counted stats calls)
    rw [attached_touchAll, counted_touchAll] at hloop
    refine ⟨m', ?_, hfits.trans hfits₁, ?_⟩
    · rw [attachLoop, hcalls]
      show (attachLoop msgs m₁ (a.counted stats calls)).bind _ = _
      rw [hloop]
      rfl
    · have hlooked : Recall.lookedUp (calls :: msgs) =
          (if Recall.Open calls then calls.ids else []) ++ Recall.lookedUp msgs := by
        by_cases hopen : Recall.Open calls = true
        · simp [Recall.lookedUp, hopen]
        · simp [Recall.lookedUp, hopen]
      rw [hlooked, Recall.touchAll, List.foldl_append]
      exact hrep'

/-- `tool_memory_remember`'s loop. -/
theorem putAll_spec (hrep : m.Represents a) {raw : List UInt8} (hraw : raw.length ≤ Rax.raxNodeMaxSize)
    {ids : List (List UInt8)} (hids : ∀ id ∈ ids, id.length ≤ Rax.raxNodeMaxSize) :
    ∃ m', putAll m raw ids = some m' ∧ m'.fits = m.fits ∧
      m'.Represents (ids.foldl (fun a id => a.put m.fits id raw .ram) a) := by
  induction ids generalizing m a with
  | nil => exact ⟨m, rfl, rfl, hrep⟩
  | cons id ids ih =>
    obtain ⟨m₁, hput, hfits₁, hrep₁⟩ := hrep.put (hids id List.mem_cons_self) hraw .ram
    obtain ⟨m', hloop, hfits, hrep'⟩ := ih hrep₁ fun id hmem => hids id (List.mem_cons_of_mem _ hmem)
    rw [hfits₁] at hrep'
    refine ⟨m', ?_, hfits.trans hfits₁, hrep'⟩
    rw [putAll, hput]
    exact hloop

end ToolServer

/-! ## Runs -/

/-- The calls of the server into its tool memory. -/
inductive ToolOp where
  | remember (calls : MessageCalls)
  | putSource (id dsml : List UInt8) (source : ToolMemorySource)
  | attach (msgs : List MessageCalls) (stats : ToolReplayStats)
  | hasId (id : List UInt8)

/-- What the call puts into the two trees fits one node of them. -/
def ToolOp.Fits : ToolOp → Prop
  | .remember calls =>
    calls.rawToolText.elim 0 List.length ≤ Rax.raxNodeMaxSize ∧ ∀ id ∈ calls.ids, id.length ≤ Rax.raxNodeMaxSize
  | .putSource id dsml _ => id.length ≤ Rax.raxNodeMaxSize ∧ dsml.length ≤ Rax.raxNodeMaxSize
  | _ => True

instance (op : ToolOp) : Decidable op.Fits := by
  cases op <;> unfold ToolOp.Fits <;> infer_instance

inductive ToolAnswer where
  | done
  | attached (msgs : List MessageCalls) (stats : ToolReplayStats)
  | has (found : Bool)

def ToolServer.step (s : ToolServer) : ToolOp → Option (ToolServer × ToolAnswer)
  | .remember calls => (s.remember calls).map fun s => (s, .done)
  | .putSource id dsml source => (s.putSource id dsml source).map fun s => (s, .done)
  | .attach msgs stats => (s.attachToMessages msgs stats).map fun r => (r.1, .attached r.2.1 r.2.2)
  | .hasId id => some (s, .has (s.hasId id))

def ToolServer.run : List ToolOp → ToolServer → Option (ToolServer × List ToolAnswer)
  | [], s => some (s, [])
  | op :: ops, s => do
    let (s, answer) ← s.step op
    let (s, answers) ← run ops s
    some (s, answer :: answers)

def ToolServer.start (maxEntries : Int) (maxBytes : Nat) (disabled : Bool) : ToolServer :=
  ⟨ToolMemory.empty maxEntries maxBytes, disabled⟩

namespace Recall

/-- The text a sampled message is remembered with, if there is one. -/
def sampledText (calls : MessageCalls) : Option (List UInt8) :=
  calls.rawToolText.bind fun raw => if raw = [] then none else some raw

/-- One call into the map; a server that does not replay leaves it alone. -/
def step (fits : List (List UInt8 × List UInt8) → Bool) (disabled : Bool) (a : Recall) :
    ToolOp → Recall × ToolAnswer
  | .remember calls =>
    (if disabled then a
     else (sampledText calls).elim a fun raw => calls.ids.foldl (fun a id => a.put fits id raw .ram) a, .done)
  | .putSource id dsml source => (if disabled then a else a.put fits id dsml source, .done)
  | .attach msgs stats =>
    if disabled then (a, .attached msgs (ToolServer.countCanonical msgs stats))
    else (a.touchAll (lookedUp msgs), .attached (msgs.map a.attached) (msgs.foldl a.counted stats))
  | .hasId id => (a, .has (a.find id).isSome)

def run (fits : List (List UInt8 × List UInt8) → Bool) (disabled : Bool) :
    List ToolOp → Recall → Recall × List ToolAnswer
  | [], a => (a, [])
  | op :: ops, a =>
    ((run fits disabled ops (a.step fits disabled op).1).1,
      (a.step fits disabled op).2 :: (run fits disabled ops (a.step fits disabled op).1).2)

end Recall

namespace ToolServer

open ToolMemory

variable {s : ToolServer} {a : Recall}

theorem remember_spec (hrep : s.toolMem.Represents a) {calls : MessageCalls}
    (hcalls : (ToolOp.remember calls).Fits) :
    ∃ s', s.remember calls = some s' ∧ s'.toolMem.fits = s.toolMem.fits ∧
      s'.disableExactDsmlToolReplay = s.disableExactDsmlToolReplay ∧
      s'.toolMem.Represents (a.step s.toolMem.fits s.disableExactDsmlToolReplay (.remember calls)).1 := by
  unfold remember Recall.step Recall.sampledText
  by_cases hdisabled : s.disableExactDsmlToolReplay = true
  · rw [if_pos hdisabled]
    exact ⟨s, rfl, rfl, rfl, by simpa [hdisabled] using hrep⟩
  · rw [if_neg hdisabled]
    obtain ⟨hlen, hids⟩ := hcalls
    cases hraw : calls.rawToolText with
    | none => exact ⟨s, rfl, rfl, rfl, by simpa [hdisabled, hraw] using hrep⟩
    | some raw =>
      rw [hraw] at hlen
      by_cases hempty : raw = []
      · exact ⟨s, if_pos hempty, rfl, rfl, by simpa [hdisabled, hraw, hempty] using hrep⟩
      · obtain ⟨m', hput, hfits, hrep'⟩ := putAll_spec hrep hlen hids
        refine ⟨{ s with toolMem := m' }, ?_, hfits, rfl, by simpa [hdisabled, hraw, hempty] using hrep'⟩
        show (if raw = [] then some s else _) = _
        rw [if_neg hempty, hput]
        rfl

theorem putSource_spec (hrep : s.toolMem.Represents a) {id dsml : List UInt8}
    (hid : id.length ≤ Rax.raxNodeMaxSize) (hdsml : dsml.length ≤ Rax.raxNodeMaxSize) (source : ToolMemorySource) :
    ∃ s', s.putSource id dsml source = some s' ∧ s'.toolMem.fits = s.toolMem.fits ∧
      s'.disableExactDsmlToolReplay = s.disableExactDsmlToolReplay ∧
      s'.toolMem.Represents (a.step s.toolMem.fits s.disableExactDsmlToolReplay (.putSource id dsml source)).1 := by
  unfold putSource Recall.step
  by_cases hdisabled : s.disableExactDsmlToolReplay = true
  · exact ⟨s, if_pos (Or.inl hdisabled), rfl, rfl, by simpa [hdisabled] using hrep⟩
  · obtain ⟨m', hput, hfits, hrep'⟩ := hrep.put hid hdsml source
    by_cases hempty : id = [] ∨ dsml = []
    · refine ⟨s, if_pos (Or.inr hempty), rfl, rfl, ?_⟩
      simpa [hdisabled, Recall.put, hempty] using hrep
    · refine ⟨{ s with toolMem := m' }, ?_, hfits, rfl, by simpa [hdisabled] using hrep'⟩
      rw [if_neg fun hor => hor.elim hdisabled hempty, hput]
      rfl

/-- Attaching: each message gets the text that all its ids were remembered with. -/
theorem attachToMessages_spec (hrep : s.toolMem.Represents a) (msgs : List MessageCalls)
    (stats : ToolReplayStats) :
    ∃ s', s.attachToMessages msgs stats = some (s',
        if s.disableExactDsmlToolReplay then msgs else msgs.map a.attached,
        if s.disableExactDsmlToolReplay then countCanonical msgs stats else msgs.foldl a.counted stats) ∧
      s'.toolMem.fits = s.toolMem.fits ∧
      s'.disableExactDsmlToolReplay = s.disableExactDsmlToolReplay ∧
      s'.toolMem.Represents (a.step s.toolMem.fits s.disableExactDsmlToolReplay (.attach msgs stats)).1 := by
  unfold attachToMessages Recall.step
  by_cases hdisabled : s.disableExactDsmlToolReplay = true
  · refine ⟨s, ?_, rfl, rfl, by simpa [hdisabled] using hrep⟩
    simp only [if_pos hdisabled]
  · obtain ⟨m', hloop, hfits, hrep'⟩ := attachLoop_spec hrep msgs stats
    refine ⟨{ s with toolMem := m' }, ?_, hfits, rfl, by simpa [hdisabled] using hrep'⟩
    simp only [if_neg hdisabled, hloop]
    rfl

theorem hasId_spec (hrep : s.toolMem.Represents a) (id : List UInt8) : s.hasId id = (a.find id).isSome := by
  cases hfind : a.find id with
  | none => simp [hasId, (hrep.findEntry_none hfind).1]
  | some dsml =>
    obtain ⟨e, x, b, hentry, -⟩ := hrep.entry_of_find hfind
    simp [hasId, hentry]

/-- One call is one call of the map. -/
theorem step_spec (hrep : s.toolMem.Represents a) (op : ToolOp) (hop : op.Fits) :
    ∃ s', s.step op = some (s', (a.step s.toolMem.fits s.disableExactDsmlToolReplay op).2) ∧
      s'.toolMem.fits = s.toolMem.fits ∧
      s'.disableExactDsmlToolReplay = s.disableExactDsmlToolReplay ∧
      s'.toolMem.Represents (a.step s.toolMem.fits s.disableExactDsmlToolReplay op).1 := by
  cases op with
  | remember calls =>
    obtain ⟨s', hs', hfits, hdisabled, hrep'⟩ := remember_spec hrep hop
    exact ⟨s', by rw [step, hs']; rfl, hfits, hdisabled, hrep'⟩
  | putSource id dsml source =>
    obtain ⟨s', hs', hfits, hdisabled, hrep'⟩ := putSource_spec hrep hop.1 hop.2 source
    exact ⟨s', by rw [step, hs']; rfl, hfits, hdisabled, hrep'⟩
  | attach msgs stats =>
    obtain ⟨s', hs', hfits, hdisabled, hrep'⟩ := attachToMessages_spec hrep msgs stats
    refine ⟨s', ?_, hfits, hdisabled, hrep'⟩
    rw [step, hs', Recall.step]
    by_cases hd : s.disableExactDsmlToolReplay = true
    · simp [hd]
    · simp [hd]
  | hasId id =>
    refine ⟨s, ?_, rfl, rfl, hrep⟩
    rw [step, hasId_spec hrep]
    rfl

theorem run_spec (hrep : s.toolMem.Represents a) (ops : List ToolOp) (hops : ∀ op ∈ ops, op.Fits) :
    ∃ s', run ops s = some (s', (a.run s.toolMem.fits s.disableExactDsmlToolReplay ops).2) ∧
      s'.toolMem.fits = s.toolMem.fits ∧
      s'.disableExactDsmlToolReplay = s.disableExactDsmlToolReplay ∧
      s'.toolMem.Represents (a.run s.toolMem.fits s.disableExactDsmlToolReplay ops).1 := by
  induction ops generalizing s a with
  | nil => exact ⟨s, rfl, rfl, rfl, hrep⟩
  | cons op ops ih =>
    obtain ⟨s₁, hstep, hfits₁, hdisabled₁, hrep₁⟩ := step_spec hrep op (hops op List.mem_cons_self)
    obtain ⟨s', hrun, hfits, hdisabled, hrep'⟩ := ih hrep₁ fun op hmem => hops op (List.mem_cons_of_mem _ hmem)
    rw [hfits₁, hdisabled₁] at hrun hrep'
    refine ⟨s', ?_, hfits.trans hfits₁, hdisabled.trans hdisabled₁, hrep'⟩
    rw [run, hstep]
    show (run ops s₁).bind _ = _
    rw [hrun]
    rfl

end ToolServer

namespace Recall

variable {a : Recall} {fits : List (List UInt8 × List UInt8) → Bool}

/-- The items that a call uses, in the map's own terms. -/
def uses : ToolOp → List (Lru.Op (List UInt8) (List UInt8))
  | .remember calls =>
    (sampledText calls).elim [] fun raw => (calls.ids.filter fun id => decide (id ≠ [])).map fun id => .use id raw
  | .putSource id dsml _ => if id = [] ∨ dsml = [] then [] else [.use id dsml]
  | .attach msgs _ => (lookedUp msgs).map .touch
  | .hasId _ => []

theorem items_touchAll (ids : List (List UInt8)) :
    (a.touchAll ids).items = Lru.run fits a.items (ids.map .touch) := by
  induction ids generalizing a with
  | nil => rfl
  | cons id ids ih => exact (ih (a := a.touch id)).trans rfl

theorem items_put (id dsml : List UInt8) (source : ToolMemorySource) :
    (a.put fits id dsml source).items =
      if id = [] ∨ dsml = [] then a.items else Lru.prune fits (Lru.use id dsml a.items) := by
  unfold put
  split
  · rfl
  · rfl

theorem items_putAll {raw : List UInt8} (hraw : raw ≠ []) (ids : List (List UInt8)) :
    (ids.foldl (fun a id => a.put fits id raw .ram) a).items =
      Lru.run fits a.items ((ids.filter fun id => decide (id ≠ [])).map fun id => .use id raw) := by
  induction ids generalizing a with
  | nil => rfl
  | cons id ids ih =>
    rw [List.foldl_cons, ih, items_put]
    by_cases hid : id = []
    · rw [if_pos (Or.inl hid), List.filter_cons_of_neg (by simpa using hid)]
    · rw [if_neg (not_or.mpr ⟨hid, hraw⟩), List.filter_cons_of_pos (by simpa using hid)]
      rfl

theorem items_step (op : ToolOp) : (a.step fits false op).1.items = Lru.run fits a.items (uses op) := by
  cases op with
  | remember calls =>
    cases hraw : sampledText calls with
    | none =>
      simp only [step, uses, hraw]
      rfl
    | some raw =>
      have hne : raw ≠ [] := by
        rintro rfl
        obtain ⟨raw, -, hsome⟩ := Option.bind_eq_some_iff.mp hraw
        split at hsome
        · exact absurd hsome (by simp)
        · rename_i hne
          exact hne (Option.some.inj hsome)
      simp only [step, uses, hraw]
      exact items_putAll hne calls.ids
  | putSource id dsml source =>
    show (a.put fits id dsml source).items = Lru.run fits a.items (if id = [] ∨ dsml = [] then [] else [.use id dsml])
    rw [items_put]
    split
    · rfl
    · rfl
  | attach msgs stats => exact items_touchAll (lookedUp msgs)
  | hasId id => rfl

theorem items_run (ops : List ToolOp) :
    (a.run fits false ops).1.items = Lru.run fits a.items (ops.flatMap uses) := by
  induction ops generalizing a with
  | nil => rfl
  | cons op ops ih =>
    rw [run, ih, items_step, List.flatMap_cons, Lru.run, Lru.run, Lru.run, List.foldl_append]

/-- A server that does not replay never changes its map. -/
theorem run_disabled (ops : List ToolOp) : (a.run fits true ops).1 = a := by
  induction ops generalizing a with
  | nil => rfl
  | cons op ops ih =>
    have hstep : (a.step fits true op).1 = a := by cases op <;> rfl
    rw [run, hstep, ih]

end Recall

/-- The limits hold of what a run of the map leaves. -/
theorem recallFits_run {maxEntries : Int} {maxBytes : Nat} {l : List (List UInt8 × List UInt8)}
    (hnil : recallFits maxEntries maxBytes [] = true) (hkeys : (l.map Prod.fst).Nodup)
    (hfits : recallFits maxEntries maxBytes l = true) (ops : List (Lru.Op (List UInt8) (List UInt8))) :
    ((Lru.run (recallFits maxEntries maxBytes) l ops).map Prod.fst).Nodup ∧
      recallFits maxEntries maxBytes (Lru.run (recallFits maxEntries maxBytes) l ops) = true := by
  induction ops generalizing l with
  | nil => exact ⟨hkeys, hfits⟩
  | cons op ops ih =>
    apply ih (Lru.keys_step op hkeys)
    cases op with
    | use id dsml => exact Lru.fits_prune hnil
    | touch id => exact closed_recallFits maxEntries maxBytes _ _ (Lru.touch_perm hkeys).subperm hfits

/-- The map of a server that just started. -/
def Recall.start : Recall := ⟨[], fun _ => .disk⟩

/-- Every run of the server's calls into its tool memory whose ids and texts fit one node of the trees ends
without a dead pointer, a loop, or a write behind the letters of a node. It answers what the map answers, and
leaves the map's entries behind. The counts are exact, and within the limits. -/
theorem toolMemory_run_refines (maxEntries : Int) (maxBytes : Nat) (disabled : Bool) (ops : List ToolOp)
    (hops : ∀ op ∈ ops, op.Fits) :
    ∃ s, ToolServer.run ops (ToolServer.start maxEntries maxBytes disabled) = some (s,
        (Recall.start.run (ToolMemory.empty maxEntries maxBytes).fits disabled ops).2) ∧
      s.toolMem.Represents (Recall.start.run (ToolMemory.empty maxEntries maxBytes).fits disabled ops).1 ∧
      s.toolMem.entries =
        (Recall.start.run (ToolMemory.empty maxEntries maxBytes).fits disabled ops).1.items.length ∧
      s.toolMem.bytes =
        recallCost (Recall.start.run (ToolMemory.empty maxEntries maxBytes).fits disabled ops).1.items ∧
      s.toolMem.entries ≤ (ToolMemory.empty maxEntries maxBytes).limitEntries ∧
      s.toolMem.bytes ≤ (ToolMemory.empty maxEntries maxBytes).limitBytes := by
  have hrep₀ : (ToolServer.start maxEntries maxBytes disabled).toolMem.Represents Recall.start :=
    ToolMemory.represents_empty maxEntries maxBytes _
  obtain ⟨s, hrun, -, -, hrep⟩ := ToolServer.run_spec hrep₀ ops hops
  refine ⟨s, hrun, hrep, ?_⟩
  obtain ⟨l, hkeeps, hitems, -⟩ := hrep
  have hitems' : (Recall.start.run (ToolMemory.empty maxEntries maxBytes).fits disabled ops).1.items =
      l.map s.toolMem.item := hitems
  have hfits : (ToolMemory.empty maxEntries maxBytes).fits (l.map s.toolMem.item) = true := by
    rw [← hitems']
    cases disabled with
    | true =>
      rw [Recall.run_disabled]
      exact ToolMemory.fits_nil _
    | false =>
      rw [Recall.items_run]
      exact (recallFits_run (l := []) (ToolMemory.fits_nil _) (by simp) (ToolMemory.fits_nil _) _).2
  rw [ToolMemory.fits, recallFits, Bool.and_eq_true, decide_eq_true_iff, decide_eq_true_iff] at hfits
  rw [hitems', hkeeps.entries, hkeeps.bytes, List.length_map]
  refine ⟨rfl, rfl, ?_, hfits.2⟩
  rw [List.length_map] at hfits
  exact hfits.1

/-- Two calls sampled as one block, a third one that has the first of them pruned, and a request for both blocks. -/
def memoryOps : List ToolOp :=
  [.remember ⟨[[1], [2]], some [7, 7]⟩, .putSource [3] [8] .disk,
    .attach [⟨[[1], [2]], none⟩, ⟨[[3]], none⟩] ⟨0, 0, 0, 0⟩, .hasId [1]]

theorem toolMemory_run_refines_sample :
    ∃ s, ToolServer.run memoryOps (ToolServer.start 2 0 false) =
        some (s, [.done, .done, .attached [⟨[[1], [2]], none⟩, ⟨[[3]], some [8]⟩] ⟨0, 1, 1, 1⟩, .has false]) ∧
      s.toolMem.entries = 2 ∧ s.toolMem.bytes = recallCost [([3], [8]), ([2], [7, 7])] := by
  obtain ⟨s, hrun, -, hentries, hbytes, -⟩ := toolMemory_run_refines 2 0 false memoryOps (by decide)
  exact ⟨s, hrun, hentries, hbytes⟩

/-- A sampled text comes back. After any calls `before`, the server remembers the sampled `calls`, and
makes any calls `after`. Then a request that holds a message with ids of these calls gets the sampled text
into that message: as long as what was used from the remembering on fits the limits together, and no id of
the message was remembered with another text. -/
theorem remembered_replayed (maxEntries : Int) (maxBytes : Nat) (before after : List ToolOp) (calls : MessageCalls)
    (hops : ∀ op ∈ before ++ .remember calls :: after, op.Fits)
    (raw : List UInt8) (hraw : calls.rawToolText = some raw) (hne : raw ≠ [])
    (hfits : (ToolMemory.empty maxEntries maxBytes).fits
      (Lru.used (ToolMemory.empty maxEntries maxBytes).fits
        (Recall.start.run (ToolMemory.empty maxEntries maxBytes).fits false before).1.items
        ((.remember calls :: after).flatMap Recall.uses)) = true)
    (msgs : List MessageCalls) (i : Nat) (ids : List (List UInt8)) (hmsg : msgs[i]? = some ⟨ids, none⟩)
    (hids : ids ≠ []) (hknown : ∀ id ∈ ids, id ≠ [] ∧ id ∈ calls.ids)
    (hsame : ∀ id ∈ ids, ∀ dsml, .use id dsml ∈ after.flatMap Recall.uses → dsml = raw)
    (stats : ToolReplayStats) :
    ∃ s answers s' msgs' stats',
      ToolServer.run (before ++ .remember calls :: after) (ToolServer.start maxEntries maxBytes false) =
        some (s, answers) ∧
      s.attachToMessages msgs stats = some (s', msgs', stats') ∧ msgs'[i]? = some ⟨ids, some raw⟩ := by
  have hrep₀ : (ToolServer.start maxEntries maxBytes false).toolMem.Represents Recall.start :=
    ToolMemory.represents_empty maxEntries maxBytes _
  obtain ⟨s, hrun, hfits', hdisabled, hrep⟩ := ToolServer.run_spec hrep₀ (before ++ .remember calls :: after) hops
  obtain ⟨s', hattach, -⟩ := ToolServer.attachToMessages_spec hrep msgs stats
  have hon : s.disableExactDsmlToolReplay = false := hdisabled
  rw [hon] at hattach
  refine ⟨s, _, s', _, _, hrun, hattach, ?_⟩
  have hitems : (Recall.start.run (ToolMemory.empty maxEntries maxBytes).fits false
        (before ++ .remember calls :: after)).1.items =
      Lru.run (ToolMemory.empty maxEntries maxBytes).fits
        (Recall.start.run (ToolMemory.empty maxEntries maxBytes).fits false before).1.items
        ((.remember calls :: after).flatMap Recall.uses) := by
    rw [Recall.items_run, Recall.items_run, List.flatMap_append, Lru.run_append]
  have hfind : ∀ id ∈ ids, (Recall.start.run (ToolMemory.empty maxEntries maxBytes).fits false
      (before ++ .remember calls :: after)).1.find id = some raw := by
    intro id hid
    rw [Recall.find, hitems]
    have hsampled : Recall.sampledText calls = some raw := by
      simp [Recall.sampledText, hraw, hne]
    have hremember : Recall.uses (.remember calls) =
        (calls.ids.filter fun id => decide (id ≠ [])).map fun id => .use id raw := by
      simp only [Recall.uses, hsampled]
      rfl
    have hmem : id ∈ calls.ids.filter fun id => decide (id ≠ []) := by
      simpa using ⟨(hknown id hid).2, (hknown id hid).1⟩
    obtain ⟨front, back, hsplit⟩ := List.append_of_mem hmem
    have huses : (.remember calls :: after).flatMap Recall.uses =
        (front.map fun id => .use id raw) ++
          .use id raw :: ((back.map fun id => .use id raw) ++ after.flatMap Recall.uses) := by
      rw [List.flatMap_cons, hremember, hsplit]
      simp
    rw [huses] at hfits ⊢
    apply Lru.find_run (closed_recallFits _ _) _ hfits
    · intro dsml hdsml
      rcases List.mem_append.mp hdsml with hback | hafter
      · obtain ⟨id', -, huse⟩ := List.mem_map.mp hback
        injection huse with _ hdsml
        exact hdsml.symm
      · exact hsame id hid dsml hafter
    · rw [Recall.items_run]
      exact Lru.keys_run _ (by simp [Recall.start])
  have htext := Recall.replayText_eq_some.mpr ⟨hids, hfind⟩
  have hopen : Recall.Open ⟨ids, none⟩ = true := by simp [Recall.Open, hids]
  show (msgs.map _)[i]? = _
  rw [List.getElem?_map, hmsg, Option.map_some, Recall.attached, if_pos hopen]
  exact congrArg (fun text => some (MessageCalls.mk ids text)) htext

/-- Two calls sampled as one block, another block after them, and the request that answers the two. -/
theorem remembered_replayed_sample :
    ∃ s answers s' msgs' stats',
      ToolServer.run ([] ++ .remember ⟨[[1], [2]], some [7, 7]⟩ :: [.putSource [3] [8] .disk])
        (ToolServer.start 3 0 false) = some (s, answers) ∧
      s.attachToMessages [⟨[[3]], none⟩, ⟨[[2], [1]], none⟩] ⟨0, 0, 0, 0⟩ = some (s', msgs', stats') ∧
      msgs'[1]? = some ⟨[[2], [1]], some [7, 7]⟩ :=
  remembered_replayed 3 0 [] [.putSource [3] [8] .disk] ⟨[[1], [2]], some [7, 7]⟩ (by decide) [7, 7] rfl (by decide)
    (by decide) [⟨[[3]], none⟩, ⟨[[2], [1]], none⟩] 1 [[2], [1]] rfl (by decide) (by decide)
    (by
      intro id hid dsml hdsml
      simp [Recall.uses] at hdsml hid
      simp [hdsml] at hid)
    ⟨0, 0, 0, 0⟩

end Spark.Server
