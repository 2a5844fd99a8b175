import Spark.Kv.Restore

/-!
# Loading again behind a failure

A call loads the entry that comes first. Where that fails, some branches remove the file and some leave it, and what
is left is found again.

* **`load_found`** — one call by what becomes of the entry it found.
* **`recovers_iff`** — a loadable entry is reached just where no entry that is left in place comes before all of them.
* **`kept_entry_hides_others`** — one that does.
-/

namespace Spark.Kv

open Server

variable {kc : KvStore} {req : LoadRequest} {dir : Directory} {prompt buffer : List UInt8} {e b : Entry}
  {listing : Listing} {now : UInt64}

/-! ## What becomes of an entry -/

/-- The session has its tokens, or the file is removed, or neither. -/
inductive Outcome where
  | loaded
  | discarded
  | kept
  deriving DecidableEq, Repr

/-- What a call makes of an entry that may be used for a prompt. -/
def outcome (req : LoadRequest) (prompt : List UInt8) (dir : Directory) (e : Entry) : Outcome :=
  match dir.lookup e.name with
  | none => .kept
  | some file =>
    let cached := (file.drop fixedBytes).take e.textBytes.toNat
    if kvStoreSha1BytesHex cached = e.sha ∧ cached <+: prompt then
      match req.loadPayload (file.drop (fixedBytes + e.textBytes.toNat)) e.payloadBytes with
      | none => .kept
      | some loaded => if (loaded : Int) = e.tokens.toInt32.toInt then .loaded else .discarded
    else .kept

/-- A call is not turned away before it searches. -/
structure Searches (kc : KvStore) (req : LoadRequest) (prompt : List UInt8) : Prop where
  enabled : kc.enabled = true
  quant : req.quantBits = 2 ∨ req.quantBits = 4
  given : req.promptText.map cString = some prompt

/-- An entry of the directory that a call may use. -/
structure Candidate (kc : KvStore) (req : LoadRequest) (prompt : List UInt8) (dir : Directory) (e : Entry) :
    Prop where
  searches : Searches kc req prompt
  mem : e ∈ dir.entries
  usable : Matches kc req.modelId req.quantBits req.ctx prompt e

/-- A call by what becomes of the entry it finds. -/
theorem load_found (hsearch : Searches kc req prompt)
    (hfind : kvStoreFindTextPrefix kc req.listing prompt req.modelId req.quantBits req.ctx dir = some e) :
    (outcome req prompt dir e = .loaded → 0 < (kvStoreTryLoadText kc req dir).1) ∧
    (outcome req prompt dir e = .discarded → kvStoreTryLoadText kc req dir = (0, kc, dir.unlink e.name)) ∧
    (outcome req prompt dir e = .kept → kvStoreTryLoadText kc req dir = (0, kc, dir)) := by
  obtain ⟨buffer, hbuffer, rfl⟩ := Option.map_eq_some_iff.mp hsearch.given
  obtain ⟨file, hdr, hlookup, hheader, -, rfl, hfits, hmatch⟩ := Restore.find_file hsearch.enabled hfind
  have hquant : ¬ (req.quantBits ≠ 2 ∧ req.quantBits ≠ 4) := by
    rcases hsearch.quant with hquant | hquant
    · exact fun hboth => hboth.1 hquant
    · exact fun hboth => hboth.2 hquant
  -- what the search asked for is asked again, and the file of an entry has its text
  have heligible := hmatch.1
  simp only [eligible, Bool.and_eq_true, decide_eq_true_eq] at heligible
  have hlength : ((file.drop fixedBytes).take e.textBytes.toNat).length = e.textBytes.toNat := by
    have hsize := hfits.2
    rw [List.length_take, List.length_drop]
    omega
  unfold kvStoreTryLoadText outcome
  rw [hbuffer, hlookup]
  dsimp only
  rw [if_neg (not_not.mpr hsearch.enabled), if_neg hquant, hfind]
  dsimp only
  rw [hlookup]
  dsimp only
  rw [hheader]
  dsimp only
  have htokens := Restore.tokens_ne_zero hheader
  by_cases hwhole : kvStoreSha1BytesHex ((file.drop fixedBytes).take e.textBytes.toNat) = e.sha ∧
      (file.drop fixedBytes).take e.textBytes.toNat <+: cString buffer
  · rw [if_pos hwhole, if_pos ⟨heligible.1.1.2, heligible.1.1.1.1, hlength, hwhole⟩]
    cases req.loadPayload (file.drop (fixedBytes + e.textBytes.toNat)) e.payloadBytes with
    | none => simp
    | some loaded =>
      dsimp only
      by_cases hcount : (loaded : Int) = e.tokens.toInt32.toInt
      · have hpositive : 0 < e.tokens.toInt32.toInt := by omega
        rw [if_pos hcount, if_pos hcount, if_pos hpositive]
        simpa [hcount] using hpositive
      · rw [if_neg hcount, if_neg hcount]
        simp
  · rw [if_neg hwhole, if_neg fun hall => hwhole hall.2.2.2]
    simp

/-! ## Calls -/

/-- What calls for one prompt return, each with the order in which the files are listed to it, and its time. -/
def tryLoads (kc : KvStore) (req : LoadRequest) (dir : Directory) : List (Listing × UInt64) → List Int
  | [] => []
  | (listing, now) :: calls =>
    let (loaded, kc, dir) := kvStoreTryLoadText kc { req with listing, now } dir
    loaded :: tryLoads kc req dir calls

/-- Where an entry can be loaded, one call more than there are entries is enough. -/
def Recovers (kc : KvStore) (req : LoadRequest) (prompt : List UInt8) (dir : Directory) : Prop :=
  (∃ e, Candidate kc req prompt dir e ∧ outcome req prompt dir e = .loaded) →
    ∀ calls, calls.length = dir.entries.length + 1 → ∃ n ∈ tryLoads kc req dir calls, 0 < n

/-- Where an entry can be loaded, no entry that is kept comes before all that can. -/
def KeptBehind (kc : KvStore) (req : LoadRequest) (prompt : List UInt8) (dir : Directory) : Prop :=
  (∃ e, Candidate kc req prompt dir e ∧ outcome req prompt dir e = .loaded) →
    ∀ e, Candidate kc req prompt dir e → outcome req prompt dir e = .kept →
      ∃ b, Candidate kc req prompt dir b ∧ outcome req prompt dir b = .loaded ∧ better b e = true

theorem lookup_unlink {name name' : List UInt8} (hne : name' ≠ name) :
    (dir.unlink name).lookup name' = dir.lookup name' := by
  ext file
  rw [lookup_iff_mem, lookup_iff_mem, Directory.unlink, List.mem_filter]
  simp [hne]

/-- The other entries stay what they are. -/
theorem outcome_unlink {name : List UInt8} (hne : e.name ≠ name) :
    outcome req prompt (dir.unlink name) e = outcome req prompt dir e := by
  rw [outcome, outcome, lookup_unlink hne]

theorem name_of_mem_unlink {name : List UInt8} (hmem : e ∈ (dir.unlink name).entries) : e.name ≠ name := by
  obtain ⟨file, hfile, hentry⟩ := List.mem_filterMap.mp hmem
  rw [(entryOf_name hentry).1]
  simpa using (List.mem_filter.mp hfile).2

/-- An entry that becomes of something else than the one that goes stays, and does not change. -/
theorem Candidate.unlink (he : Candidate kc req prompt dir e) (hb : Candidate kc req prompt dir b)
    (hne : outcome req prompt dir e ≠ outcome req prompt dir b) :
    Candidate kc req prompt (dir.unlink b.name) e ∧
      outcome req prompt (dir.unlink b.name) e = outcome req prompt dir e := by
  have hmem : e ∈ (dir.unlink b.name).entries := by
    rcases List.mem_cons.mp ((entries_unlink hb.mem).mem_iff.mp he.mem) with rfl | hmem
    · exact absurd rfl hne
    · exact hmem
  exact ⟨⟨he.searches, hmem, he.usable⟩, outcome_unlink (name_of_mem_unlink hmem)⟩

theorem Candidate.of_unlink (hb : Candidate kc req prompt dir b)
    (he : Candidate kc req prompt (dir.unlink b.name) e) :
    Candidate kc req prompt dir e ∧ outcome req prompt (dir.unlink b.name) e = outcome req prompt dir e :=
  ⟨⟨he.searches, (entries_unlink hb.mem).mem_iff.mpr (List.mem_cons_of_mem _ he.mem), he.usable⟩,
    outcome_unlink (name_of_mem_unlink he.mem)⟩

/-! ## Where it is reached -/

/-- A call loads an entry, or there is one less that it could not. -/
theorem call_progress (hbehind : KeptBehind kc req prompt dir)
    (hloadable : ∃ e, Candidate kc req prompt dir e ∧ outcome req prompt dir e = .loaded) (listing : Listing)
    (now : UInt64) :
    0 < (kvStoreTryLoadText kc { req with listing, now } dir).1 ∨
      ∃ b, Candidate kc req prompt dir b ∧ outcome req prompt dir b = .discarded ∧
        kvStoreTryLoadText kc { req with listing, now } dir = (0, kc, dir.unlink b.name) := by
  obtain ⟨e, he, hloaded⟩ := hloadable
  have hsearch := he.searches
  obtain ⟨b, hfind, hbest⟩ := @exists_best kc listing dir prompt req.modelId req.quantBits req.ctx e hsearch.enabled
    he.mem he.usable
  have hsearch' : Searches kc { req with listing, now } prompt := ⟨hsearch.enabled, hsearch.quant, hsearch.given⟩
  obtain ⟨hloads, hdiscards, -⟩ := load_found hsearch' hfind
  cases hout : outcome req prompt dir b with
  | loaded => exact .inl (hloads hout)
  | discarded => exact .inr ⟨b, ⟨hsearch, hbest.mem, hbest.usable⟩, hout, hdiscards hout⟩
  | kept =>
    obtain ⟨b', hb', -, hbetter⟩ := hbehind ⟨e, he, hloaded⟩ b ⟨hsearch, hbest.mem, hbest.usable⟩ hout
    have hmost := better_eq_false.mpr (hbest.most b' hb'.mem hb'.usable)
    rw [hmost] at hbetter
    cases hbetter

/-- What is removed was in no one's way. -/
theorem KeptBehind.unlink (hbehind : KeptBehind kc req prompt dir) (hb : Candidate kc req prompt dir b)
    (hdiscarded : outcome req prompt dir b = .discarded) : KeptBehind kc req prompt (dir.unlink b.name) := by
  rintro ⟨e, he, hloaded⟩ e' he' hkept
  obtain ⟨hedir, heout⟩ := hb.of_unlink he
  obtain ⟨hedir', heout'⟩ := hb.of_unlink he'
  obtain ⟨b', hb', hloaded', hbetter⟩ := hbehind ⟨e, hedir, heout ▸ hloaded⟩ e' hedir' (heout' ▸ hkept)
  obtain ⟨hstays, hsame⟩ := hb'.unlink hb (by rw [hloaded', hdiscarded]; decide)
  exact ⟨b', hstays, hsame.trans hloaded', hbetter⟩

theorem recovers_of_keptBehind (hbehind : KeptBehind kc req prompt dir) : Recovers kc req prompt dir := by
  intro hloadable calls hcalls
  induction calls generalizing dir with
  | nil => cases hcalls
  | cons call calls ih =>
    obtain ⟨listing, now⟩ := call
    rcases call_progress hbehind hloadable listing now with hloads | ⟨b, hb, hdiscarded, hcall⟩
    · exact ⟨_, List.mem_cons_self, hloads⟩
    · have hlength := (entries_unlink hb.mem).length_eq
      rw [List.length_cons] at hlength hcalls
      obtain ⟨e, he, hloaded⟩ := hloadable
      obtain ⟨hstays, hsame⟩ := he.unlink hb (by rw [hloaded, hdiscarded]; decide)
      obtain ⟨n, hn, hpositive⟩ := ih (hbehind.unlink hb hdiscarded) ⟨e, hstays, hsame.trans hloaded⟩ (by omega)
      refine ⟨n, ?_, hpositive⟩
      rw [tryLoads, hcall]
      exact List.mem_cons_of_mem _ hn

/-! ## Where it is not -/

/-- The files with one of them first. -/
def listedFirst (name : List UInt8) : Listing where
  order files := files.filter (fun file => file.1 = name) ++ files.filter fun file => ¬ file.1 = name
  perm files := by
    have hperm := List.filter_append_perm (fun file : List UInt8 × List UInt8 => decide (file.1 = name)) files
    simpa using hperm

theorem refresh_listedFirst (henabled : kc.enabled = true) (hmem : e ∈ dir.entries) :
    ∃ rest, kvCacheRefresh kc (listedFirst e.name) dir = e :: rest := by
  obtain ⟨⟨name, file⟩, hfile, hentry⟩ := List.mem_filterMap.mp hmem
  have hname : e.name = name := (entryOf_name hentry).1
  have hfirst : dir.files.filter (fun file => file.1 = e.name) = [(name, file)] := by
    have hperm := (perm_unlink hfile).filter fun file => decide (file.1 = e.name)
    have hothers : (dir.unlink name).files.filter (fun file => decide (file.1 = e.name)) = [] := by
      rw [List.filter_eq_nil_iff]
      intro entry hin
      have hout := (List.mem_filter.mp hin).2
      rw [hname]
      simpa using hout
    rw [List.filter_cons_of_pos (by simpa using hname.symm), hothers] at hperm
    exact List.perm_singleton.mp hperm
  rw [kvCacheRefresh, if_pos henabled]
  show ∃ rest, (dir.files.filter (fun file => file.1 = e.name) ++ _).filterMap entryOf = _
  rw [hfirst, List.singleton_append, List.filterMap_cons, hentry]
  exact ⟨_, rfl⟩

theorem better_trans {e' : Entry} (hbetter : better e' b = true) (hfirst : b = e ∨ better b e = true) :
    better e' e = true := by
  rcases hfirst with rfl | hfirst
  · exact hbetter
  · simp only [better, Bool.or_eq_true, Bool.and_eq_true, decide_eq_true_eq, UInt32.lt_iff_toNat_lt,
      ← UInt32.toNat_inj] at *
    omega

/-- The entry that is listed first gives way to one that comes before it only. -/
theorem find_listedFirst (henabled : kc.enabled = true) {modelId quantBits ctx : Int} (hmem : e ∈ dir.entries)
    (hmatch : Matches kc modelId quantBits ctx prompt e) :
    ∃ b, kvStoreFindTextPrefix kc (listedFirst e.name) prompt modelId quantBits ctx dir = some b ∧
      (b = e ∨ better b e = true) := by
  have hfold (rest : List Entry) (b : Entry) (hfirst : b = e ∨ better b e = true) :
      ∃ b', rest.foldl (fun best e =>
        if eligible kc modelId quantBits ctx prompt e && (best.all fun b => better e b) &&
          kvStoreSha1BytesHex (prompt.take e.textBytes.toNat) = e.sha then some e else best) (some b) = some b' ∧
        (b' = e ∨ better b' e = true) := by
    induction rest generalizing b with
    | nil => exact ⟨b, rfl, hfirst⟩
    | cons e' rest ih =>
      rw [List.foldl_cons]
      split
      case isTrue hyes =>
        simp only [Option.all_some, Bool.and_eq_true, decide_eq_true_eq] at hyes
        exact ih e' (.inr (better_trans hyes.1.2 hfirst))
      case isFalse => exact ih b hfirst
  obtain ⟨rest, hrefresh⟩ := refresh_listedFirst henabled hmem
  have hyes : (eligible kc modelId quantBits ctx prompt e && (Option.all (fun b => better e b) none) &&
      decide (kvStoreSha1BytesHex (prompt.take e.textBytes.toNat) = e.sha)) = true := by
    rw [hmatch.1, decide_eq_true hmatch.2]
    rfl
  rw [kvStoreFindTextPrefix, hrefresh, List.foldl_cons, if_pos hyes]
  exact hfold rest e (.inl rfl)

/-- An entry that is kept, and none that can be loaded comes before it. -/
structure InTheWay (kc : KvStore) (req : LoadRequest) (prompt : List UInt8) (dir : Directory) (e : Entry) : Prop where
  there : Candidate kc req prompt dir e
  kept : outcome req prompt dir e = .kept
  first : ∀ b, Candidate kc req prompt dir b → outcome req prompt dir b = .loaded → better b e = false

/-- A call loads nothing, and the entry stays in the way. -/
theorem InTheWay.call (h : InTheWay kc req prompt dir e) (now : UInt64) :
    ∃ dir', kvStoreTryLoadText kc { req with listing := listedFirst e.name, now } dir = (0, kc, dir') ∧
      InTheWay kc req prompt dir' e := by
  have hsearch := h.there.searches
  obtain ⟨b, hfind, hfirst⟩ := find_listedFirst hsearch.enabled h.there.mem h.there.usable
  have hfound := find_spec hsearch.enabled (listedFirst e.name) prompt req.modelId req.quantBits req.ctx dir
  rw [hfind] at hfound
  have hb : Candidate kc req prompt dir b := ⟨hsearch, hfound.mem, hfound.usable⟩
  have hsearch' : Searches kc { req with listing := listedFirst e.name, now } prompt :=
    ⟨hsearch.enabled, hsearch.quant, hsearch.given⟩
  obtain ⟨-, hdiscards, hkeeps⟩ := load_found hsearch' hfind
  cases hout : outcome req prompt dir b with
  | loaded =>
    rcases hfirst with rfl | hbetter
    · rw [h.kept] at hout
      cases hout
    · rw [h.first b hb hout] at hbetter
      cases hbetter
  | discarded =>
    obtain ⟨hstays, hsame⟩ := h.there.unlink hb (by rw [h.kept, hout]; decide)
    refine ⟨_, hdiscards hout, hstays, hsame.trans h.kept, fun b' hb' hloaded => ?_⟩
    obtain ⟨hdir, hsame'⟩ := hb.of_unlink hb'
    exact h.first b' hdir (hsame' ▸ hloaded)
  | kept => exact ⟨dir, hkeeps hout, h⟩

theorem InTheWay.run (h : InTheWay kc req prompt dir e) (n : Nat) :
    ∀ loaded ∈ tryLoads kc req dir (List.replicate n (listedFirst e.name, 0)), loaded = 0 := by
  induction n generalizing dir with
  | zero => exact fun loaded hmem => absurd hmem List.not_mem_nil
  | succ n ih =>
    obtain ⟨dir', hcall, hnext⟩ := h.call 0
    rw [List.replicate_succ, tryLoads, hcall]
    intro loaded hmem
    rcases List.mem_cons.mp hmem with rfl | hmem
    · rfl
    · exact ih hnext loaded hmem

theorem keptBehind_of_recovers (hrecovers : Recovers kc req prompt dir) : KeptBehind kc req prompt dir := by
  intro hloadable e he hkept
  by_contra hnone
  have hway : InTheWay kc req prompt dir e := by
    refine ⟨he, hkept, fun b hb hloaded => ?_⟩
    rw [← Bool.not_eq_true]
    exact fun hbetter => hnone ⟨b, hb, hloaded, hbetter⟩
  obtain ⟨n, hmem, hpositive⟩ := hrecovers hloadable (List.replicate (dir.entries.length + 1) (listedFirst e.name, 0))
    List.length_replicate
  rw [hway.run _ n hmem] at hpositive
  exact Int.lt_irrefl 0 hpositive

/-- An entry that can be loaded is reached just where no entry that is kept comes before all that can. -/
theorem recovers_iff (kc : KvStore) (req : LoadRequest) (prompt : List UInt8) (dir : Directory) :
    Recovers kc req prompt dir ↔ KeptBehind kc req prompt dir := ⟨keptBehind_of_recovers, recovers_of_keptBehind⟩

/-! ## One that is not -/

/-- The front of a payload: `DS4_SESSION_PAYLOAD_MAGIC` and its version. -/
def payloadFront : List UInt8 := leBytes 4 0x34565344 ++ leBytes 4 2

/-- A load by a session that refuses a payload that begins otherwise. -/
def askForAB : LoadRequest where
  quantBits := 4
  modelId := 0
  ctx := 4096
  promptText := some (bytes "ab")
  loadPayload := fun payload _ => if payload.take 8 = payloadFront then some 1 else none
  listing := asListed
  now := 0

/-- The file of a text of one token. -/
def textFile (text payload : List UInt8) : List UInt8 × List UInt8 :=
  (kvStorePathForSha (kvStoreSha1BytesHex text),
    newFile { oneHeader with textBytes := UInt32.ofNat text.length, payloadBytes := UInt64.ofNat payload.length }
      text payload [])

/-- The whole of the prompt under a payload that is refused, and its front under one that is not. -/
def abRefused : Directory where
  files := [textFile (bytes "ab") [0, 0, 0, 0], textFile (bytes "a") payloadFront]
  distinct := by decide +kernel

theorem abRefused_loadable : ∃ e, Candidate opened askForAB (bytes "ab") abRefused e ∧
    outcome askForAB (bytes "ab") abRefused e = .loaded := by
  have hsearches : Searches opened askForAB (bytes "ab") := ⟨rfl, .inr rfl, rfl⟩
  have hentry : ∃ e ∈ abRefused.entries, (eligible opened 0 4 4096 (bytes "ab") e = true ∧
      kvStoreSha1BytesHex ((bytes "ab").take e.textBytes.toNat) = e.sha) ∧
        outcome askForAB (bytes "ab") abRefused e = .loaded := by decide +kernel
  obtain ⟨e, hmem, hmatch, hloaded⟩ := hentry
  exact ⟨e, ⟨hsearches, hmem, hmatch⟩, hloaded⟩

/-- The longer entry is found by every call, and stays. -/
theorem kept_entry_hides_others : ¬ Recovers opened askForAB (bytes "ab") abRefused := by
  intro hrecovers
  have hlength : abRefused.entries.length = 2 := by decide +kernel
  have hcalls : tryLoads opened askForAB abRefused (List.replicate 3 (asListed, 0)) = [0, 0, 0] := by decide +kernel
  obtain ⟨n, hmem, hpositive⟩ := hrecovers abRefused_loadable (List.replicate 3 (asListed, 0)) (by rw [hlength]; rfl)
  rw [hcalls] at hmem
  simp only [List.mem_cons, List.not_mem_nil, or_false, or_self] at hmem
  omega

end Spark.Kv
