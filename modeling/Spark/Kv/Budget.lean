import Spark.Kv.Entries

/-!
# The budget of the disk cache

Every new checkpoint is stored behind an eviction pass that makes room for it. The trailer of one that is
there already is written anew without a pass.

* **`kvStoreEvict_spec`** — the pass ends, and leaves no more than it is told to.
* **`kept_of_fits`** — every run whose steps leave room for a trailer keeps to the budget.
* **`trailer_breaks_budget`** — not every run does.
-/

namespace Spark.Kv

open Server

variable {kc : KvStore} {dir dir' : Directory} {name file : List UInt8} {e : Entry} {score : Entry → Float}

/-! ## The eviction pass -/

theorem victimOf_lt (first : Entry) (rest : List Entry) : victimOf score first rest < (first :: rest).length := by
  have hfold {entries : List (Entry × Nat)} {victim : Nat × Entry} {n : Nat} (hvictim : victim.1 < n)
      (hentries : ∀ entry ∈ entries, entry.2 < n) : (entries.foldl (fun (victim : Nat × Entry) (e : Entry × Nat) =>
        if score e.1 < score victim.2 ∨ (score e.1 == score victim.2 ∧ e.1.lastUsed < victim.2.lastUsed) then
          (e.2, e.1)
        else victim) victim).1 < n := by
    induction entries generalizing victim with
    | nil => exact hvictim
    | cons entry entries ih =>
      obtain ⟨hentry, hentries⟩ := List.forall_mem_cons.mp hentries
      rw [List.foldl_cons]
      refine ih ?_ hentries
      split
      · exact hentry
      · exact hvictim
  refine hfold (Nat.succ_pos _) fun entry hentry => ?_
  have hlt := List.snd_lt_add_of_mem_zipIdx hentry
  rw [List.length_cons]
  omega

/-- An entry of the directory and the others. -/
theorem entries_unlink (hmem : e ∈ dir.entries) : dir.entries.Perm (e :: (dir.unlink e.name).entries) := by
  obtain ⟨⟨name, file⟩, hfile, hentry⟩ := List.mem_filterMap.mp hmem
  rw [(entryOf_name hentry).1]
  have hperm := (perm_unlink hfile).filterMap entryOf
  rwa [List.filterMap_cons, hentry] at hperm

theorem total_entries (hmem : e ∈ dir.entries) : dir.total = e.fileSize + (dir.unlink e.name).total := by
  rw [Directory.total, ((entries_unlink hmem).map Entry.fileSize).sum_nat, List.map_cons, List.sum_cons]
  rfl

/-- The loop ends, and leaves no more than the target. -/
theorem evictLoop_spec (score : Entry → Float) (target : Nat) {fuel : Nat} {entries : List Entry}
    (hperm : entries.Perm dir.entries) (hfuel : entries.length < fuel) :
    ∃ dir', evictLoop score target fuel dir.total entries dir = some dir' ∧ dir'.total ≤ target := by
  induction fuel generalizing entries dir with
  | zero => exact absurd hfuel (Nat.not_lt_zero _)
  | succ fuel ih =>
    cases entries with
    | nil =>
      refine ⟨dir, rfl, ?_⟩
      rw [Directory.total, List.nil_perm.mp hperm]
      exact Nat.zero_le _
    | cons first rest =>
      rw [evictLoop]
      split
      case isFalse hle => exact ⟨dir, rfl, not_lt.mp hle⟩
      case isTrue =>
        have hlt := @victimOf_lt score first rest
        generalize victimOf score first rest = victim at hlt
        have hget : (first :: rest).getD victim first = (first :: rest)[victim] := by
          rw [List.getD_eq_getElem?_getD, List.getElem?_eq_getElem hlt, Option.getD_some]
        have hsplit := List.getElem_cons_eraseIdx_perm hlt
        simp only [hget]
        generalize (first :: rest)[victim] = e at hsplit
        have hmem : e ∈ dir.entries := (hsplit.trans hperm).subset List.mem_cons_self
        have htotal := total_entries hmem
        have hlater : ((first :: rest).eraseIdx victim).Perm (dir.unlink e.name).entries :=
          (hsplit.trans (hperm.trans (entries_unlink hmem))).cons_inv
        have hlength := hsplit.length_eq
        rw [List.length_cons] at hlength
        have hrest : (if dir.total ≥ e.fileSize then dir.total - e.fileSize else 0) = (dir.unlink e.name).total := by
          rw [if_pos (by omega)]
          omega
        rw [hrest]
        exact ih hlater (by omega)

theorem totalBytes_eq (entries : List Entry) : totalBytes entries = (entries.map Entry.fileSize).sum % 2 ^ 64 := by
  have hfold (total : Nat) : entries.foldl (fun total e => (total + e.fileSize) % 2 ^ 64) (total % 2 ^ 64) =
      (total + (entries.map Entry.fileSize).sum) % 2 ^ 64 := by
    induction entries generalizing total with
    | nil => rfl
    | cons e entries ih =>
      rw [List.foldl_cons, Nat.mod_add_mod, ih, List.map_cons, List.sum_cons, Nat.add_assoc]
  have hzero := hfold 0
  rwa [Nat.zero_mod, Nat.zero_add] at hzero

theorem refresh_perm (henabled : kc.enabled = true) (listing : Listing) (dir : Directory) :
    (kvCacheRefresh kc listing dir).Perm dir.entries := by
  rw [kvCacheRefresh, if_pos henabled]
  exact (listing.perm dir.files).filterMap entryOf

/-- The pass ends, and leaves room for what is to come. -/
theorem kvStoreEvict_spec (henabled : kc.enabled = true) (hbudget : kc.budgetBytes ≠ 0) (listing : Listing)
    (now : UInt64) {extra : Nat} (hextra : extra ≤ kc.budgetBytes) (incoming : Option EvictionContext)
    (htotal : dir.total < 2 ^ 64) :
    ∃ dir', kvStoreEvict kc listing now extra incoming dir = some dir' ∧ dir'.total + extra ≤ kc.budgetBytes := by
  have hperm := refresh_perm henabled listing dir
  have hsum : totalBytes (kvCacheRefresh kc listing dir) = dir.total := by
    rw [totalBytes_eq, (hperm.map Entry.fileSize).sum_nat]
    exact Nat.mod_eq_of_lt htotal
  obtain ⟨dir', hloop, hle⟩ := evictLoop_spec (kvStoreEntryEvictionScore now incoming) (kc.budgetBytes - extra) hperm
    (Nat.lt_succ_self _)
  refine ⟨dir', ?_, by omega⟩
  rw [kvStoreEvict, if_neg (by simp [henabled, hbudget]), if_neg (not_lt.mpr hextra)]
  simp only [hsum]
  exact hloop

/-! ## Files that are changed in place -/

variable {h h' : Header} {sha back : List UInt8}

/-- A header over what a file has behind its own is read, where the two agree on the length of the text. -/
theorem readHeader_refill (hread : kvStoreReadHeader file = some h) (hvalid : h'.Valid)
    (htext : h'.textBytes = h.textBytes) {keep : Nat} (hkeep : fixedBytes ≤ keep) (back : List UInt8) :
    kvStoreReadHeader (kvStoreFillHeader h' ++ ((file.take keep).drop kvstoreFixedHeader ++ back)) = some h' := by
  obtain ⟨-, hlength, hsplit⟩ := readHeader_some hread
  have hdrop : (file.take keep).drop kvstoreFixedHeader =
      leBytes 4 h'.textBytes.toNat ++ (file.drop fixedBytes).take (keep - fixedBytes) := by
    have hlong : (file.take kvstoreFixedHeader).length = kvstoreFixedHeader := by
      rw [List.length_take]
      unfold fixedBytes at hlength
      omega
    have hfour := length_leBytes 4 h.textBytes.toNat
    rw [htext]
    nth_rewrite 1 [hsplit]
    rw [List.take_append, List.drop_append, hlong, List.take_of_length_le (by unfold fixedBytes at hkeep; omega),
      List.drop_of_length_le hlong.le, List.nil_append, hlong, Nat.sub_self, List.drop_zero, List.take_append, hfour,
      List.take_of_length_le (by unfold fixedBytes at hkeep; omega)]
    congr 2
  rw [hdrop, List.append_assoc]
  exact readHeader_fill hvalid _

/-- A file under the name of an entry adds its length, where the header allows. -/
theorem entrySize_of_header (hname : kvStoreShaHexName name = some sha) (hread : kvStoreReadHeader file = some h)
    (hfits : h.Fits file.length) : entrySize (name, file) = file.length := by
  have hentry : entryOf (name, file) = some { h with sha := sha, name := name, fileSize := file.length } := by
    rw [entryOf, hname, Option.bind_some, readEntryFile_eq hread, if_pos hfits]
  rw [entrySize, hentry]
  rfl

theorem entrySize_of_not_fits (hread : kvStoreReadHeader file = some h) (hfits : ¬ h.Fits file.length) :
    entrySize (name, file) = 0 := by
  have hentry : entryOf (name, file) = none := by
    rw [entryOf]
    cases kvStoreShaHexName name with
    | none => rfl
    | some sha => rw [Option.bind_some, readEntryFile_eq hread, if_neg hfits]
  rw [entrySize, hentry]
  rfl

/-- Touching a file changes no size. -/
theorem total_touch (dir : Directory) (name : List UInt8) (hits : UInt32) (now : UInt64) :
    (kvStoreTouchFile dir name hits now).2.total = dir.total := by
  rw [kvStoreTouchFile]
  cases hlookup : dir.lookup name with
  | none => rfl
  | some file =>
    cases hread : kvStoreReadHeader file with
    | none => simp only [hread]
    | some h =>
      obtain ⟨hvalid, hlength, -⟩ := readHeader_some hread
      have hkeep : fixedBytes ≤ file.length := hlength
      simp only [hread]
      have hback := @readHeader_refill file h { h with hits := hits, lastUsed := now } hread
        ⟨hvalid.tokens, hvalid.quant, hvalid.reason⟩ rfl file.length hkeep []
      rw [List.take_length, List.append_nil] at hback
      have hsame : (kvStoreFillHeader { h with hits := hits, lastUsed := now } ++
          file.drop kvstoreFixedHeader).length = file.length := by
        rw [List.length_append, length_fillHeader, List.length_drop]
        unfold fixedBytes at hlength
        omega
      rw [total_write, total_unlink (mem_of_lookup hlookup), Nat.add_right_cancel_iff]
      by_cases hfits : h.Fits file.length
      · cases hname : kvStoreShaHexName name with
        | none =>
          rw [entrySize, entrySize, entryOf, entryOf, hname]
          rfl
        | some sha =>
          rw [entrySize_of_header hname hread hfits, entrySize_of_header hname hback (hsame ▸ hfits), hsame]
      · rw [entrySize_of_not_fits hread hfits, entrySize_of_not_fits hback (hsame ▸ hfits)]

/-! ## A new trailer -/

/-- What stands behind the payload of an entry is replaced by the new trailer. -/
theorem total_rewriteTrailer {path trailer : List UInt8} {extFlag : UInt8} {now : UInt64}
    (hlookup : dir.lookup path = some file) (hname : kvStoreShaHexName path = some sha)
    (hread : kvStoreReadEntryFile path sha file = some e) (htrailer : trailer ≠ [])
    (hend : fixedBytes + e.textBytes.toNat + e.payloadBytes.toNat ≤ int64Max) :
    (kvCacheRewriteTrailer path trailer extFlag now dir).total + file.length =
      dir.total + (fixedBytes + e.textBytes.toNat + e.payloadBytes.toNat + trailer.length) := by
  obtain ⟨h, hheader, hfits, rfl⟩ := readEntryFile_some hread
  obtain ⟨hvalid, -, -⟩ := readHeader_some hheader
  obtain ⟨hmax, hsize⟩ := hfits
  simp only at hend ⊢
  have hback := @readHeader_refill file h { h with extFlags := h.extFlags ||| extFlag, lastUsed := now } hheader
    ⟨hvalid.tokens, hvalid.quant, hvalid.reason⟩ rfl (fixedBytes + h.textBytes.toNat + h.payloadBytes.toNat)
    (by omega) trailer
  have hlength : (kvStoreFillHeader { h with extFlags := h.extFlags ||| extFlag, lastUsed := now } ++
      ((file.take (fixedBytes + h.textBytes.toNat + h.payloadBytes.toNat)).drop kvstoreFixedHeader ++
        trailer)).length = fixedBytes + h.textBytes.toNat + h.payloadBytes.toNat + trailer.length := by
    rw [List.length_append, List.length_append, length_fillHeader, List.length_drop, List.length_take]
    unfold fixedBytes at *
    omega
  rw [kvCacheRewriteTrailer, if_neg htrailer, hlookup]
  simp only [hheader]
  rw [if_pos hend, total_write, total_unlink (mem_of_lookup hlookup),
    entrySize_of_header hname hheader ⟨hmax, hsize⟩, entrySize_of_header hname hback ⟨hmax, ?_⟩, hlength]
  · omega
  · rw [hlength]
    exact Nat.le_add_right _ _

/-! ## Storing -/

variable {req : StoreRequest} {tokens : List Int} {trailer text : List UInt8}

/-- An open store keeps to its budget. -/
structure Within (kc : KvStore) (dir : Directory) : Prop where
  budget : kc.budgetBytes ≠ 0 ∧ kc.budgetBytes < 2 ^ 64
  total : dir.total ≤ kc.budgetBytes

/-- A new checkpoint has room. -/
theorem storeFresh_within (henabled : kc.enabled = true) (hwithin : Within kc dir) (storeTokens : List Int)
    (path : List UInt8) : ∃ ok dir', storeFresh kc req storeTokens path text trailer dir = some (ok, dir') ∧
      dir'.total ≤ kc.budgetBytes ∧ (ok = true → (dir'.lookup path).isSome) := by
  obtain ⟨⟨hzero, hword⟩, htotal⟩ := hwithin
  unfold storeFresh
  cases req.payload with
  | none => exact ⟨false, dir, rfl, htotal, by simp⟩
  | some payload =>
    simp only
    cases hfits : kvStoreFileSizeFits kc text.length payload.length trailer.length with
    | none => exact ⟨false, dir, rfl, htotal, by simp⟩
    | some size =>
      obtain ⟨hsize, -, hle⟩ := sizeFits_some hfits
      obtain ⟨rest, hevict, hroom⟩ := @kvStoreEvict_spec kc dir henabled hzero req.listing req.evictNow size (hle hzero)
        (some ⟨text, toByte req.modelId, toByte req.quantBits, toWord req.ctx, kc.rejectDifferentQuant⟩) (by omega)
      simp only [hevict, Option.map_some]
      refine ⟨true, _, rfl, ?_, fun _ => ?_⟩
      · -- the file takes no more than was made free
        rw [total_write]
        refine Nat.le_trans (Nat.add_le_add (entrySize_le _) (total_unlink_le _ _)) ?_
        rw [total_eq, unlink_write, ← total_eq]
        have hrest := total_unlink_le rest (tmpName path req.pid)
        simp only [length_newFile]
        omega
      · rw [lookup_write]
        rfl

/-- The trailer of an entry that may stay has room: it is no longer than the one it replaces, but for what the
budget has left. -/
def TrailerFits (kc : KvStore) (req : StoreRequest) (dir : Directory) : Prop :=
  ∀ tokens trailer file e, Accepted kc req tokens trailer → dir.lookup (req.path tokens) = some file →
    kvStoreReadEntryFile (req.path tokens) (req.key tokens) file = some e →
      compatible kc req (req.key tokens) (req.storeText tokens) file e = true → trailer ≠ [] →
        dir.total + (fixedBytes + e.textBytes.toNat + e.payloadBytes.toNat + trailer.length) ≤
          kc.budgetBytes + file.length

theorem total_rewrite_le {path trailer sha : List UInt8} {extFlag : UInt8} {now : UInt64}
    (hlookup : dir.lookup path = some file) (hname : kvStoreShaHexName path = some sha)
    (hread : kvStoreReadEntryFile path sha file = some e) {budget : Nat} (htotal : dir.total ≤ budget)
    (hfits : trailer ≠ [] → dir.total + (fixedBytes + e.textBytes.toNat + e.payloadBytes.toNat + trailer.length) ≤
      budget + file.length) : (kvCacheRewriteTrailer path trailer extFlag now dir).total ≤ budget := by
  by_cases htrailer : trailer = []
  · rw [kvCacheRewriteTrailer, if_pos htrailer]
    exact htotal
  by_cases hend : fixedBytes + e.textBytes.toNat + e.payloadBytes.toNat ≤ int64Max
  · have hsum := @total_rewriteTrailer dir file e sha path trailer extFlag now hlookup hname hread htrailer hend
    have hroom := hfits htrailer
    omega
  · obtain ⟨h, hheader, -, rfl⟩ := readEntryFile_some hread
    rw [kvCacheRewriteTrailer, if_neg htrailer, hlookup]
    simp only [hheader]
    rw [if_neg hend]
    exact htotal

theorem lookup_rewrite {path trailer : List UInt8} {extFlag : UInt8} {now : UInt64}
    (hlookup : dir.lookup path = some file) :
    ((kvCacheRewriteTrailer path trailer extFlag now dir).lookup path).isSome := by
  have hthere : (dir.lookup path).isSome := by rw [hlookup]; rfl
  unfold kvCacheRewriteTrailer
  split
  case isTrue => exact hthere
  case isFalse =>
    rw [hlookup]
    simp only
    split
    case h_1 => exact hthere
    case h_2 =>
      split
      case isTrue =>
        rw [lookup_write]
        rfl
      case isFalse => exact hthere

/-- A store keeps to the budget where a new trailer has room, and its file is there when it says so. -/
theorem store_within (henabled : kc.enabled = true) (hwithin : Within kc dir) (hfits : TrailerFits kc req dir) :
    ∃ ok dir', kvStoreStoreLivePrefixText kc req dir = some (ok, dir') ∧ dir'.total ≤ kc.budgetBytes ∧
      (ok = true → ∃ tokens, req.tokens = some tokens ∧ (dir'.lookup (req.path tokens)).isSome) := by
  rcases store_cases kc req dir with hnone | ⟨tokens, trailer, haccepted, hstore⟩
  · exact ⟨false, dir, hnone, hwithin.total, by simp⟩
  rw [hstore]
  rcases existing_cases kc req (req.path tokens) (req.key tokens) (req.storeText tokens) dir with
    ⟨file, e, hexisting, hlookup, hread, hcompatible⟩ | ⟨dir', hexisting, hdir, -⟩
  · rw [hexisting]
    refine ⟨true, _, rfl, ?_, fun _ => ⟨tokens, haccepted.given, lookup_rewrite hlookup⟩⟩
    exact total_rewrite_le hlookup (shaHexName_path _) hread hwithin.total
      (hfits tokens trailer file e haccepted hlookup hread hcompatible)
  · rw [hexisting]
    have hless : dir'.total ≤ dir.total := by
      rcases hdir with rfl | rfl
      · exact Nat.le_refl _
      · exact total_unlink_le _ _
    obtain ⟨ok, dir'', hfresh, htotal, hthere⟩ := @storeFresh_within kc dir' req trailer (req.storeText tokens) henabled
      ⟨hwithin.budget, hless.trans hwithin.total⟩ (kvStoreTokensCopyPrefix tokens req.storeLen) (req.path tokens)
    exact ⟨ok, dir'', hfresh, htotal, fun hok => ⟨tokens, haccepted.given, hthere hok⟩⟩

/-! ## Runs -/

structure State where
  kc : KvStore
  dir : Directory

inductive Op where
  | open (budgetMb : UInt64) (rejectDifferentQuant : Bool) (opt : KvStoreOptions) (listing : Listing) (now : UInt64)
  | store (req : StoreRequest)
  | load (req : LoadRequest)
  | touch (name : List UInt8) (hits : UInt32) (now : UInt64)

/-- One operation and whether it succeeds; none where it does not end. -/
def step (s : State) : Op → Option (Bool × State)
  | .open budgetMb reject opt listing now =>
    (kvStoreOpen budgetMb reject opt listing now s.dir).map fun (kc, dir) => (true, ⟨kc, dir⟩)
  | .store req => (kvStoreStoreLivePrefixText s.kc req s.dir).map fun (ok, dir) => (ok, ⟨s.kc, dir⟩)
  | .load req =>
    let loaded := kvStoreTryLoadText s.kc req s.dir
    some (decide (0 < loaded.1), ⟨loaded.2.1, loaded.2.2⟩)
  | .touch name hits now =>
    let touched := kvStoreTouchFile s.dir name hits now
    some (touched.1, ⟨s.kc, touched.2⟩)

/-- What is wanted behind an operation: the entries keep to the budget, and a checkpoint that was stored is there. -/
structure Kept (op : Op) (ok : Bool) (s : State) : Prop where
  budget : s.kc.enabled = true → s.dir.total ≤ s.kc.budgetBytes
  stored : ∀ req, op = .store req → ok = true →
    ∃ tokens, req.tokens = some tokens ∧ (s.dir.lookup (req.path tokens)).isSome

/-- Every operation ends, with what is wanted behind it. -/
def AlwaysKept : State → List Op → Prop
  | _, [] => True
  | s, op :: ops => ∃ ok s', step s op = some (ok, s') ∧ Kept op ok s' ∧ AlwaysKept s' ops

/-- A budget that is not lost to the width of a word, over a directory whose sizes add up in one; and room for
every new trailer. -/
def Op.Fits (s : State) : Op → Prop
  | .open budgetMb _ _ _ _ => (budgetMb = 0 ∨ budgetMb.toNat % 2 ^ 44 ≠ 0) ∧ s.dir.total < 2 ^ 64
  | .store req => TrailerFits s.kc req s.dir
  | _ => True

def AlwaysFits : State → List Op → Prop
  | _, [] => True
  | s, op :: ops => op.Fits s ∧ ∀ ok s', step s op = some (ok, s') → AlwaysFits s' ops

/-- The store that is not open yet. -/
def closed : KvStore := ⟨false, 0, false, ⟨0⟩, 0⟩

theorem open_within {budgetMb : UInt64} {reject : Bool} {opt : KvStoreOptions} {listing : Listing} {now : UInt64}
    (hmb : budgetMb = 0 ∨ budgetMb.toNat % 2 ^ 44 ≠ 0) (htotal : dir.total < 2 ^ 64) :
    ∃ kc dir', kvStoreOpen budgetMb reject opt listing now dir = some (kc, dir') ∧ Within kc dir' := by
  have hbudget : ((if budgetMb = 0 then kvstoreDefaultMb else budgetMb) * 1024 * 1024).toNat ≠ 0 := by
    split
    case isTrue => decide
    case isFalse hne =>
      rw [UInt64.toNat_mul, UInt64.toNat_mul, show (1024 : UInt64).toNat = 1024 from rfl]
      have hrest := hmb.resolve_left hne
      omega
  have hword : ((if budgetMb = 0 then kvstoreDefaultMb else budgetMb) * 1024 * 1024).toNat < 2 ^ 64 :=
    UInt64.toNat_lt _
  unfold kvStoreOpen
  simp only
  generalize hkc : KvStore.mk true ((if budgetMb = 0 then kvstoreDefaultMb else budgetMb) * 1024 * 1024).toNat reject
    opt 0 = kc
  have hbytes : kc.budgetBytes ≠ 0 ∧ kc.budgetBytes < 2 ^ 64 := by
    rw [← hkc]
    exact ⟨hbudget, hword⟩
  obtain ⟨dir', hevict, hle⟩ := @kvStoreEvict_spec kc dir (by rw [← hkc]) hbytes.1 listing now 0 (Nat.zero_le _) none
    htotal
  rw [hevict]
  exact ⟨kc, dir', rfl, hbytes, hle⟩

/-- Loading makes no file longer, and leaves the budget. -/
theorem load_within (kc : KvStore) (req : LoadRequest) (dir : Directory) :
    (kvStoreTryLoadText kc req dir).2.2.total ≤ dir.total ∧
      (kvStoreTryLoadText kc req dir).2.1.enabled = kc.enabled ∧
        (kvStoreTryLoadText kc req dir).2.1.budgetBytes = kc.budgetBytes := by
  have hsame : dir.total ≤ dir.total ∧ kc.enabled = kc.enabled ∧ kc.budgetBytes = kc.budgetBytes :=
    ⟨Nat.le_refl _, rfl, rfl⟩
  unfold kvStoreTryLoadText
  split
  case h_1 => exact hsame
  case h_2 =>
    simp only
    split
    case isTrue => exact hsame
    split
    case isTrue => exact hsame
    split
    case h_1 => exact hsame
    case h_2 e _ =>
      split
      case h_1 => exact hsame
      split
      case h_1 => exact hsame
      split
      case isFalse => exact hsame
      split
      case h_1 => exact hsame
      split
      case isFalse => exact ⟨total_unlink_le dir e.name, rfl, rfl⟩
      case isTrue =>
        split
        case isTrue => exact ⟨(total_touch _ _ _ _).le, rfl, rfl⟩
        case isFalse => exact hsame

/-- An open store is within its budget. -/
def State.Inv (s : State) : Prop := s.kc.enabled = true → Within s.kc s.dir

/-- One operation keeps the invariant, and does what is wanted of it. -/
theorem step_within {s : State} {op : Op} (hinv : s.Inv) (hfits : op.Fits s) :
    ∃ ok s', step s op = some (ok, s') ∧ s'.Inv ∧ Kept op ok s' := by
  have kept {op : Op} {ok : Bool} {s : State} (hinv : s.Inv) (hop : ∀ req, op ≠ .store req) : Kept op ok s :=
    ⟨fun henabled => (hinv henabled).total, fun req heq => absurd heq (hop req)⟩
  cases op with
  | «open» budgetMb reject opt listing now =>
    obtain ⟨kc, dir', hopen, hwithin⟩ := @open_within s.dir budgetMb reject opt listing now hfits.1 hfits.2
    have hinv' : State.Inv ⟨kc, dir'⟩ := fun _ => hwithin
    refine ⟨true, ⟨kc, dir'⟩, ?_, hinv', kept hinv' (by simp)⟩
    rw [step, hopen]
    rfl
  | store req =>
    by_cases henabled : s.kc.enabled = true
    · have hwithin := hinv henabled
      obtain ⟨ok, dir', hstore, htotal, hthere⟩ := store_within henabled hwithin hfits
      refine ⟨ok, ⟨s.kc, dir'⟩, ?_, fun _ => ⟨hwithin.budget, htotal⟩, fun _ => htotal, ?_⟩
      · rw [step, hstore]
        rfl
      · rintro _ heq
        cases heq
        exact hthere
    · have hclosed : kvStoreStoreLivePrefixText s.kc req s.dir = some (false, s.dir) := by
        rw [kvStoreStoreLivePrefixText, if_pos henabled]
      refine ⟨false, s, ?_, hinv, fun h => absurd h henabled, by simp⟩
      rw [step, hclosed]
      rfl
  | load req =>
    obtain ⟨hless, henabled, hbudget⟩ := load_within s.kc req s.dir
    have hinv' : State.Inv ⟨(kvStoreTryLoadText s.kc req s.dir).2.1, (kvStoreTryLoadText s.kc req s.dir).2.2⟩ := by
      intro h
      obtain ⟨hbytes, htotal⟩ := hinv (henabled ▸ h)
      exact ⟨by rwa [hbudget], by rw [hbudget]; exact hless.trans htotal⟩
    exact ⟨_, _, rfl, hinv', kept hinv' (by simp)⟩
  | touch name hits now =>
    have hinv' : State.Inv ⟨s.kc, (kvStoreTouchFile s.dir name hits now).2⟩ := by
      intro h
      obtain ⟨hbytes, htotal⟩ := hinv h
      exact ⟨hbytes, (total_touch _ _ _ _).le.trans htotal⟩
    exact ⟨_, _, rfl, hinv', kept hinv' (by simp)⟩

theorem alwaysKept {s : State} {ops : List Op} (hinv : s.Inv) (hfits : AlwaysFits s ops) : AlwaysKept s ops := by
  induction ops generalizing s with
  | nil => trivial
  | cons op ops ih =>
    obtain ⟨ok, s', hstep, hinv', hkept⟩ := step_within hinv hfits.1
    exact ⟨ok, s', hstep, hkept, ih hinv' (hfits.2 ok s' hstep)⟩

/-- A run over any directory whose steps leave room for every new trailer keeps to the budget. -/
theorem kept_of_fits {dir : Directory} {ops : List Op} (hfits : AlwaysFits ⟨closed, dir⟩ ops) :
    AlwaysKept ⟨closed, dir⟩ ops :=
  alwaysKept (fun henabled => by cases henabled) hfits

/-! ## One that does, and one that does not -/

def asListed : Listing := ⟨id, fun _ => .refl _⟩

def noFiles : Directory := ⟨[], List.nodup_nil⟩

/-- A checkpoint of one token. -/
def oneToken (trailer : List UInt8) : StoreRequest where
  quantBits := 4
  modelId := 0
  ctx := 4096
  tokenText := fun _ => bytes "a"
  liveTokens := some [7]
  payload := some []
  tokens := some [7]
  storeLen := 1
  reason := some "cold"
  cacheTextOverride := none
  cacheTextExt := 0
  trailer := some trailer
  extFlag := 1
  listing := asListed
  evictNow := 0
  now := 0
  pid := 1

/-- A store with a budget of one megabyte. -/
def opened : KvStore := ⟨true, 2 ^ 20, true, ⟨1⟩, 0⟩

theorem open_noFiles : step ⟨closed, noFiles⟩ (.open 1 true ⟨1⟩ asListed 0) = some (true, ⟨opened, noFiles⟩) := rfl

def oneHeader : Header := ⟨4, 0, reasonCold, 1, 0, 4096, 0, 0, 0, 0, 1⟩

def oneFile : List UInt8 := newFile oneHeader (bytes "a") [] []

def onePath : List UInt8 := (oneToken []).path [7]

def oneStored : Directory :=
  ((noFiles.write (tmpName onePath 1) oneFile).unlink (tmpName onePath 1)).write onePath oneFile

theorem store_noFiles : kvStoreStoreLivePrefixText opened (oneToken []) noFiles = some (true, oneStored) := rfl

theorem oneHeader_valid : oneHeader.Valid := ⟨by decide, .inr rfl, by decide⟩

theorem oneFile_entry : kvStoreReadEntryFile onePath ((oneToken []).key [7]) oneFile =
    some { oneHeader with sha := (oneToken []).key [7], name := onePath, fileSize := oneFile.length } := by
  have hread := readHeader_fill oneHeader_valid (bytes "a" ++ ([] ++ []))
  have hfits : oneHeader.Fits oneFile.length := by decide
  rw [oneFile, newFile, readEntryFile_eq hread]
  exact if_pos hfits

theorem total_unlink_write (dir : Directory) (name file : List UInt8) :
    ((dir.write name file).unlink name).total = (dir.unlink name).total := by
  rw [total_eq, total_eq, unlink_write]

theorem oneStored_total : oneStored.total = oneFile.length := by
  have hlookup : oneStored.lookup onePath = some oneFile := lookup_write _ _ _
  have htotal := total_unlink (mem_of_lookup hlookup)
  have hothers : (oneStored.unlink onePath).total =
      (((noFiles.write (tmpName onePath 1) oneFile).unlink (tmpName onePath 1)).unlink onePath).total :=
    total_unlink_write _ _ _
  have hrest := total_unlink_le ((noFiles.write (tmpName onePath 1) oneFile).unlink (tmpName onePath 1)) onePath
  have htmp := total_unlink_write noFiles (tmpName onePath 1) oneFile
  have hnone := total_unlink_le noFiles (tmpName onePath 1)
  have hempty : noFiles.total = 0 := rfl
  have hfile : entrySize (onePath, oneFile) = oneFile.length :=
    entrySize_of_header (shaHexName_path _) (readHeader_fill oneHeader_valid _)
      (show oneHeader.Fits oneFile.length by decide)
  omega

/-- The second store of a text puts a trailer of one byte behind it. -/
theorem kept_of_fits_sample : AlwaysKept ⟨closed, noFiles⟩
    [.open 1 true ⟨1⟩ asListed 0, .store (oneToken []), .store (oneToken [0])] := by
  refine kept_of_fits ⟨⟨.inr (by decide), by decide⟩, fun ok s hopen => ?_⟩
  rw [open_noFiles] at hopen
  cases hopen
  refine ⟨fun tokens trailer file e haccepted hlookup => ?_, fun ok' s' hstore => ⟨?_, fun _ _ _ => trivial⟩⟩
  · cases hlookup
  · rw [step, store_noFiles] at hstore
    cases hstore
    intro tokens trailer file e haccepted hlookup hread _ _
    obtain rfl : [7] = tokens := Option.some.inj haccepted.given
    obtain rfl : [0] = trailer := Option.some.inj haccepted.measured
    have hstored : oneStored.lookup onePath = some oneFile := lookup_write _ _ _
    obtain rfl := Option.some.inj (hstored.symm.trans hlookup)
    obtain rfl := Option.some.inj (oneFile_entry.symm.trans hread)
    rw [oneStored_total]
    have hbudget : fixedBytes + oneHeader.textBytes.toNat + oneHeader.payloadBytes.toNat + 1 ≤ opened.budgetBytes := by
      decide
    rw [Nat.add_comm]
    exact Nat.add_le_add_right hbudget _

/-- A trailer of a megabyte. -/
def longTrailer : List UInt8 := List.replicate (2 ^ 20) 0

theorem store_again : kvStoreStoreLivePrefixText opened (oneToken longTrailer) oneStored =
    some (true, kvCacheRewriteTrailer onePath longTrailer 1 0 oneStored) := by
  have haccepted : Accepted opened (oneToken longTrailer) [7] longTrailer :=
    ⟨rfl, rfl, by decide, .inr rfl, rfl, by decide, rfl⟩
  have hlookup : oneStored.lookup onePath = some oneFile := lookup_write _ _ _
  have hmatches : kvCacheFileTextMatches oneFile ((oneToken []).key [7]) (bytes "a") = true :=
    fileTextMatches_newFile oneHeader_valid rfl [] []
  have hexisting : kvCacheExistingCompatible opened (oneToken longTrailer) ((oneToken longTrailer).path [7])
      ((oneToken longTrailer).key [7]) ((oneToken longTrailer).storeText [7]) oneStored = (true, oneStored) := by
    show kvCacheExistingCompatible opened (oneToken longTrailer) onePath ((oneToken []).key [7]) (bytes "a")
      oneStored = _
    rw [kvCacheExistingCompatible, hlookup]
    simp only [oneFile_entry]
    rw [compatible, hmatches]
    rfl
  rw [store_accepted haccepted, hexisting]
  rfl

theorem step_again : step ⟨opened, oneStored⟩ (.store (oneToken longTrailer)) =
    some (true, ⟨opened, kvCacheRewriteTrailer onePath longTrailer 1 0 oneStored⟩) := by
  rw [step, store_again, Option.map_some]

/-- The second store of a text writes a trailer of a megabyte behind it, and the budget is one. -/
theorem trailer_breaks_budget : ¬ AlwaysKept ⟨closed, noFiles⟩
    [.open 1 true ⟨1⟩ asListed 0, .store (oneToken []), .store (oneToken longTrailer)] := by
  rintro ⟨ok, s, hopen, -, ok', s', hstore, -, ok'', s'', hagain, hkept, -⟩
  rw [open_noFiles] at hopen
  cases hopen
  rw [step, store_noFiles] at hstore
  cases hstore
  rw [step_again, Option.some.injEq, Prod.mk.injEq] at hagain
  obtain ⟨-, rfl⟩ := hagain
  have hlookup : oneStored.lookup onePath = some oneFile := lookup_write _ _ _
  have hlong : longTrailer.length = 2 ^ 20 := List.length_replicate
  have hne : longTrailer ≠ [] := List.ne_nil_of_length_pos (by rw [hlong]; decide)
  have hsum := @total_rewriteTrailer oneStored oneFile _ _ onePath longTrailer 1 0 hlookup (shaHexName_path _)
    oneFile_entry hne (by decide)
  have hfile : entrySize (onePath, oneFile) = oneFile.length :=
    entrySize_of_header (shaHexName_path _) (readHeader_fill oneHeader_valid _)
      (show oneHeader.Fits oneFile.length by decide)
  have htotal := total_unlink (mem_of_lookup hlookup)
  have hopen : opened.enabled = true := rfl
  have hbudget := hkept.budget hopen
  dsimp only at hbudget
  have hbytes : opened.budgetBytes = 2 ^ 20 := rfl
  rw [hfile] at htotal
  rw [hlong] at hsum
  have hfixed : fixedBytes = 52 := rfl
  omega

end Spark.Kv
