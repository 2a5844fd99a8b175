import Spark.Kv.Store

/-!
# Entries of the disk cache

* **`readHeader_fill`** — a header is read as it was written.
* **`Directory.total`** — the size of all entries, and what writing and removing a file does to it.
* **`store_cases`** — a store does nothing, or goes by what is there under its name.
-/

namespace Spark.Kv

open Server

/-! ## Headers -/

variable {h : Header} {file rest name sha : List UInt8} {e : Entry}

/-- A header that is accepted. -/
structure Header.Valid (h : Header) : Prop where
  tokens : h.tokens ≠ 0
  quant : h.quantBits = 2 ∨ h.quantBits = 4
  reason : h.reason ≤ reasonAgentSession

@[simp] theorem length_fillHeader (h : Header) : (kvStoreFillHeader h).length = kvstoreFixedHeader := by
  simp [kvStoreFillHeader, kvstoreFixedHeader]

theorem leGet32_append {front back : List UInt8} (v : UInt32) {n : Nat} (hn : front.length = n) :
    leGet32 (front ++ (leBytes 4 v.toNat ++ back)) n = v := by
  subst hn
  rw [leGet32, List.drop_left, List.take_left' (length_leBytes 4 _)]
  exact leNat_word32 v

theorem leGet64_append {front back : List UInt8} (v : UInt64) {n : Nat} (hn : front.length = n) :
    leGet64 (front ++ (leBytes 8 v.toNat ++ back)) n = v := by
  subst hn
  rw [leGet64, List.drop_left, List.take_left' (length_leBytes 8 _)]
  exact leNat_word64 v

theorem headerAt_fill (hreason : h.reason ≤ reasonAgentSession) (rest : List UInt8) :
    headerAt (kvStoreFillHeader h ++ (leBytes 4 h.textBytes.toNat ++ rest)) = h := by
  have htext := @leGet32_append (kvStoreFillHeader h) rest h.textBytes 48 (length_fillHeader h)
  rw [headerAt, htext]
  simp only [kvStoreFillHeader, List.append_assoc]
  generalize leBytes 4 h.textBytes.toNat ++ rest = back
  -- each word stands behind those in front of it
  have htokens := @leGet32_append
    [0x4b, 0x56, 0x43, kvCacheVersion, h.quantBits, h.reason, h.extFlags, h.modelId]
    (leBytes 4 h.hits.toNat ++ (leBytes 4 h.ctxSize.toNat ++
      ([kvCachePayloadAbi, 0, 0, 0] ++ (leBytes 8 h.createdAt.toNat ++ (leBytes 8 h.lastUsed.toNat ++
        (leBytes 8 h.payloadBytes.toNat ++ back)))))) h.tokens 8 rfl
  have hhits := @leGet32_append
    ([0x4b, 0x56, 0x43, kvCacheVersion, h.quantBits, h.reason, h.extFlags, h.modelId] ++ leBytes 4 h.tokens.toNat)
    (leBytes 4 h.ctxSize.toNat ++ ([kvCachePayloadAbi, 0, 0, 0] ++ (leBytes 8 h.createdAt.toNat ++
      (leBytes 8 h.lastUsed.toNat ++ (leBytes 8 h.payloadBytes.toNat ++ back))))) h.hits 12 rfl
  have hctx := @leGet32_append
    ([0x4b, 0x56, 0x43, kvCacheVersion, h.quantBits, h.reason, h.extFlags, h.modelId] ++ (leBytes 4 h.tokens.toNat ++
      leBytes 4 h.hits.toNat))
    ([kvCachePayloadAbi, 0, 0, 0] ++ (leBytes 8 h.createdAt.toNat ++ (leBytes 8 h.lastUsed.toNat ++
      (leBytes 8 h.payloadBytes.toNat ++ back)))) h.ctxSize 16 rfl
  have hcreated := @leGet64_append
    ([0x4b, 0x56, 0x43, kvCacheVersion, h.quantBits, h.reason, h.extFlags, h.modelId] ++ (leBytes 4 h.tokens.toNat ++
      (leBytes 4 h.hits.toNat ++ (leBytes 4 h.ctxSize.toNat ++ [kvCachePayloadAbi, 0, 0, 0]))))
    (leBytes 8 h.lastUsed.toNat ++ (leBytes 8 h.payloadBytes.toNat ++ back)) h.createdAt 24 rfl
  have hused := @leGet64_append
    ([0x4b, 0x56, 0x43, kvCacheVersion, h.quantBits, h.reason, h.extFlags, h.modelId] ++ (leBytes 4 h.tokens.toNat ++
      (leBytes 4 h.hits.toNat ++ (leBytes 4 h.ctxSize.toNat ++ ([kvCachePayloadAbi, 0, 0, 0] ++
        leBytes 8 h.createdAt.toNat)))))
    (leBytes 8 h.payloadBytes.toNat ++ back) h.lastUsed 32 rfl
  have hpayload := @leGet64_append
    ([0x4b, 0x56, 0x43, kvCacheVersion, h.quantBits, h.reason, h.extFlags, h.modelId] ++ (leBytes 4 h.tokens.toNat ++
      (leBytes 4 h.hits.toNat ++ (leBytes 4 h.ctxSize.toNat ++ ([kvCachePayloadAbi, 0, 0, 0] ++
        (leBytes 8 h.createdAt.toNat ++ leBytes 8 h.lastUsed.toNat))))))
    back h.payloadBytes 40 rfl
  simp only [List.append_assoc] at htokens hhits hctx hcreated hused hpayload
  rw [htokens, hhits, hctx, hcreated, hused, hpayload]
  ext1
  case reason => exact if_pos hreason
  all_goals rfl

/-- A header is read as it was written. -/
theorem readHeader_fill (hvalid : h.Valid) (rest : List UInt8) :
    kvStoreReadHeader (kvStoreFillHeader h ++ (leBytes 4 h.textBytes.toNat ++ rest)) = some h := by
  have hlength : ¬ (kvStoreFillHeader h ++ (leBytes 4 h.textBytes.toNat ++ rest)).length < fixedBytes := by
    simp [fixedBytes]
  have hheader : ¬ (kvStoreFillHeader h ++ (leBytes 4 h.textBytes.toNat ++ rest)).length < kvstoreFixedHeader := by
    simp
  have hmagic : (kvStoreFillHeader h ++ (leBytes 4 h.textBytes.toNat ++ rest)).take 4 =
      [0x4b, 0x56, 0x43, kvCacheVersion] := rfl
  have habi : (kvStoreFillHeader h ++ (leBytes 4 h.textBytes.toNat ++ rest)).getD 20 0 = kvCachePayloadAbi := rfl
  rw [kvStoreReadHeader, if_neg hheader, if_neg (not_not.mpr hmagic), if_neg (not_not.mpr habi), if_neg hlength,
    headerAt_fill hvalid.reason, if_pos ⟨hvalid.tokens, hvalid.quant⟩]

/-- A file whose header is accepted has the length of the text behind it. -/
theorem readHeader_some (hread : kvStoreReadHeader file = some h) : h.Valid ∧ fixedBytes ≤ file.length ∧
    file = file.take kvstoreFixedHeader ++ (leBytes 4 h.textBytes.toNat ++ file.drop fixedBytes) := by
  unfold kvStoreReadHeader at hread
  split at hread
  case isTrue => cases hread
  split at hread
  case isTrue => cases hread
  split at hread
  case isTrue => cases hread
  split at hread
  case isTrue => cases hread
  case isFalse hlength =>
    split at hread
    case isFalse => cases hread
    case isTrue haccepted =>
      cases hread
      refine ⟨⟨haccepted.1, haccepted.2, ?_⟩, not_lt.mp hlength, ?_⟩
      · show (if _ then _ else _) ≤ _
        split
        case isTrue hle => exact hle
        case isFalse => decide
      · have hword : (file.drop kvstoreFixedHeader).take 4 = leBytes 4 (headerAt file).textBytes.toNat := by
          have hfour : ((file.drop kvstoreFixedHeader).take 4).length = 4 := by
            rw [List.length_take, List.length_drop]
            unfold fixedBytes at hlength
            omega
          have hback := leBytes_leNat ((file.drop kvstoreFixedHeader).take 4)
          have hlt := leNat_lt ((file.drop kvstoreFixedHeader).take 4)
          rw [hfour] at hback hlt
          rw [show (headerAt file).textBytes = UInt32.ofNat (leNat ((file.drop kvstoreFixedHeader).take 4)) from rfl,
            UInt32.toNat_ofNat', Nat.mod_eq_of_lt (show _ < 2 ^ 32 from hlt), hback]
        have hdrop : file.drop fixedBytes = (file.drop kvstoreFixedHeader).drop 4 := by
          rw [List.drop_drop]
          rfl
        rw [← hword, hdrop, List.take_append_drop, List.take_append_drop]

/-- What follows the header in a file that is an entry. -/
def Header.Fits (h : Header) (size : Nat) : Prop :=
  fixedBytes + h.textBytes.toNat + h.payloadBytes.toNat ≤ uint64Max ∧
    fixedBytes + h.textBytes.toNat + h.payloadBytes.toNat ≤ size

instance (h : Header) (size : Nat) : Decidable (h.Fits size) := inferInstanceAs (Decidable (_ ∧ _))

theorem readEntryFile_eq (hread : kvStoreReadHeader file = some h) : kvStoreReadEntryFile name sha file =
    if h.Fits file.length then some { h with sha := sha, name := name, fileSize := file.length } else none := by
  have hlength := (readHeader_some hread).2.1
  have htext : h.textBytes.toNat < 2 ^ 32 := h.textBytes.toNat_lt
  rw [kvStoreReadEntryFile, if_neg (not_lt.mpr hlength), hread]
  simp only
  unfold fixedBytes kvstoreFixedHeader at *
  by_cases hfits : h.Fits file.length
  · obtain ⟨hmax, hsize⟩ := hfits
    unfold fixedBytes kvstoreFixedHeader at hmax hsize
    rw [if_neg (by unfold uint64Max at *; omega), if_neg (by omega), if_pos ⟨hmax, hsize⟩]
  · rw [if_neg hfits]
    unfold Header.Fits fixedBytes kvstoreFixedHeader at hfits
    split
    case isTrue => rfl
    case isFalse hmax =>
      rw [if_pos]
      unfold uint64Max at *
      omega

theorem readEntryFile_some (hread : kvStoreReadEntryFile name sha file = some e) :
    ∃ h, kvStoreReadHeader file = some h ∧ h.Fits file.length ∧
      e = { h with sha := sha, name := name, fileSize := file.length } := by
  cases hheader : kvStoreReadHeader file with
  | none =>
    rw [kvStoreReadEntryFile, hheader] at hread
    split at hread
    · cases hread
    · cases hread
  | some h =>
    rw [readEntryFile_eq hheader] at hread
    split at hread
    case isTrue hfits =>
      cases hread
      exact ⟨h, rfl, hfits, rfl⟩
    case isFalse => cases hread

/-! ## The directory -/

variable {dir : Directory}

/-- The entries of a directory. -/
def Directory.entries (dir : Directory) : List Entry := dir.files.filterMap entryOf

/-- The size of all entries. -/
def Directory.total (dir : Directory) : Nat := (dir.entries.map Entry.fileSize).sum

/-- What a file adds to the size of all entries. -/
def entrySize (file : List UInt8 × List UInt8) : Nat := ((entryOf file).map Entry.fileSize).getD 0

theorem entryOf_some {entry : List UInt8 × List UInt8} (hentry : entryOf entry = some e) :
    ∃ sha, kvStoreShaHexName entry.1 = some sha ∧ kvStoreReadEntryFile entry.1 sha entry.2 = some e :=
  Option.bind_eq_some_iff.mp hentry

theorem entryOf_name {entry : List UInt8 × List UInt8} (hentry : entryOf entry = some e) :
    e.name = entry.1 ∧ e.fileSize = entry.2.length := by
  obtain ⟨sha, -, hread⟩ := entryOf_some hentry
  obtain ⟨h, -, -, rfl⟩ := readEntryFile_some hread
  exact ⟨rfl, rfl⟩

theorem entrySize_le (entry : List UInt8 × List UInt8) : entrySize entry ≤ entry.2.length := by
  rw [entrySize]
  cases hentry : entryOf entry with
  | none => exact Nat.zero_le _
  | some e => exact (entryOf_name hentry).2.le

theorem total_eq (dir : Directory) : dir.total = (dir.files.map entrySize).sum := by
  rw [Directory.total, Directory.entries]
  generalize dir.files = files
  induction files with
  | nil => rfl
  | cons entry files ih =>
    rw [List.map_cons, List.sum_cons, ← ih, List.filterMap_cons, entrySize]
    cases entryOf entry with
    | none => simp
    | some e => simp

theorem mem_of_lookup (hlookup : dir.lookup name = some file) : (name, file) ∈ dir.files := by
  rw [Directory.lookup] at hlookup
  generalize dir.files = files at hlookup
  induction files with
  | nil => cases hlookup
  | cons entry files ih =>
    obtain ⟨name', file'⟩ := entry
    rw [List.lookup_cons] at hlookup
    by_cases hname : name = name'
    · rw [hname] at hlookup ⊢
      simp only [BEq.rfl] at hlookup
      cases hlookup
      exact List.mem_cons_self
    · rw [beq_eq_false_iff_ne.mpr hname] at hlookup
      exact List.mem_cons_of_mem _ (ih hlookup)

/-- A file that is there and the others. -/
theorem perm_unlink (hmem : (name, file) ∈ dir.files) : dir.files.Perm ((name, file) :: (dir.unlink name).files) := by
  obtain ⟨front, back, hsplit⟩ := List.append_of_mem hmem
  have hdistinct := dir.distinct
  rw [hsplit, List.map_append, List.map_cons, List.nodup_append] at hdistinct
  obtain ⟨-, hback, hapart⟩ := hdistinct
  rw [List.nodup_cons] at hback
  have hfront : ∀ entry ∈ front, entry.1 ≠ name := fun entry hentry =>
    hapart entry.1 (List.mem_map_of_mem hentry) name List.mem_cons_self
  have hlater : ∀ entry ∈ back, entry.1 ≠ name := by
    intro entry hentry hname
    exact hback.1 (List.mem_map.mpr ⟨entry, hentry, hname⟩)
  have hfiles : (dir.unlink name).files = front ++ back := by
    show dir.files.filter _ = _
    rw [hsplit, List.filter_append, List.filter_cons, List.filter_eq_self.mpr (by simpa using hfront),
      List.filter_eq_self.mpr (by simpa using hlater)]
    simp
  rw [hfiles, hsplit]
  exact List.perm_middle

theorem lookup_iff_mem : dir.lookup name = some file ↔ (name, file) ∈ dir.files := by
  refine ⟨mem_of_lookup, fun hmem => ?_⟩
  have hdistinct := dir.distinct
  rw [Directory.lookup]
  generalize dir.files = files at hmem hdistinct
  induction files with
  | nil => cases hmem
  | cons entry files ih =>
    rw [List.map_cons, List.nodup_cons] at hdistinct
    rw [List.lookup_cons]
    rcases List.mem_cons.mp hmem with rfl | hmem
    · rw [BEq.rfl]
    · have hname : name ≠ entry.1 := by
        rintro rfl
        exact hdistinct.1 (List.mem_map.mpr ⟨_, hmem, rfl⟩)
      rw [beq_eq_false_iff_ne.mpr hname]
      exact ih hmem hdistinct.2

theorem total_unlink (hmem : (name, file) ∈ dir.files) :
    dir.total = entrySize (name, file) + (dir.unlink name).total := by
  rw [total_eq, total_eq, ((perm_unlink hmem).map entrySize).sum_nat, List.map_cons, List.sum_cons]

theorem total_unlink_le (dir : Directory) (name : List UInt8) : (dir.unlink name).total ≤ dir.total := by
  rw [total_eq, total_eq]
  show ((dir.files.filter _).map entrySize).sum ≤ _
  generalize dir.files = files
  induction files with
  | nil => exact Nat.le_refl _
  | cons entry files ih =>
    rw [List.filter_cons]
    split
    · rw [List.map_cons, List.map_cons, List.sum_cons, List.sum_cons]
      exact Nat.add_le_add_left ih _
    · rw [List.map_cons, List.sum_cons]
      exact ih.trans (Nat.le_add_left _ _)

theorem total_write (dir : Directory) (name file : List UInt8) :
    (dir.write name file).total = entrySize (name, file) + (dir.unlink name).total := by
  rw [total_eq, total_eq]
  rfl

theorem lookup_write (dir : Directory) (name file : List UInt8) : (dir.write name file).lookup name = some file := by
  show List.lookup name ((name, file) :: _) = _
  rw [List.lookup_cons, BEq.rfl]

theorem unlink_write (dir : Directory) (name file : List UInt8) :
    ((dir.write name file).unlink name).files = (dir.unlink name).files := by
  simp [Directory.unlink, Directory.write, List.filter_filter]

/-! ## Storing -/

variable {req : StoreRequest} {tokens : List Int} {trailer text : List UInt8}

/-- The text, the digest and the name a checkpoint is stored under. -/
def StoreRequest.storeText (req : StoreRequest) (tokens : List Int) : List UInt8 :=
  req.text (kvStoreTokensCopyPrefix tokens req.storeLen)

def StoreRequest.key (req : StoreRequest) (tokens : List Int) : List UInt8 := kvStoreSha1BytesHex (req.storeText tokens)

def StoreRequest.path (req : StoreRequest) (tokens : List Int) : List UInt8 := kvStorePathForSha (req.key tokens)

/-- What is checked before the directory is looked at. -/
structure Accepted (kc : KvStore) (req : StoreRequest) (tokens : List Int) (trailer : List UInt8) : Prop where
  enabled : kc.enabled = true
  given : req.tokens = some tokens
  long : kc.opt.minTokens ≤ req.storeLen
  quant : req.quantBits = 2 ∨ req.quantBits = 4
  live : req.liveTokens = some (kvStoreTokensCopyPrefix tokens req.storeLen)
  short : (req.storeText tokens).length ≤ 2 ^ 32 - 1
  measured : req.trailer = some trailer

/-- A store does nothing, or it is accepted and goes by what is there under its name. -/
theorem store_cases (kc : KvStore) (req : StoreRequest) (dir : Directory) :
    kvStoreStoreLivePrefixText kc req dir = some (false, dir) ∨
      ∃ tokens trailer, Accepted kc req tokens trailer ∧ kvStoreStoreLivePrefixText kc req dir =
        match kvCacheExistingCompatible kc req (req.path tokens) (req.key tokens) (req.storeText tokens) dir with
        | (true, dir) => some (true, kvCacheRewriteTrailer (req.path tokens) trailer req.extFlag req.now dir)
        | (false, dir) => storeFresh kc req (kvStoreTokensCopyPrefix tokens req.storeLen) (req.path tokens)
            (req.storeText tokens) trailer dir := by
  unfold kvStoreStoreLivePrefixText
  split
  case isTrue => exact .inl rfl
  case isFalse henabled =>
    cases htokens : req.tokens with
    | none => exact .inl rfl
    | some tokens =>
      simp only
      split
      case isTrue => exact .inl rfl
      case isFalse hlong =>
        split
        case isTrue => exact .inl rfl
        case isFalse hquant =>
          split
          case isTrue => exact .inl rfl
          case isFalse hlive =>
            split
            case isTrue => exact .inl rfl
            case isFalse hshort =>
              cases htrailer : req.trailer with
              | none => exact .inl rfl
              | some trailer =>
                right
                refine ⟨tokens, trailer, ⟨?_, htokens, not_lt.mp hlong, ?_, ?_, not_lt.mp hshort, htrailer⟩, rfl⟩
                · simpa using henabled
                · rw [not_and_or, not_not, not_not] at hquant
                  exact hquant
                · exact not_not.mp hlive

/-- What is accepted goes by what is there under its name. -/
theorem store_accepted {kc : KvStore} (h : Accepted kc req tokens trailer) (dir : Directory) :
    kvStoreStoreLivePrefixText kc req dir =
      match kvCacheExistingCompatible kc req (req.path tokens) (req.key tokens) (req.storeText tokens) dir with
      | (true, dir) => some (true, kvCacheRewriteTrailer (req.path tokens) trailer req.extFlag req.now dir)
      | (false, dir) => storeFresh kc req (kvStoreTokensCopyPrefix tokens req.storeLen) (req.path tokens)
          (req.storeText tokens) trailer dir := by
  have hquant : ¬ (req.quantBits ≠ 2 ∧ req.quantBits ≠ 4) := by
    rcases h.quant with hquant | hquant
    · exact fun hboth => hboth.1 hquant
    · exact fun hboth => hboth.2 hquant
  have hshort : ¬ (req.text (kvStoreTokensCopyPrefix tokens req.storeLen)).length > 2 ^ 32 - 1 := not_lt.mpr h.short
  rw [kvStoreStoreLivePrefixText, if_neg (not_not.mpr h.enabled), h.given]
  simp only [if_neg (not_lt.mpr h.long), if_neg hquant, if_neg (not_not.mpr h.live), if_neg hshort, h.measured]
  rfl

theorem shaHexName_path (text : List UInt8) : kvStoreShaHexName (kvStorePathForSha (kvStoreSha1BytesHex text)) =
    some (kvStoreSha1BytesHex text) := by
  obtain ⟨hlength, hdigits⟩ := sha1Hex_digits text
  generalize kvStoreSha1BytesHex text = sha at hlength hdigits
  have htake : (kvStorePathForSha sha).take 40 = sha := List.take_left' hlength
  have hdrop : (kvStorePathForSha sha).drop 40 = bytes ".kv" := List.drop_left' hlength
  have hlong : (kvStorePathForSha sha).length = 43 := by
    rw [kvStorePathForSha, List.length_append, hlength]
    rfl
  have hdigit (b : UInt8) (hb : IsHexDigit b) : isxdigit b = true ∧ tolower b = b := by
    rcases hb with ⟨hlow, hhigh⟩ | ⟨hlow, hhigh⟩
    · refine ⟨by rw [isxdigit, decide_eq_true hlow, decide_eq_true hhigh]; rfl, ?_⟩
      have hno : ¬ 0x41 ≤ b := fun h => absurd (UInt8.le_trans h hhigh) (by decide)
      rw [tolower, decide_eq_false hno]
      rfl
    · refine ⟨by rw [isxdigit, decide_eq_true hlow, decide_eq_true hhigh, Bool.and_self, Bool.or_true, Bool.true_or], ?_⟩
      have hno : ¬ b ≤ 0x5a := fun h => absurd (UInt8.le_trans hlow h) (by decide)
      rw [tolower, decide_eq_false hno, Bool.and_false]
      rfl
  rw [kvStoreShaHexName, htake, if_neg (by simp [hlong, hdrop]), if_pos]
  · congr 1
    exact (List.map_congr_left fun b hb => (hdigit b (hdigits b hb)).2).trans (List.map_id _)
  · exact List.all_eq_true.mpr fun b hb => (hdigit b (hdigits b hb)).1

/-- Either a file may stay that is there, or nothing is left of an entry under the name. -/
theorem existing_cases (kc : KvStore) (req : StoreRequest) (path sha text : List UInt8) (dir : Directory) :
    (∃ file e, kvCacheExistingCompatible kc req path sha text dir = (true, dir) ∧ dir.lookup path = some file ∧
        kvStoreReadEntryFile path sha file = some e ∧ compatible kc req sha text file e = true) ∨
      ∃ dir', kvCacheExistingCompatible kc req path sha text dir = (false, dir') ∧
        (dir' = dir ∨ dir' = dir.unlink path) ∧ ∀ file e, dir.lookup path = some file →
          kvStoreReadEntryFile path sha file = some e → compatible kc req sha text file e = false := by
  rw [kvCacheExistingCompatible]
  cases hlookup : dir.lookup path with
  | none => exact .inr ⟨dir, rfl, .inl rfl, fun file e hfile => by cases hfile⟩
  | some file =>
    simp only
    cases hread : kvStoreReadEntryFile path sha file with
    | none =>
      refine .inr ⟨dir, rfl, .inl rfl, fun file' e hfile he => ?_⟩
      cases hfile
      rw [hread] at he
      cases he
    | some e =>
      simp only
      cases hcompatible : compatible kc req sha text file e with
      | true => exact .inl ⟨file, e, rfl, rfl, hread, hcompatible⟩
      | false =>
        refine .inr ⟨dir.unlink path, rfl, .inr rfl, fun file' e' hfile he => ?_⟩
        cases hfile
        rw [hread] at he
        cases he
        exact hcompatible

/-- What fits is as long as its parts, and no longer than the budget. -/
theorem sizeFits_some {kc : KvStore} {textBytes payloadBytes trailerBytes fileBytes : Nat}
    (hfits : kvStoreFileSizeFits kc textBytes payloadBytes trailerBytes = some fileBytes) :
    fileBytes = fixedBytes + textBytes + payloadBytes + trailerBytes ∧ fileBytes ≤ uint64Max ∧
      (kc.budgetBytes ≠ 0 → fileBytes ≤ kc.budgetBytes) := by
  unfold kvStoreFileSizeFits at hfits
  cases hsize : kvCacheFileSizeBytes textBytes payloadBytes trailerBytes with
  | none =>
    rw [hsize] at hfits
    cases hfits
  | some size =>
    have hparts : size = fixedBytes + textBytes + payloadBytes + trailerBytes ∧ size ≤ uint64Max := by
      unfold kvCacheFileSizeBytes at hsize
      split at hsize
      case isTrue => cases hsize
      case isFalse hsmall =>
        cases hsize
        unfold fixedBytes kvstoreFixedHeader uint64Max at *
        omega
    rw [hsize] at hfits
    simp only at hfits
    split at hfits
    case isTrue hzero =>
      cases hfits
      exact ⟨hparts.1, hparts.2, fun hne => absurd hzero hne⟩
    case isFalse =>
      cases hrequired : kvCacheBudgetRequired size with
      | none =>
        rw [hrequired] at hfits
        cases hfits
      | some required =>
        rw [hrequired] at hfits
        simp only at hfits
        split at hfits
        case isFalse => cases hfits
        case isTrue hle =>
          cases hfits
          refine ⟨hparts.1, hparts.2, fun _ => Nat.le_trans ?_ hle⟩
          unfold kvCacheBudgetRequired at hrequired
          generalize (if fileBytes % 100 ≠ 0 then 1 else 0) = extra at hrequired
          simp only at hrequired
          split at hrequired
          case isTrue => cases hrequired
          case isFalse =>
            cases hrequired
            exact Nat.le_add_right _ _

theorem length_newFile (h : Header) (text payload trailer : List UInt8) :
    (newFile h text payload trailer).length = fixedBytes + text.length + payload.length + trailer.length := by
  simp only [newFile, List.length_append, length_fillHeader, length_leBytes, fixedBytes]
  omega

theorem readHeader_newFile (hvalid : h.Valid) (text payload trailer : List UInt8) :
    kvStoreReadHeader (newFile h text payload trailer) = some h := readHeader_fill hvalid _

/-- The text of a new file is the one it was stored under. -/
theorem fileTextMatches_newFile (hvalid : h.Valid) {text : List UInt8} (htext : h.textBytes.toNat = text.length)
    (payload trailer : List UInt8) :
    kvCacheFileTextMatches (newFile h text payload trailer) (kvStoreSha1BytesHex text) text = true := by
  have hlong : ¬ text.length > 2 ^ 32 - 1 := by
    have hlt := h.textBytes.toNat_lt
    omega
  have hstored : ((newFile h text payload trailer).drop fixedBytes).take h.textBytes.toNat = text := by
    have hfront : (kvStoreFillHeader h ++ leBytes 4 h.textBytes.toNat).length = fixedBytes := by
      rw [List.length_append, length_fillHeader, length_leBytes]
      rfl
    rw [newFile, ← List.append_assoc, ← hfront, List.drop_left, htext, List.take_left]
  rw [htext] at hstored
  rw [kvCacheFileTextMatches, if_neg hlong, readHeader_newFile hvalid]
  simp [htext, hstored]

end Spark.Kv
