import Spark.Kv.Budget

/-!
# Finding what was stored

A store leaves a file where it is that is as good to it; the search leaves out what has too few tokens. A file
that an earlier run left under a smaller bound is stored again and never found.

* **`find_spec`** — the search finds the longest entry that may be used, or there is none.
* **`found_iff`** — what is stored is found, unless such a file stands in its place.
* **`short_file_not_found`** — one that is not.
-/

namespace Spark.Kv

open Server

variable {kc : KvStore} {listing : Listing} {dir dir' : Directory} {prompt : List UInt8} {modelId quantBits ctx : Int}
  {e : Entry}

/-! ## The search -/

/-- An entry that may be used, whose name is the digest of the front of the prompt. -/
def Matches (kc : KvStore) (modelId quantBits ctx : Int) (prompt : List UInt8) (e : Entry) : Prop :=
  eligible kc modelId quantBits ctx prompt e = true ∧ kvStoreSha1BytesHex (prompt.take e.textBytes.toNat) = e.sha

/-- Neither a longer text, nor more tokens for one as long. -/
def AtMost (e b : Entry) : Prop := e.textBytes < b.textBytes ∨ e.textBytes = b.textBytes ∧ e.tokens ≤ b.tokens

theorem better_eq_false {b : Entry} : better e b = false ↔ AtMost e b := by
  simp only [better, AtMost, Bool.or_eq_false_iff, Bool.and_eq_false_iff, decide_eq_false_iff_not, UInt32.lt_iff_toNat_lt,
    UInt32.le_iff_toNat_le, ← UInt32.toNat_inj]
  omega

theorem AtMost.trans {a b c : Entry} (hab : AtMost a b) (hbc : AtMost b c) : AtMost a c := by
  simp only [AtMost, UInt32.lt_iff_toNat_lt, UInt32.le_iff_toNat_le, ← UInt32.toNat_inj] at *
  omega

theorem AtMost.of_better {b : Entry} (h : better e b = true) : AtMost b e := by
  simp only [better, AtMost, Bool.or_eq_true, Bool.and_eq_true, decide_eq_true_eq, UInt32.lt_iff_toNat_lt,
    UInt32.le_iff_toNat_le, ← UInt32.toNat_inj] at *
  omega

/-- An entry that may be used, and none that may be comes before it. -/
structure Best (kc : KvStore) (modelId quantBits ctx : Int) (prompt : List UInt8) (entries : List Entry) (e : Entry) :
    Prop where
  mem : e ∈ entries
  usable : Matches kc modelId quantBits ctx prompt e
  most : ∀ e' ∈ entries, Matches kc modelId quantBits ctx prompt e' → AtMost e' e

/-- What the search has found among the entries it has seen. -/
def Found (kc : KvStore) (modelId quantBits ctx : Int) (prompt : List UInt8) (entries : List Entry) :
    Option Entry → Prop
  | none => ∀ e ∈ entries, ¬ Matches kc modelId quantBits ctx prompt e
  | some e => Best kc modelId quantBits ctx prompt entries e

variable {entries : List Entry} {best : Option Entry}

/-- One more entry: the best so far stays the best, or gives way. -/
theorem Found.push (h : Found kc modelId quantBits ctx prompt entries best) (e : Entry) :
    Found kc modelId quantBits ctx prompt (entries ++ [e])
      (if eligible kc modelId quantBits ctx prompt e && (best.all fun b => better e b) &&
        kvStoreSha1BytesHex (prompt.take e.textBytes.toNat) = e.sha then some e else best) := by
  have hmatches : Matches kc modelId quantBits ctx prompt e ↔ eligible kc modelId quantBits ctx prompt e = true ∧
      kvStoreSha1BytesHex (prompt.take e.textBytes.toNat) = e.sha := Iff.rfl
  simp only [Bool.and_eq_true, decide_eq_true_eq]
  cases best with
  | none =>
    split
    case isTrue hyes =>
      refine ⟨by simp, ⟨hyes.1.1, hyes.2⟩, fun e' he' hmatch => ?_⟩
      rcases List.mem_append.mp he' with he' | he'
      · exact absurd hmatch (h e' he')
      · obtain rfl := List.mem_singleton.mp he'
        exact .inr ⟨rfl, UInt32.le_refl _⟩
    case isFalse hno =>
      intro e' he' hmatch
      rcases List.mem_append.mp he' with he' | he'
      · exact h e' he' hmatch
      · obtain rfl := List.mem_singleton.mp he'
        exact hno ⟨⟨hmatch.1, rfl⟩, hmatch.2⟩
  | some b =>
    rw [Option.all_some]
    split
    case isTrue hyes =>
      refine ⟨by simp, ⟨hyes.1.1, hyes.2⟩, fun e' he' hmatch => ?_⟩
      rcases List.mem_append.mp he' with he' | he'
      · exact (h.most e' he' hmatch).trans (AtMost.of_better hyes.1.2)
      · obtain rfl := List.mem_singleton.mp he'
        exact .inr ⟨rfl, UInt32.le_refl _⟩
    case isFalse hno =>
      refine ⟨List.mem_append_left _ h.mem, h.usable, fun e' he' hmatch => ?_⟩
      rcases List.mem_append.mp he' with he' | he'
      · exact h.most e' he' hmatch
      · obtain rfl := List.mem_singleton.mp he'
        refine better_eq_false.mp ?_
        rw [← Bool.not_eq_true]
        exact fun hbetter => hno ⟨⟨hmatch.1, hbetter⟩, hmatch.2⟩

/-- The search finds the longest entry that may be used, or there is none. -/
theorem find_spec (henabled : kc.enabled = true) (listing : Listing) (prompt : List UInt8)
    (modelId quantBits ctx : Int) (dir : Directory) : Found kc modelId quantBits ctx prompt dir.entries
      (kvStoreFindTextPrefix kc listing prompt modelId quantBits ctx dir) := by
  have hfold {seen later : List Entry} {best : Option Entry} (h : Found kc modelId quantBits ctx prompt seen best) :
      Found kc modelId quantBits ctx prompt (seen ++ later) (later.foldl (fun best e =>
        if eligible kc modelId quantBits ctx prompt e && (best.all fun b => better e b) &&
          kvStoreSha1BytesHex (prompt.take e.textBytes.toNat) = e.sha then some e else best) best) := by
    induction later generalizing seen best with
    | nil => simpa using h
    | cons e later ih =>
      have hlater := ih (h.push e)
      rwa [List.append_assoc, List.singleton_append] at hlater
  have hperm := refresh_perm henabled listing dir
  have hfound := @hfold [] (kvCacheRefresh kc listing dir) none (by simp [Found])
  rw [List.nil_append] at hfound
  rw [kvStoreFindTextPrefix]
  revert hfound
  cases (kvCacheRefresh kc listing dir).foldl _ none with
  | none => exact fun hnone e he => hnone e (hperm.mem_iff.mpr he)
  | some e => exact fun hbest => ⟨hperm.mem_iff.mp hbest.mem, hbest.usable, fun e' he' =>
      hbest.most e' (hperm.mem_iff.mpr he')⟩

/-- -1 just when there is none. -/
theorem find_eq_none_iff (henabled : kc.enabled = true) : kvStoreFindTextPrefix kc listing prompt modelId quantBits ctx
    dir = none ↔ ∀ e ∈ dir.entries, ¬ Matches kc modelId quantBits ctx prompt e := by
  have hfound := find_spec henabled listing prompt modelId quantBits ctx dir
  cases hfind : kvStoreFindTextPrefix kc listing prompt modelId quantBits ctx dir with
  | none =>
    rw [hfind] at hfound
    exact iff_of_true rfl hfound
  | some e =>
    rw [hfind] at hfound
    exact iff_of_false (by simp) fun hnone => hnone e hfound.mem hfound.usable

theorem exists_best (henabled : kc.enabled = true) (hmem : e ∈ dir.entries)
    (hmatch : Matches kc modelId quantBits ctx prompt e) :
    ∃ b, kvStoreFindTextPrefix kc listing prompt modelId quantBits ctx dir = some b ∧
      Best kc modelId quantBits ctx prompt dir.entries b := by
  have hfound := find_spec henabled listing prompt modelId quantBits ctx dir
  cases hfind : kvStoreFindTextPrefix kc listing prompt modelId quantBits ctx dir with
  | none =>
    rw [hfind] at hfound
    exact absurd hmatch (hfound e hmem)
  | some b =>
    rw [hfind] at hfound
    exact ⟨b, rfl, hfound⟩

/-! ## The entry of a text -/

variable {req : StoreRequest} {tokens : List Int} {trailer text file : List UInt8} {h : Header}

/-- An entry of a text that is as good to a request as one of its own. -/
structure Serves (kc : KvStore) (req : StoreRequest) (text : List UInt8) (e : Entry) : Prop where
  sha : e.sha = kvStoreSha1BytesHex text
  text : e.textBytes.toNat = text.length
  model : e.modelId = toByte req.modelId
  ctx : e.ctxSize ≤ toWord req.ctx
  quant : kc.rejectDifferentQuant = true → e.quantBits = toByte req.quantBits

/-- It may be used for every prompt behind its text, if it has enough tokens. -/
theorem Serves.matches_iff (h : Serves kc req text e) (hprompt : text <+: prompt) :
    Matches kc req.modelId req.quantBits req.ctx prompt e ↔ kc.opt.minTokens ≤ e.tokens.toInt32.toInt := by
  obtain ⟨back, rfl⟩ := hprompt
  have htake : (text ++ back).take e.textBytes.toNat = text := by
    rw [h.text, List.take_left]
  have hquant : (!kc.rejectDifferentQuant || decide (e.quantBits = toByte req.quantBits)) = true := by
    cases hreject : kc.rejectDifferentQuant with
    | false => rfl
    | true => simpa using h.quant hreject
  have hlength : e.textBytes.toNat ≤ text.length + back.length := by
    rw [h.text]
    exact Nat.le_add_right _ _
  rw [Matches, htake, and_iff_left h.sha.symm, eligible, hquant, List.length_append]
  simp [hlength, h.model, h.ctx]

/-- What may be used for a text may be used for every prompt that goes on behind it. -/
theorem Matches.extend (h : Matches kc modelId quantBits ctx text e) (hprompt : text <+: prompt) :
    Matches kc modelId quantBits ctx prompt e := by
  obtain ⟨back, rfl⟩ := hprompt
  obtain ⟨heligible, hsha⟩ := h
  simp only [eligible, Bool.and_eq_true, decide_eq_true_eq] at heligible
  have hle := heligible.1.1.1.1
  refine ⟨?_, by rwa [List.take_append_of_le_length hle]⟩
  simp only [eligible, Bool.and_eq_true, decide_eq_true_eq, List.length_append]
  exact ⟨⟨⟨⟨hle.trans (Nat.le_add_right _ _), heligible.1.1.1.2⟩, heligible.1.1.2⟩, heligible.1.2⟩, heligible.2⟩

theorem serves_of_compatible {name : List UInt8} (hread : kvStoreReadEntryFile name (kvStoreSha1BytesHex text) file =
    some e) (hcompatible : compatible kc req (kvStoreSha1BytesHex text) text file e = true) : Serves kc req text e := by
  obtain ⟨h, hheader, -, rfl⟩ := readEntryFile_some hread
  simp only [compatible, Bool.and_eq_true, decide_eq_true_eq, Bool.or_eq_true, Bool.not_eq_true'] at hcompatible
  obtain ⟨⟨⟨hmodel, hquant⟩, hctx⟩, hmatches⟩ := hcompatible
  have htext : h.textBytes.toNat = text.length := by
    rw [kvCacheFileTextMatches] at hmatches
    split at hmatches
    case isTrue => cases hmatches
    case isFalse =>
      rw [hheader] at hmatches
      simp only [Bool.and_eq_true, decide_eq_true_eq] at hmatches
      exact hmatches.1.1.1
  refine ⟨rfl, htext, hmodel, hctx, fun hreject => hquant.resolve_left ?_⟩
  rw [hreject]
  decide

/-! ## What a store leaves -/

theorem entries_write {name file : List UInt8} (hentry : entryOf (name, file) = some e) :
    (dir.write name file).entries = e :: (dir.unlink name).entries := by
  show ((name, file) :: (dir.unlink name).files).filterMap entryOf = _
  rw [List.filterMap_cons, hentry]
  rfl

/-- A new trailer leaves what a search goes by. -/
theorem entries_rewrite {path sha : List UInt8} {extFlag : UInt8} {now : UInt64} (hlookup : dir.lookup path = some file)
    (hname : kvStoreShaHexName path = some sha) (hread : kvStoreReadEntryFile path sha file = some e) :
    ∃ e', (kvCacheRewriteTrailer path trailer extFlag now dir).entries.Perm (e' :: (dir.unlink path).entries) ∧
      e'.tokens = e.tokens ∧ (Serves kc req text e → Serves kc req text e') := by
  have hsame : dir.entries.Perm (e :: (dir.unlink path).entries) := by
    have hentry : entryOf (path, file) = some e := by
      rw [entryOf, hname]
      exact hread
    have hperm := (perm_unlink (mem_of_lookup hlookup)).filterMap entryOf
    rwa [List.filterMap_cons, hentry] at hperm
  obtain ⟨h, hheader, hfits, rfl⟩ := readEntryFile_some hread
  obtain ⟨hvalid, -, -⟩ := readHeader_some hheader
  unfold kvCacheRewriteTrailer
  split
  case isTrue => exact ⟨_, hsame, rfl, id⟩
  case isFalse =>
    rw [hlookup]
    simp only [hheader]
    split
    case isFalse => exact ⟨_, hsame, rfl, id⟩
    case isTrue hend =>
      obtain ⟨hmax, hsize⟩ := hfits
      have hback := @readHeader_refill file h { h with extFlags := h.extFlags ||| extFlag, lastUsed := now } hheader
        ⟨hvalid.tokens, hvalid.quant, hvalid.reason⟩ rfl (fixedBytes + h.textBytes.toNat + h.payloadBytes.toNat)
        (by omega) trailer
      generalize hfile : kvStoreFillHeader { h with extFlags := h.extFlags ||| extFlag, lastUsed := now } ++
        ((file.take (fixedBytes + h.textBytes.toNat + h.payloadBytes.toNat)).drop kvstoreFixedHeader ++ trailer) =
          file' at hback
      have hlong : fixedBytes + h.textBytes.toNat + h.payloadBytes.toNat ≤ file'.length := by
        rw [← hfile, List.length_append, List.length_append, length_fillHeader, List.length_drop, List.length_take]
        unfold fixedBytes at *
        omega
      have hentry : entryOf (path, file') = some { h with
          extFlags := h.extFlags ||| extFlag, lastUsed := now, sha := sha, name := path, fileSize := file'.length } := by
        rw [entryOf, hname, Option.bind_some, readEntryFile_eq hback]
        exact if_pos ⟨hmax, hlong⟩
      refine ⟨_, List.Perm.of_eq (entries_write hentry), rfl, fun hserves => ?_⟩
      exact ⟨hserves.sha, hserves.text, hserves.model, hserves.ctx, hserves.quant⟩

/-- What callers keep to: a positive bound, and a store that is no longer than its tokens, whose count is an `int`. -/
structure Called (kc : KvStore) (req : StoreRequest) : Prop where
  positive : 0 < kc.opt.minTokens
  inside : ∀ tokens, req.tokens = some tokens → req.storeLen ≤ tokens.length ∧ tokens.length < 2 ^ 31

theorem kvStoreReasonCode_le (reason : Option String) : kvStoreReasonCode reason ≤ reasonAgentSession := by
  unfold kvStoreReasonCode
  split <;> decide

theorem toWord_natCast {n : Nat} (hn : n < 2 ^ 31) : (toWord n).toNat = n ∧ (toWord n).toInt32.toInt = n := by
  have hword : (toWord n).toNat = n := by
    rw [toWord, UInt32.toNat_ofNat']
    omega
  refine ⟨hword, ?_⟩
  show (toWord n).toBitVec.toInt = n
  rw [BitVec.toInt_eq_toNat_of_lt]
  · exact congrArg _ hword
  · show 2 * (toWord n).toNat < 2 ^ 32
    omega

/-- A new checkpoint is an entry of its text, with the tokens it was stored with. -/
theorem storeFresh_entry {path : List UInt8} {storeTokens : List Int} (hname : kvStoreShaHexName path = some
      (kvStoreSha1BytesHex text)) (hquant : req.quantBits = 2 ∨ req.quantBits = 4) (htext : text.length ≤ 2 ^ 32 - 1)
    (htokens : 0 < storeTokens.length ∧ storeTokens.length < 2 ^ 31)
    (hstore : storeFresh kc req storeTokens path text trailer dir = some (true, dir')) :
    ∃ e ∈ dir'.entries, Serves kc req text e ∧ e.tokens.toInt32.toInt = storeTokens.length := by
  unfold storeFresh at hstore
  cases hpayload : req.payload with
  | none =>
    rw [hpayload] at hstore
    cases hstore
  | some payload =>
    rw [hpayload] at hstore
    simp only at hstore
    cases hfits : kvStoreFileSizeFits kc text.length payload.length trailer.length with
    | none =>
      rw [hfits] at hstore
      cases hstore
    | some size =>
      obtain ⟨hsize, hmax, -⟩ := sizeFits_some hfits
      simp only [hfits, Option.map_eq_some_iff, Prod.mk.injEq, true_and] at hstore
      obtain ⟨rest, -, rfl⟩ := hstore
      obtain ⟨hword, hint⟩ := toWord_natCast htokens.2
      generalize hheader : Header.mk (toByte req.quantBits) (toByte req.modelId) (kvStoreReasonCode req.reason)
        (toWord storeTokens.length) 0 (toWord req.ctx) _ req.now req.now (UInt64.ofNat payload.length)
        (UInt32.ofNat text.length) = h
      have hvalid : h.Valid := by
        rw [← hheader]
        refine ⟨fun hzero => ?_, ?_, kvStoreReasonCode_le _⟩
        · have hnat : (toWord storeTokens.length).toNat = 0 := congrArg UInt32.toNat hzero
          omega
        · rcases hquant with hquant | hquant
          · exact .inl (by rw [hquant]; rfl)
          · exact .inr (by rw [hquant]; rfl)
      have htextBytes : h.textBytes.toNat = text.length := by
        rw [← hheader]
        exact Nat.mod_eq_of_lt (by omega)
      have hpayloadBytes : h.payloadBytes.toNat = payload.length := by
        rw [← hheader]
        exact Nat.mod_eq_of_lt (by unfold uint64Max at hmax; omega)
      have hentry : entryOf (path, newFile h text payload trailer) = some { h with
          sha := kvStoreSha1BytesHex text, name := path, fileSize := (newFile h text payload trailer).length } := by
        rw [entryOf, hname, Option.bind_some]
        refine (readEntryFile_eq (readHeader_newFile hvalid text payload trailer)).trans (if_pos ⟨?_, ?_⟩)
        · rw [htextBytes, hpayloadBytes]
          omega
        · rw [htextBytes, hpayloadBytes, length_newFile]
          omega
      refine ⟨_, (entries_write hentry) ▸ List.mem_cons_self, ⟨rfl, htextBytes, ?_, ?_, fun _ => ?_⟩, ?_⟩
      · rw [← hheader]
      · rw [← hheader]
        exact UInt32.le_refl _
      · rw [← hheader]
      · rw [← hheader]
        exact hint

/-! ## What was stored is found -/

/-- Behind a store that says so, every prompt that begins with the text finds an entry, the longest that may be
used; and none is found just where none may be used. -/
def FoundAfterStore (kc : KvStore) (req : StoreRequest) (dir : Directory) : Prop :=
  ∀ tokens dir', req.tokens = some tokens → kvStoreStoreLivePrefixText kc req dir = some (true, dir') →
    ∀ listing prompt, 0 ∉ prompt → req.storeText tokens <+: prompt →
      (kvStoreFindTextPrefix kc listing prompt req.modelId req.quantBits req.ctx dir' = none ↔
        ∀ e ∈ dir'.entries, ¬ Matches kc req.modelId req.quantBits req.ctx prompt e) ∧
      ∃ e, kvStoreFindTextPrefix kc listing prompt req.modelId req.quantBits req.ctx dir' = some e ∧
        Best kc req.modelId req.quantBits req.ctx prompt dir'.entries e

/-- A file that may stay in the place of the text has tokens enough, or another entry may be used for the text;
but no prompt has a zero byte. -/
def TokensFit (kc : KvStore) (req : StoreRequest) (dir : Directory) : Prop :=
  ∀ tokens trailer file e, Accepted kc req tokens trailer → 0 ∉ req.storeText tokens →
    dir.lookup (req.path tokens) = some file →
      kvStoreReadEntryFile (req.path tokens) (req.key tokens) file = some e →
        compatible kc req (req.key tokens) (req.storeText tokens) file e = true →
          kc.opt.minTokens ≤ e.tokens.toInt32.toInt ∨ ∃ e' ∈ (dir.unlink (req.path tokens)).entries,
            Matches kc req.modelId req.quantBits req.ctx (req.storeText tokens) e'

theorem found_of_fits (hcalled : Called kc req) (hfits : TokensFit kc req dir) : FoundAfterStore kc req dir := by
  intro tokens dir' hgiven hstore listing prompt hprompt hfront
  rcases store_cases kc req dir with hnone | ⟨tokens', trailer, haccepted, hcase⟩
  · rw [hnone] at hstore
    cases hstore
  have henabled := haccepted.enabled
  obtain rfl : tokens' = tokens := Option.some.inj (haccepted.given.symm.trans hgiven)
  refine ⟨find_eq_none_iff henabled, ?_⟩
  rw [hcase] at hstore
  rcases existing_cases kc req (req.path tokens') (req.key tokens') (req.storeText tokens') dir with
    ⟨file, e, hexisting, hlookup, hread, hcompatible⟩ | ⟨rest, hexisting, -, -⟩
  · rw [hexisting] at hstore
    cases hstore
    obtain ⟨e', hentries, htokens, hserves⟩ := @entries_rewrite kc dir e req trailer (req.storeText tokens') file _ _
      req.extFlag req.now hlookup (shaHexName_path _) hread
    have hzero : 0 ∉ req.storeText tokens' := fun hmem => hprompt (hfront.subset hmem)
    rcases hfits tokens' trailer file e haccepted hzero hlookup hread hcompatible with hlong | ⟨other, hmem, hmatch⟩
    · refine exists_best henabled (hentries.mem_iff.mpr List.mem_cons_self) ?_
      rw [(hserves (serves_of_compatible hread hcompatible)).matches_iff hfront, htokens]
      exact hlong
    · exact exists_best henabled (hentries.mem_iff.mpr (List.mem_cons_of_mem _ hmem)) (hmatch.extend hfront)
  · rw [hexisting] at hstore
    obtain ⟨hle, hint⟩ := hcalled.inside tokens' hgiven
    have hpositive := hcalled.positive
    have hlong := haccepted.long
    have hlength : (kvStoreTokensCopyPrefix tokens' req.storeLen).length = req.storeLen.toNat := by
      rw [kvStoreTokensCopyPrefix, List.length_take]
      omega
    obtain ⟨e, hmem, hserves, htokens⟩ := storeFresh_entry (shaHexName_path _) haccepted.quant haccepted.short
      ⟨by omega, by omega⟩ hstore
    refine exists_best henabled hmem ?_
    rw [hserves.matches_iff hfront, htokens, hlength]
    omega

theorem fits_of_found (hfound : FoundAfterStore kc req dir) : TokensFit kc req dir := by
  intro tokens trailer file e haccepted hzero hlookup hread hcompatible
  have hexisting : kvCacheExistingCompatible kc req (req.path tokens) (req.key tokens) (req.storeText tokens) dir =
      (true, dir) := by
    rw [kvCacheExistingCompatible, hlookup]
    simp only [hread]
    rw [if_pos hcompatible]
  have hstore := store_accepted haccepted dir
  rw [hexisting] at hstore
  obtain ⟨-, b, -, hbest⟩ := hfound tokens _ haccepted.given hstore asListed (req.storeText tokens) hzero
    (List.prefix_refl _)
  obtain ⟨e', hentries, htokens, hserves⟩ := @entries_rewrite kc dir e req trailer (req.storeText tokens) file _ _
    req.extFlag req.now hlookup (shaHexName_path _) hread
  rcases List.mem_cons.mp (hentries.mem_iff.mp hbest.mem) with rfl | hother
  · have husable := hbest.usable
    rw [(hserves (serves_of_compatible hread hcompatible)).matches_iff (List.prefix_refl _), htokens] at husable
    exact .inl husable
  · exact .inr ⟨b, hother, hbest.usable⟩

/-- What is stored is found, unless a file with too few tokens stands in its place. -/
theorem found_iff (hcalled : Called kc req) : FoundAfterStore kc req dir ↔ TokensFit kc req dir :=
  ⟨fits_of_found, found_of_fits hcalled⟩

/-- A file of one token over one of one token. -/
theorem found_iff_sample :
    FoundAfterStore opened (oneToken []) oneStored ∧ TokensFit opened (oneToken []) oneStored := by
  have hiff : FoundAfterStore opened (oneToken []) oneStored ↔ TokensFit opened (oneToken []) oneStored :=
    found_iff ⟨by decide, fun tokens htokens => by cases htokens; decide⟩
  have hfits : TokensFit opened (oneToken []) oneStored := by
    intro tokens trailer file e haccepted _ hlookup hread _
    obtain rfl : [7] = tokens := Option.some.inj haccepted.given
    have hstored : oneStored.lookup onePath = some oneFile := lookup_write _ _ _
    obtain rfl := Option.some.inj (hstored.symm.trans hlookup)
    obtain rfl := Option.some.inj (oneFile_entry.symm.trans hread)
    exact .inl (by decide)
  exact ⟨hiff.mpr hfits, hfits⟩

/-! ## One that is not -/

/-- The text of `oneToken` with two tokens. -/
def twoTokens : StoreRequest :=
  { oneToken [] with
    tokens := some [7, 7], liveTokens := some [7, 7], storeLen := 2, cacheTextOverride := some (bytes "a") }

/-- A store that wants two tokens. -/
def openedForTwo : KvStore := { opened with opt := ⟨2⟩ }

theorem twoTokens_text : twoTokens.storeText [7, 7] = bytes "a" := rfl

theorem twoTokens_path : twoTokens.path [7, 7] = onePath :=
  congrArg (fun text => kvStorePathForSha (kvStoreSha1BytesHex text)) twoTokens_text

theorem twoTokens_key : twoTokens.key [7, 7] = (oneToken []).key [7] := congrArg kvStoreSha1BytesHex twoTokens_text

/-- A file over a directory without files leaves it without entries when it goes. -/
theorem entries_unlink_write {name file : List UInt8} (hempty : dir.files = []) :
    ((dir.write name file).unlink name).entries = [] := by
  rw [Directory.entries, unlink_write]
  show (dir.files.filter _).filterMap entryOf = []
  rw [hempty]
  rfl

/-- The file of one token stays, and is not looked at any more. -/
theorem short_file_not_found : ¬ FoundAfterStore openedForTwo twoTokens oneStored := by
  intro hfound
  have haccepted : Accepted openedForTwo twoTokens [7, 7] [] := ⟨rfl, rfl, by decide, .inr rfl, rfl, by decide, rfl⟩
  have hlookup : oneStored.lookup onePath = some oneFile := lookup_write _ _ _
  have hmatches : kvCacheFileTextMatches oneFile ((oneToken []).key [7]) (bytes "a") = true :=
    fileTextMatches_newFile oneHeader_valid rfl [] []
  have hcompatible : compatible openedForTwo twoTokens ((oneToken []).key [7]) (bytes "a") oneFile
      { oneHeader with sha := (oneToken []).key [7], name := onePath, fileSize := oneFile.length } = true := by
    rw [compatible, hmatches]
    rfl
  have hothers : (oneStored.unlink onePath).entries = [] := entries_unlink_write (unlink_write noFiles _ _)
  have hfits := fits_of_found hfound [7, 7] [] oneFile
    { oneHeader with sha := (oneToken []).key [7], name := onePath, fileSize := oneFile.length } haccepted
  rw [twoTokens_path, twoTokens_key, twoTokens_text, hothers] at hfits
  rcases hfits (by decide) hlookup oneFile_entry hcompatible with hlong | ⟨e', hother, -⟩
  · exact absurd hlong (by decide)
  · cases hother

end Spark.Kv
