import Spark.Kv.Lookup

/-!
# Loading a checkpoint into a session

`kv_store_try_load_text` with the session it loads into: the file is chosen by its name and its header, opened, read
again and handed to the session.

* **`load_eq`** — what is known of a load without its session holds of this one.
* **`restore_sound`** — what is loaded belongs to the prompt, and a session is left alone, loaded or empty.
-/

namespace Spark.Kv.Restore

open Server

/-! ## The call -/

/-- The engine, and what a load does with a session. A session is created with a context of at least one token. -/
structure Engine (σ : Type) where
  quantBits : Int
  modelId : Int
  /-- `ds4_session_ctx`. -/
  ctx : Int
  ctx_range : 0 < ctx ∧ ctx < 2 ^ 31
  /-- `ds4_session_tokens`. -/
  tokens : σ → Option (List Int)
  /-- `ds4_session_load_payload`, and whether it returned zero. -/
  loadPayload : σ → List UInt8 → UInt64 → Bool × σ
  /-- `ds4_session_invalidate`. -/
  invalidate : σ → σ
  /-- `ds4_tokenize_rendered_chat`. -/
  tokenizeRenderedChat : List UInt8 → List Int

/-- `kv_store_load_result`, without the time. -/
structure LoadResult where
  tokens : Int := 0
  textBytes : UInt32 := 0
  quantBits : UInt8 := 0
  extFlags : UInt8 := 0
  path : Option (List UInt8) := none
  deriving DecidableEq, Repr

/-- What a call returns and leaves behind. -/
structure Load (σ : Type) where
  loaded : Int
  session : σ
  effectivePrompt : List Int
  result : LoadResult
  kc : KvStore
  dir : Directory

/-- A call that returns zero. -/
def Load.zero {σ : Type} (session : σ) (kc : KvStore) (dir : Directory) : Load σ := ⟨0, session, [], {}, kc, dir⟩

/-- `kv_store_build_prompt_from_exact_prefix_and_text_suffix`. -/
def buildPrompt {σ : Type} (engine : Engine σ) (exactPrefix : List Int) (suffixText : List UInt8) : List Int :=
  exactPrefix ++ engine.tokenizeRenderedChat suffixText

/-- `kv_store_try_load_text` behind the checks: the payload is loaded, and counted. -/
def loadChecked {σ : Type} (kc : KvStore) (engine : Engine σ) (session : σ) (prompt : List UInt8) (e : Entry)
    (now : UInt64) (dir : Directory) (file : List UInt8) (hdr : Header) : Load σ :=
  match engine.loadPayload session (file.drop (fixedBytes + hdr.textBytes.toNat)) hdr.payloadBytes with
  | (false, session) => .zero (engine.invalidate session) kc dir
  | (true, session) =>
    match engine.tokens session with
    | none => .zero (engine.invalidate session) kc (dir.unlink e.name)
    | some tokens =>
      if (tokens.length : Int) = hdr.tokens.toInt32.toInt then
        let loaded := hdr.tokens.toInt32.toInt
        let effectivePrompt := buildPrompt engine tokens (prompt.drop hdr.textBytes.toNat)
        if 0 < loaded then {
          loaded
          session
          effectivePrompt
          result := ⟨loaded, hdr.textBytes, hdr.quantBits, hdr.extFlags, some e.name⟩
          kc := { kc with continuedLastStoreTokens := loaded }
          dir := (kvStoreTouchFile dir e.name (hdr.hits + 1) now).2 }
        else { loaded, session, effectivePrompt, result := {}, kc, dir }
      else .zero (engine.invalidate session) kc (dir.unlink e.name)

/-- `kv_store_try_load_text` behind the choice of an entry: its file is opened and checked. -/
def loadEntry {σ : Type} (kc : KvStore) (engine : Engine σ) (session : σ) (prompt : List UInt8) (e : Entry)
    (now : UInt64) (dir : Directory) : Load σ :=
  match dir.lookup e.name with
  | none => .zero session kc dir
  | some file =>
    match kvStoreReadHeader file with
    | none => .zero session kc dir
    | some hdr =>
      let cached := (file.drop fixedBytes).take hdr.textBytes.toNat
      if hdr.modelId ≠ toByte engine.modelId then .zero session kc dir
      else if prompt.length < hdr.textBytes.toNat then .zero session kc dir
      -- truncated cached text
      else if cached.length ≠ hdr.textBytes.toNat then .zero session kc dir
      else if kvStoreSha1BytesHex cached ≠ e.sha then .zero session kc dir
      else if ¬ cached <+: prompt then .zero session kc dir
      else loadChecked kc engine session prompt e now dir file hdr

/-- `kv_store_try_load_text`. -/
def kvStoreTryLoadText {σ : Type} (kc : KvStore) (engine : Engine σ) (session : σ) (promptText : Option (List UInt8))
    (listing : Listing) (now : UInt64) (dir : Directory) : Load σ :=
  match promptText with
  | none => .zero session kc dir
  | some buffer =>
    let prompt := cString buffer
    if ¬ kc.enabled then .zero session kc dir
    else if engine.quantBits ≠ 2 ∧ engine.quantBits ≠ 4 then .zero session kc dir
    else
      match kvStoreFindTextPrefix kc listing prompt engine.modelId engine.quantBits engine.ctx dir with
      | none => .zero session kc dir
      | some e => loadEntry kc engine session prompt e now dir

variable {σ : Type} {kc : KvStore} {engine : Engine σ} {session : σ} {prompt : List UInt8} {e : Entry} {now : UInt64}
  {dir : Directory} {listing : Listing}

/-! ## The call without its session -/

/-- What a file is asked for before its payload is. -/
structure Checked (engine : Engine σ) (prompt file : List UInt8) (hdr : Header) (e : Entry) : Prop where
  model : hdr.modelId = toByte engine.modelId
  short : hdr.textBytes.toNat ≤ prompt.length
  text : ((file.drop fixedBytes).take hdr.textBytes.toNat).length = hdr.textBytes.toNat
  digest : kvStoreSha1BytesHex ((file.drop fixedBytes).take hdr.textBytes.toNat) = e.sha
  front : (file.drop fixedBytes).take hdr.textBytes.toNat <+: prompt

/-- A file fails a check, and nothing has happened, or its payload is loaded. -/
theorem loadEntry_cases {file : List UInt8} {hdr : Header} (hlookup : dir.lookup e.name = some file)
    (hheader : kvStoreReadHeader file = some hdr) :
    (¬ Checked engine prompt file hdr e ∧ loadEntry kc engine session prompt e now dir = .zero session kc dir) ∨
      (Checked engine prompt file hdr e ∧
        loadEntry kc engine session prompt e now dir = loadChecked kc engine session prompt e now dir file hdr) := by
  rw [loadEntry, hlookup]
  dsimp only
  rw [hheader]
  dsimp only
  split
  case isTrue h => exact .inl ⟨fun hchecked => h hchecked.model, rfl⟩
  case isFalse hmodel =>
    split
    case isTrue h => exact .inl ⟨fun hchecked => absurd hchecked.short (Nat.not_le.mpr h), rfl⟩
    case isFalse hshort =>
      split
      case isTrue h => exact .inl ⟨fun hchecked => h hchecked.text, rfl⟩
      case isFalse htext =>
        split
        case isTrue h => exact .inl ⟨fun hchecked => h hchecked.digest, rfl⟩
        case isFalse hdigest =>
          split
          case isTrue h => exact .inl ⟨fun hchecked => h hchecked.front, rfl⟩
          case isFalse hfront =>
            exact .inr ⟨⟨not_not.mp hmodel, Nat.not_lt.mp hshort, not_not.mp htext, not_not.mp hdigest,
              not_not.mp hfront⟩, rfl⟩

/-- The call without its session. -/
def request (engine : Engine σ) (session : σ) (promptText : Option (List UInt8)) (listing : Listing) (now : UInt64) :
    LoadRequest where
  quantBits := engine.quantBits
  modelId := engine.modelId
  ctx := engine.ctx
  promptText := promptText
  loadPayload payload bytes :=
    match engine.loadPayload session payload bytes with
    | (false, _) => none
    | (true, session) => some ((engine.tokens session).map List.length |>.getD 0)
  listing := listing
  now := now

/-- The header of a file that is read has tokens. -/
theorem tokens_ne_zero {file : List UInt8} {hdr : Header} (hheader : kvStoreReadHeader file = some hdr) :
    hdr.tokens.toInt32.toInt ≠ 0 := by
  have hvalid := (readHeader_some hheader).1.tokens
  intro hzero
  apply hvalid
  have hbits : hdr.tokens.toBitVec.toInt = 0 := hzero
  have hvec : hdr.tokens.toBitVec = 0#32 := BitVec.eq_of_toInt_eq hbits
  exact UInt32.toBitVec_inj.mp hvec

/-- The payload, with the session and without it. -/
theorem loadChecked_eq {promptText : Option (List UInt8)} {file : List UInt8} {hdr : Header}
    (hheader : kvStoreReadHeader file = some hdr) :
    let out := loadChecked kc engine session prompt e now dir file hdr
    ((request engine session promptText listing now).loadPayload (file.drop (fixedBytes + hdr.textBytes.toNat))
        hdr.payloadBytes).elim (0, kc, dir) (fun loaded =>
      if (loaded : Int) = hdr.tokens.toInt32.toInt then
        if 0 < hdr.tokens.toInt32.toInt then
          ((loaded : Int), { kc with continuedLastStoreTokens := loaded },
            (kvStoreTouchFile dir e.name (hdr.hits + 1) now).2)
        else (loaded, kc, dir)
      else (0, kc, dir.unlink e.name)) = (out.loaded, out.kc, out.dir) := by
  dsimp only [request, loadChecked]
  rcases engine.loadPayload session (file.drop (fixedBytes + hdr.textBytes.toNat)) hdr.payloadBytes with
    ⟨_ | _, loaded⟩
  · rfl
  · dsimp only
    cases engine.tokens loaded with
    | none =>
      have hne : ((0 : Nat) : Int) ≠ hdr.tokens.toInt32.toInt := fun h => tokens_ne_zero hheader h.symm
      exact if_neg hne
    | some tokens =>
      dsimp only [Option.map_some, Option.getD_some, Option.elim_some]
      by_cases hcount : (tokens.length : Int) = hdr.tokens.toInt32.toInt
      · rw [if_pos hcount, if_pos hcount, ← hcount]
        split
        case isTrue => rfl
        case isFalse => rfl
      · rw [if_neg hcount, if_neg hcount]
        rfl

/-- What is known of a store without sessions holds of this one. -/
theorem load_eq (promptText : Option (List UInt8)) :
    let out := kvStoreTryLoadText kc engine session promptText listing now dir
    Kv.kvStoreTryLoadText kc (request engine session promptText listing now) dir = (out.loaded, out.kc, out.dir) := by
  dsimp only
  unfold kvStoreTryLoadText Kv.kvStoreTryLoadText
  cases promptText with
  | none => rfl
  | some buffer =>
    dsimp only [request]
    by_cases henabled : kc.enabled = true
    swap
    · rw [if_pos henabled, if_pos henabled]
      rfl
    rw [if_neg (not_not.mpr henabled), if_neg (not_not.mpr henabled)]
    by_cases hquant : engine.quantBits ≠ 2 ∧ engine.quantBits ≠ 4
    · rw [if_pos hquant]
      exact if_pos hquant
    refine (if_neg hquant).trans ?_
    rw [if_neg hquant]
    cases kvStoreFindTextPrefix kc listing (cString buffer) engine.modelId engine.quantBits engine.ctx dir with
    | none => rfl
    | some e =>
      dsimp only
      cases hlookup : dir.lookup e.name with
      | none =>
        rw [loadEntry, hlookup]
        rfl
      | some file =>
        dsimp only
        cases hheader : kvStoreReadHeader file with
        | none =>
          rw [loadEntry, hlookup]
          dsimp only
          rw [hheader]
          rfl
        | some hdr =>
          dsimp only
          rcases @loadEntry_cases σ kc engine session (cString buffer) e now dir file hdr hlookup hheader with
            ⟨hfails, hentry⟩ | ⟨hchecked, hentry⟩
          · rw [hentry]
            refine if_neg ?_
            rintro ⟨hmodel, hshort, htext, hdigest, hfront⟩
            exact hfails ⟨hmodel, hshort, htext, hdigest, hfront⟩
          · rw [hentry]
            refine (if_pos ⟨hchecked.model, hchecked.short, hchecked.text, hchecked.digest, hchecked.front⟩).trans ?_
            have hpayload := @loadChecked_eq σ kc engine session (cString buffer) e now dir listing (some buffer)
              file hdr hheader
            revert hpayload
            dsimp only [request]
            rcases engine.loadPayload session (file.drop (fixedBytes + hdr.textBytes.toNat)) hdr.payloadBytes with
              ⟨_ | _, loaded⟩
            · exact id
            · exact id

/-! ## What is loaded -/

/-- The file a load ended with, and what the session makes of it. -/
structure Restored (engine : Engine σ) (payloadTokens : List UInt8 → UInt64 → List Int) (prompt : List UInt8)
    (dir : Directory) (out : Load σ) (name file : List UInt8) (hdr : Header) : Prop where
  path : out.result.path = some name
  opened : dir.lookup name = some file
  header : kvStoreReadHeader file = some hdr
  /-- The stored text is all there, stands at the front of the prompt, and its digest is the name of the file. -/
  text : ((file.drop fixedBytes).take hdr.textBytes.toNat).length = hdr.textBytes.toNat
  front : (file.drop fixedBytes).take hdr.textBytes.toNat <+: prompt
  digest : kvStoreShaHexName name = some (kvStoreSha1BytesHex ((file.drop fixedBytes).take hdr.textBytes.toNat))
  model : hdr.modelId = toByte engine.modelId
  ctx : (hdr.ctxSize.toNat : Int) ≤ engine.ctx
  /-- The session holds the tokens of the payload, as many as are returned. -/
  held : engine.tokens out.session =
    some (payloadTokens (file.drop (fixedBytes + hdr.textBytes.toNat)) hdr.payloadBytes)
  count : ((payloadTokens (file.drop (fixedBytes + hdr.textBytes.toNat)) hdr.payloadBytes).length : Int) = out.loaded
  goesOn : out.effectivePrompt = payloadTokens (file.drop (fixedBytes + hdr.textBytes.toNat)) hdr.payloadBytes ++
    engine.tokenizeRenderedChat (prompt.drop hdr.textBytes.toNat)

/-- The entry that was found, and the file it was read from. -/
theorem find_file (henabled : kc.enabled = true) {modelId quantBits ctx : Int}
    (h : kvStoreFindTextPrefix kc listing prompt modelId quantBits ctx dir = some e) :
    ∃ file hdr, dir.lookup e.name = some file ∧ kvStoreReadHeader file = some hdr ∧
      kvStoreShaHexName e.name = some e.sha ∧ e.toHeader = hdr ∧ hdr.Fits file.length ∧
      Matches kc modelId quantBits ctx prompt e := by
  have hfound := find_spec henabled listing prompt modelId quantBits ctx dir
  rw [h] at hfound
  obtain ⟨⟨name, file⟩, hfile, hentry⟩ := List.mem_filterMap.mp hfound.mem
  obtain ⟨sha, hname, hread⟩ := entryOf_some hentry
  obtain ⟨hdr, hheader, hfits, he⟩ := readEntryFile_some hread
  refine ⟨file, hdr, ?_, hheader, ?_, ?_, hfits, hfound.usable⟩
  · rw [(entryOf_name hentry).1]
    exact lookup_iff_mem.mpr hfile
  · rw [he]
    exact hname
  · rw [he]

/-- What is loaded belongs to the prompt, and is what the session holds and the prompt goes on from. A call that loads
nothing leaves the session as it was, or empty. -/
structure Sound (engine : Engine σ) (payloadTokens : List UInt8 → UInt64 → List Int) (session : σ)
    (promptText : Option (List UInt8)) (dir : Directory) (out : Load σ) : Prop where
  nonneg : 0 ≤ out.loaded
  restored : 0 < out.loaded → ∃ buffer name file hdr, promptText = some buffer ∧
    Restored engine payloadTokens (cString buffer) dir out name file hdr
  untouched : out.loaded = 0 → out.session = session ∨
    (∃ s, out.session = engine.invalidate s) ∧ engine.tokens out.session = some []

variable {payloadTokens : List UInt8 → UInt64 → List Int} {promptText : Option (List UInt8)} {dir' : Directory}

theorem sound_same : Sound engine payloadTokens session promptText dir (.zero session kc dir') :=
  ⟨Int.le_refl 0, fun h => absurd h (Int.lt_irrefl 0), fun _ => .inl rfl⟩

theorem sound_invalidate (hinvalidate : ∀ s, engine.tokens (engine.invalidate s) = some []) (s : σ) :
    Sound engine payloadTokens session promptText dir (.zero (engine.invalidate s) kc dir') :=
  ⟨Int.le_refl 0, fun h => absurd h (Int.lt_irrefl 0), fun _ => .inr ⟨⟨s, rfl⟩, hinvalidate s⟩⟩

/-- A file that passed the checks. -/
theorem loadChecked_sound {buffer file : List UInt8} {hdr : Header}
    (hload : ∀ s payload bytes s', engine.loadPayload s payload bytes = (true, s') →
      engine.tokens s' = some (payloadTokens payload bytes))
    (hinvalidate : ∀ s, engine.tokens (engine.invalidate s) = some [])
    (hlookup : dir.lookup e.name = some file) (hheader : kvStoreReadHeader file = some hdr)
    (hname : kvStoreShaHexName e.name = some e.sha) (hctx : (hdr.ctxSize.toNat : Int) ≤ engine.ctx)
    (hchecked : Checked engine (cString buffer) file hdr e) :
    Sound engine payloadTokens session (some buffer) dir
      (loadChecked kc engine session (cString buffer) e now dir file hdr) := by
  have htokens := tokens_ne_zero hheader
  rw [loadChecked]
  rcases hpayload : engine.loadPayload session (file.drop (fixedBytes + hdr.textBytes.toNat)) hdr.payloadBytes with
    ⟨_ | _, loaded⟩
  · exact sound_invalidate hinvalidate loaded
  · have hheld := hload _ _ _ _ hpayload
    dsimp only
    rw [hheld]
    dsimp only
    split
    case isFalse => exact sound_invalidate hinvalidate loaded
    case isTrue hcount =>
      have hpositive : 0 < hdr.tokens.toInt32.toInt := by omega
      rw [if_pos hpositive]
      refine ⟨hpositive.le, fun _ => ⟨buffer, e.name, file, hdr, rfl, ?_⟩, fun hzero => absurd hzero htokens⟩
      exact {
        path := rfl
        opened := hlookup
        header := hheader
        text := hchecked.text
        front := hchecked.front
        digest := by rw [hname, hchecked.digest]
        model := hchecked.model
        ctx := hctx
        held := hheld
        count := hcount
        goesOn := rfl }

/-- **Restoring is sound.** Whatever files there are: what is loaded belongs to the prompt, and a call that loads
nothing leaves no part of it. -/
theorem restore_sound (kc : KvStore) (engine : Engine σ) (payloadTokens : List UInt8 → UInt64 → List Int)
    (hload : ∀ s payload bytes s', engine.loadPayload s payload bytes = (true, s') →
      engine.tokens s' = some (payloadTokens payload bytes))
    (hinvalidate : ∀ s, engine.tokens (engine.invalidate s) = some [])
    (session : σ) (promptText : Option (List UInt8)) (listing : Listing) (now : UInt64) (dir : Directory) :
    Sound engine payloadTokens session promptText dir
      (kvStoreTryLoadText kc engine session promptText listing now dir) := by
  unfold kvStoreTryLoadText
  cases promptText with
  | none => exact sound_same
  | some buffer =>
    dsimp only
    split
    case isTrue => exact sound_same
    case isFalse henabled =>
      split
      case isTrue => exact sound_same
      case isFalse =>
        cases hfind : kvStoreFindTextPrefix kc listing (cString buffer) engine.modelId engine.quantBits engine.ctx
          dir with
        | none => exact sound_same
        | some e =>
          dsimp only
          obtain ⟨file, hdr, hlookup, hheader, hname, rfl, -, hmatch⟩ := find_file (not_not.mp henabled) hfind
          rcases @loadEntry_cases σ kc engine session (cString buffer) e now dir file _ hlookup hheader with
            ⟨-, hentry⟩ | ⟨hchecked, hentry⟩
          · rw [hentry]
            exact sound_same
          · rw [hentry]
            refine loadChecked_sound hload hinvalidate hlookup hheader hname ?_ hchecked
            -- the search compares the sizes as words
            have hctx := hmatch.1
            simp only [eligible, Bool.and_eq_true, decide_eq_true_eq, UInt32.le_iff_toNat_le] at hctx
            obtain ⟨hpositive, hlt⟩ := engine.ctx_range
            have hword := (toWord_natCast (show engine.ctx.toNat < 2 ^ 31 by omega)).1
            rw [Int.toNat_of_nonneg hpositive.le] at hword
            omega

/-- An engine whose sessions are their tokens, and whose payload is one token. -/
def oneEngine : Engine (List Int) where
  quantBits := 4
  modelId := 0
  ctx := 4096
  ctx_range := by decide
  tokens := some
  loadPayload := fun _ _ _ => (true, [7])
  invalidate := fun _ => []
  tokenizeRenderedChat := fun text => text.map fun b => (b.toNat : Int)

theorem restore_sound_sample : Sound oneEngine (fun _ _ => [7]) [] (some (bytes "ab")) oneStored
    (kvStoreTryLoadText opened oneEngine [] (some (bytes "ab")) asListed 0 oneStored) := by
  refine restore_sound opened oneEngine (fun _ _ => [7]) (fun s payload bytes s' h => ?_) (fun _ => rfl) [] _ _ _ _
  cases h
  rfl

/-- The file of one token is found in front of a longer text. -/
example : (kvStoreTryLoadText opened oneEngine [] (some (bytes "ab")) asListed 0 oneStored).effectivePrompt =
    [7, 98] := by decide +kernel

end Spark.Kv.Restore
