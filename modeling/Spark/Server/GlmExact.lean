import Mathlib.Algebra.GroupWithZero.Nat
import Spark.Server.DsmlExact
import Spark.Server.GlmRoundTrip

/-!
# What survives the GLM round trip

Which calls with strings as arguments are read as they were written. Two of the conditions come from what is
read: an entity goes, so that what comes back is shorter, and behind a `</think>` there is less text than the
calls would need.

* **`glmCallsLoop_length`** — calls are read from no less text than they are written with.
* **`glm_survives_iff`** — calls are read as they were written just when each of their members is kept.
* **`glm_entity_not_kept`** — not all calls are.
-/

namespace Spark.Server

open Json Spark.Search

/-! ## Calls that are written -/

/-- A call whose arguments are an object of strings. -/
structure StringCall where
  name : List UInt8
  arguments : List UInt8
  members : List ArgMember
  named : GlmName name
  cstring : 0 ∉ name ∧ 0 ∉ arguments
  text : ObjectText arguments (members.map ArgMember.item)
  strings : ∀ m ∈ members, ∃ s, m.value = .string s ∧ 0 ∉ s
  keys : ∀ m ∈ members, m.key ≠ [] ∧ trimConstSpan m.key = m.key
  distinct : (members.map ArgMember.key).Nodup

def StringCall.toolCall (call : StringCall) : ToolCall := ⟨call.name, call.arguments⟩

/-- The properties a schema names for a call. -/
def schemaProps (orders : List ToolSchemaOrder) (name : List UInt8) : List (List UInt8) :=
  ((toolSchemaOrdersFind orders name).map ToolSchemaOrder.prop).getD []

/-- The keys a schema names stand first, in its order. -/
def SchemaFirst (props keys : List (List UInt8)) : Prop :=
  ∃ named others, keys = named ++ others ∧ named.Sublist props ∧ ∀ key ∈ others, key ∉ props

/-- The same name, and arguments that are an object of the same members, those of the schema first. -/
def SameGlmCall (orders : List ToolSchemaOrder) (call : StringCall) (parsed : ToolCall) : Prop :=
  parsed.name = call.name ∧ ∃ limit entries, read limit parsed.arguments = some (.object entries) ∧
    entries.Perm (call.members.map ArgMember.entry) ∧
      SchemaFirst (schemaProps orders call.name) (entries.map Prod.fst)

/-- The calls are read as they were written. -/
def GlmSurvives (orders : List ToolSchemaOrder) (calls : List StringCall) (require : Bool) : Prop :=
  ∃ message, parseGlmGeneratedMessageEx (appendGlmToolCallsText (calls.map StringCall.toolCall) none orders)
      require = some message ∧ List.Forall₂ (SameGlmCall orders) calls message.calls

/-- A key or a value that comes back: no entity, no `</tool_call>`, and where thinking has to be closed no
`</think>`. -/
structure Kept (require : Bool) (text : List UInt8) : Prop where
  entity : NoEntity text
  close : ¬ glmToolEnd <:+: text
  think : require = true → ¬ thinkClose <:+: text

def ArgMember.KeptIn (require : Bool) (m : ArgMember) : Prop :=
  0 ∉ m.key ∧ Kept require m.key ∧ ∀ s, m.value = .string s → Kept require s

/-! ## The order of the arguments -/

variable {orders : List ToolSchemaOrder} {call : StringCall} {m : ArgMember} {require : Bool} {s : List UInt8}

/-- What is found first is what is erased. -/
theorem find_erase {prop : List UInt8} {args : List JsonArg} {arg : JsonArg}
    (h : (args.find? fun arg => arg.key = prop) = some arg) : arg.key = prop ∧ ∃ front back,
      args = front ++ arg :: back ∧ (args.eraseP fun arg => arg.key = prop) = front ++ back := by
  obtain ⟨harg, front, back, rfl, hfront⟩ := List.find?_eq_some_iff_append.mp h
  have hkey : arg.key = prop := by simpa using harg
  have hnone : ∀ a ∈ front, ¬ decide (a.key = prop) = true := fun a ha => by simpa using hfront a ha
  refine ⟨hkey, front, back, rfl, ?_⟩
  rw [List.eraseP_append_right _ hnone, List.eraseP_cons, harg, cond_true]

theorem orderArgs_perm (props : List (List UInt8)) (args : List JsonArg) : (orderArgs props args).Perm args := by
  induction props generalizing args with
  | nil => exact .refl _
  | cons prop props ih =>
    rw [orderArgs]
    cases hfind : args.find? fun arg => arg.key = prop with
    | none => exact ih args
    | some arg =>
      obtain ⟨-, front, back, rfl, herase⟩ := find_erase hfind
      show (arg :: orderArgs props _).Perm _
      rw [herase]
      exact ((ih _).cons arg).trans List.perm_middle.symm

theorem mem_keys_orderArgs {props : List (List UInt8)} {args : List JsonArg} {key : List UInt8} :
    key ∈ (orderArgs props args).map JsonArg.key ↔ key ∈ args.map JsonArg.key :=
  ((orderArgs_perm props args).map JsonArg.key).mem_iff

theorem orderArgs_first (props : List (List UInt8)) {args : List JsonArg} (h : (args.map JsonArg.key).Nodup) :
    SchemaFirst props ((orderArgs props args).map JsonArg.key) := by
  induction props generalizing args with
  | nil => exact ⟨[], _, rfl, List.Sublist.refl _, by simp⟩
  | cons prop props ih =>
    rw [orderArgs]
    cases hfind : args.find? fun arg => arg.key = prop with
    | none =>
      obtain ⟨named, others, hkeys, hnamed, hothers⟩ := ih h
      refine ⟨named, others, hkeys, hnamed.cons _, fun key hkey => ?_⟩
      obtain ⟨arg, harg, rfl⟩ := List.mem_map.mp (mem_keys_orderArgs.mp (hkeys ▸ List.mem_append_right _ hkey))
      have hne : arg.key ≠ prop := by simpa using List.find?_eq_none.mp hfind arg harg
      rw [List.mem_cons, not_or]
      exact ⟨hne, hothers _ hkey⟩
    | some arg =>
      obtain ⟨rfl, front, back, rfl, herase⟩ := find_erase hfind
      have hnodup := ((@List.perm_middle _ arg front back).map JsonArg.key).nodup_iff.mp h
      rw [List.map_cons, List.nodup_cons] at hnodup
      obtain ⟨named, others, hkeys, hnamed, hothers⟩ := ih hnodup.2
      show SchemaFirst _ ((arg :: orderArgs props _).map JsonArg.key)
      rw [herase, List.map_cons, hkeys]
      refine ⟨arg.key :: named, others, rfl, hnamed.cons_cons _, fun key hkey => ?_⟩
      -- the key that was found is not there a second time
      have hmem := mem_keys_orderArgs.mp (hkeys ▸ List.mem_append_right named hkey)
      rw [List.mem_cons, not_or]
      refine ⟨?_, hothers _ hkey⟩
      rintro rfl
      exact hnodup.1 hmem

/-! ## Strings as arguments -/

/-- One more argument with a string. -/
def glmPut (args : List UInt8) (arg : JsonArg) : List UInt8 :=
  toolCallJsonArgsAdd args arg.key arg.value (bytes "true")

/-- A call with strings as arguments, the way the parser puts it together. -/
def glmCall (name : List UInt8) (args : List JsonArg) : ToolCall := ⟨name, 0x7b :: args.foldl glmPut [] ++ [0x7d]⟩

def JsonArg.entry (arg : JsonArg) : List UInt8 × Value := (arg.key, .string arg.value)

theorem read_glmCall (limit : Nat) (name : List UInt8) (args : List JsonArg) :
    read (limit + 1) (glmCall name args).arguments = some (.object (args.map JsonArg.entry)) := by
  have hput : glmPut = fun old arg => addItem old (jsonEscape arg.key, jsonEscape arg.value) := by
    funext old arg
    rw [glmPut, toolCallJsonArgsAdd_eq, argText, if_pos rfl]
  have hfold := foldl_addItem_nil (args.map fun arg : JsonArg => (jsonEscape arg.key, jsonEscape arg.value))
  rw [List.foldl_map] at hfold
  show read _ (0x7b :: args.foldl glmPut [] ++ [0x7d]) = _
  rw [hput, hfold]
  refine read_object (by simp [spaced, isWs]) (by simp [spaced, isWs]) ?_
  rw [List.forall₂_map_left_iff, List.forall₂_map_right_iff, List.forall₂_same]
  exact fun arg _ => ⟨quotes_jsonEscape _, read_quotes (quotes_jsonEscape _)⟩

theorem StringCall.jsonArgsParse_eq (call : StringCall) :
    jsonArgsParse call.arguments = some (call.members.map ArgMember.arg) := by
  rcases jsonArgsParse_of_text call.text with hsome | ⟨-, m, hm, hdeep⟩
  · exact hsome
  · obtain ⟨s, hs, -⟩ := call.strings m hm
    refine absurd ?_ hdeep
    rcases m.reads_value with ⟨s', hs', hquotes⟩ | ⟨hother, -⟩
    · rw [ArgMember.Shallow, hs']
      exact read_quotes hquotes
    · exact absurd hs (hother s)

theorem StringCall.glmCallArgs_eq (call : StringCall) : glmCallArgs orders call.toolCall =
    orderArgs (schemaProps orders call.name) (call.members.map ArgMember.arg) := by
  unfold glmCallArgs
  rw [show jsonArgsParse call.toolCall.arguments = _ from call.jsonArgsParse_eq]
  rfl

/-- A member under a key without a zero byte is written as it is. -/
theorem StringCall.member_entry (hm : m ∈ call.members) (hkey : 0 ∉ m.key) : m.arg.entry = m.entry := by
  obtain ⟨s, hs, hzero⟩ := call.strings m hm
  rw [m.arg_string hs, JsonArg.entry, ArgMember.entry, hs, cString_eq hkey, cString_eq hzero]

/-- Arguments that are the members of a call have their keys and values. -/
theorem SameGlmCall.perm {name : List UInt8} {args : List JsonArg} (hargs : ∀ arg ∈ args, 0 ∉ arg.key)
    (h : SameGlmCall orders call (glmCall name args)) : (∀ m ∈ call.members, 0 ∉ m.key) ∧
      (args.map JsonArg.entry).Perm ((call.members.map ArgMember.arg).map JsonArg.entry) := by
  obtain ⟨-, limit, entries, hread, hperm, -⟩ := h
  have hlater := read_mono hread (Nat.le_succ limit)
  rw [read_glmCall] at hlater
  obtain rfl := Value.object.inj (Option.some.inj hlater)
  have hkeys : ∀ m ∈ call.members, 0 ∉ m.key := by
    intro m hm
    obtain ⟨arg, harg, heq⟩ := List.mem_map.mp (hperm.mem_iff.mpr (List.mem_map_of_mem hm))
    rw [← show arg.key = m.key from congrArg Prod.fst heq]
    exact hargs arg harg
  refine ⟨hkeys, ?_⟩
  rw [List.map_map]
  have hsame : call.members.map (JsonArg.entry ∘ ArgMember.arg) = call.members.map ArgMember.entry :=
    List.map_congr_left fun m hm => call.member_entry hm (hkeys m hm)
  rwa [hsame]

/-- A measure of the key and the value of a member that is a string. -/
def entrySize (size : List UInt8 → List UInt8 → Nat) : List UInt8 × Value → Nat
  | (key, .string s) => size key s
  | _ => 0

/-- What any measure of a key and a string sums up to. -/
theorem sum_of_perm {args args' : List JsonArg} (h : (args.map JsonArg.entry).Perm (args'.map JsonArg.entry))
    (size : List UInt8 → List UInt8 → Nat) :
    (args.map fun arg => size arg.key arg.value).sum = (args'.map fun arg => size arg.key arg.value).sum := by
  have hsum := (h.map (entrySize size)).sum_nat
  rwa [List.map_map, List.map_map] at hsum

/-! ## What a call is read from -/

variable {close fuel : Nat} {p rest old new : List UInt8}

theorem length_skipAsciiWs (p : List UInt8) : (skipAsciiWs p).length ≤ p.length :=
  (List.dropWhile_sublist _).length_le

theorem drop_of_isPrefixOf {word : List UInt8} (h : word.isPrefixOf p = true) :
    p.length = word.length + (p.drop word.length).length := by
  have hle := (List.isPrefixOf_iff_prefix.mp h).length_le
  rw [List.length_drop]
  omega

theorem trimConstSpan_inside (span : List UInt8) : trimConstSpan span <:+: span :=
  (List.rdropWhile_prefix _ _).isInfix.trans (List.dropWhile_suffix _).isInfix

/-- A key that was read is written with no more than it was read from. -/
theorem length_key {raw : List UInt8} (hraw : ¬ glmArgKeyEnd <:+: raw) :
    (appendGlmArgKeyText (dsmlUnescapeText (trimConstSpan raw))).length ≤ raw.length := by
  have htrim := trimConstSpan_inside raw
  have hprotects : Protects 0x3c 0x26 glmArgKeyEnd (bytes "&lt;") := protects_entity rfl (by decide)
  have hle := (length_escapeWord_unescape hprotects fun hat => hraw (hat.trans htrim)).1
  exact Nat.le_trans hle htrim.length_le

theorem length_value {raw : List UInt8} (hraw : ¬ glmArgValueEnd <:+: raw) :
    (appendGlmArgValueText (dsmlUnescapeText raw)).length ≤ raw.length := by
  have hprotects : Protects 0x3c 0x26 glmArgValueEnd (bytes "&lt;") := protects_entity rfl (by decide)
  exact (length_escapeWord_unescape hprotects hraw).1

/-- How long an argument is when it is written. -/
def glmSize (key value : List UInt8) : Nat := (appendGlmArg ⟨key, value, true⟩).length

theorem glmSize_eq (key value : List UInt8) : glmSize key value = glmArgKeyStart.length +
    (appendGlmArgKeyText key).length + glmArgKeyEnd.length + glmArgValueStart.length +
      (appendGlmArgValueText value).length + glmArgValueEnd.length := by
  have harg := congrArg List.length (appendGlmArg_eq ⟨key, value, true⟩ [])
  rw [List.append_nil] at harg
  rw [glmSize, harg]
  simp only [List.length_append, List.length_nil]
  omega

/-- What one step over the arguments reads: the closing tag, or one argument. -/
theorem glmArgsLoop_step (h0 : 0 ∉ p) (h : glmArgsLoop close (fuel + 1) p old = some (new, rest)) :
    new = old ∧ rest <:+ p ∧ glmToolEnd.length + rest.length ≤ p.length ∨
      ∃ arg : JsonArg, ∃ more, glmArgsLoop close fuel more (glmPut old arg) = some (new, rest) ∧ more <:+ p ∧
        0 ∉ arg.key ∧ glmSize arg.key arg.value + more.length ≤ p.length := by
  have hskip : skipAsciiWs p <:+ p := List.dropWhile_suffix _
  have hskipped := hskip.length_le
  have hzero : 0 ∉ skipAsciiWs p := fun hmem => h0 (hskip.mem hmem)
  rw [glmArgsLoop] at h
  simp only at h
  generalize skipAsciiWs p = q at h hzero hskip hskipped
  split at h
  case isTrue hend =>
    cases h
    have hlength := drop_of_isPrefixOf hend
    exact .inl ⟨rfl, (List.drop_suffix _ _).trans hskip, by omega⟩
  case isFalse =>
    split at h
    case isFalse => cases h
    case isTrue hkey =>
      have hkeyLength := drop_of_isPrefixOf hkey
      have hbehind : q.drop glmArgKeyStart.length <:+ q := List.drop_suffix _ _
      have hzero' : 0 ∉ q.drop glmArgKeyStart.length := fun hmem => hzero (hbehind.mem hmem)
      generalize q.drop glmArgKeyStart.length = r at h hkeyLength hbehind hzero'
      cases hkeyEnd : strstr r glmArgKeyEnd with
      | none =>
        rw [hkeyEnd] at h
        cases h
      | some keyEnd =>
        obtain ⟨hsplit, hraw⟩ := strstr_split (by decide) hzero' hkeyEnd
        have hlength := congrArg List.length hsplit
        rw [List.length_append, List.length_append] at hlength
        rw [hkeyEnd] at h
        simp only at h
        split at h
        case isTrue => cases h
        case isFalse =>
          have hspace : skipAsciiWs (r.drop (keyEnd + glmArgKeyEnd.length)) <:+ r :=
            (List.dropWhile_suffix _).trans (List.drop_suffix _ _)
          have hspaced := length_skipAsciiWs (r.drop (keyEnd + glmArgKeyEnd.length))
          have hzero'' : 0 ∉ skipAsciiWs (r.drop (keyEnd + glmArgKeyEnd.length)) := fun hmem =>
            hzero' (hspace.mem hmem)
          generalize skipAsciiWs (r.drop (keyEnd + glmArgKeyEnd.length)) = t at h hspace hspaced hzero''
          split at h
          case isFalse => cases h
          case isTrue hvalue =>
            have hvalueLength := drop_of_isPrefixOf hvalue
            have hinside : t.drop glmArgValueStart.length <:+ t := List.drop_suffix _ _
            generalize t.drop glmArgValueStart.length = u at h hvalueLength hinside
            cases hvalueEnd : strstr u glmArgValueEnd with
            | none =>
              rw [hvalueEnd] at h
              cases h
            | some valueEnd =>
              have hzero''' : 0 ∉ u := fun hmem => hzero'' (hinside.mem hmem)
              obtain ⟨hsplit', hraw'⟩ := strstr_split (by decide) hzero''' hvalueEnd
              have hlength' := congrArg List.length hsplit'
              rw [List.length_append, List.length_append] at hlength'
              rw [hvalueEnd] at h
              simp only at h
              split at h
              case isTrue => cases h
              case isFalse =>
                right
                refine ⟨⟨dsmlUnescapeText (trimConstSpan (r.take keyEnd)), dsmlUnescapeText (u.take valueEnd), true⟩,
                  _, h, ?_, ?_, ?_⟩
                · exact (List.drop_suffix _ _).trans (hinside.trans (hspace.trans (hbehind.trans hskip)))
                · refine not_mem_dsmlUnescapeLoop (fun hmem => hzero' ?_) 0
                  exact List.mem_of_mem_take ((trimConstSpan_inside _).subset hmem)
                · have hkeyLe := length_key hraw
                  have hvalueLe := length_value hraw'
                  show glmSize (dsmlUnescapeText _) (dsmlUnescapeText _) + _ ≤ _
                  rw [glmSize_eq]
                  omega

/-- Arguments are read from no less text than they are written with. -/
theorem glmArgsLoop_length (h0 : 0 ∉ p) (h : glmArgsLoop close fuel p old = some (new, rest)) :
    ∃ args : List JsonArg, new = args.foldl glmPut old ∧ (∀ arg ∈ args, 0 ∉ arg.key) ∧ rest <:+ p ∧
      (args.map fun arg => glmSize arg.key arg.value).sum + glmToolEnd.length + rest.length ≤ p.length := by
  induction fuel generalizing p old with
  | zero => cases h
  | succ fuel ih =>
    rcases glmArgsLoop_step h0 h with ⟨rfl, hrest, hle⟩ | ⟨arg, more, hmore, hsuffix, hkey, hle⟩
    · exact ⟨[], rfl, by simp, hrest, by simpa using hle⟩
    · obtain ⟨args, rfl, hargs, hrest, hsum⟩ := ih (fun hmem => h0 (hsuffix.mem hmem)) hmore
      refine ⟨arg :: args, rfl, List.forall_mem_cons.mpr ⟨hkey, hargs⟩, hrest.trans hsuffix, ?_⟩
      rw [List.map_cons, List.sum_cons]
      omega

/-- How long a call is when it is written. -/
def callSize (name : List UInt8) (args : List JsonArg) : Nat :=
  glmToolStart.length + name.length + (args.map fun arg => glmSize arg.key arg.value).sum + glmToolEnd.length

/-- Calls are read from no less text than they are written with. -/
theorem glmCallsLoop_length {calls parsed : List ToolCall} (h0 : 0 ∉ p)
    (h : glmCallsLoop fuel p calls = some (parsed, rest)) : ∃ read : List (List UInt8 × List JsonArg),
      parsed = calls ++ read.map (fun call => glmCall call.1 call.2) ∧
        (∀ call ∈ read, ∀ arg ∈ call.2, 0 ∉ arg.key) ∧
          (read.map fun call => callSize call.1 call.2).sum ≤ p.length := by
  induction fuel generalizing p calls with
  | zero => cases h
  | succ fuel ih =>
    have hskip : skipAsciiWs p <:+ p := List.dropWhile_suffix _
    have hskipped := hskip.length_le
    have hzero : 0 ∉ skipAsciiWs p := fun hmem => h0 (hskip.mem hmem)
    rw [glmCallsLoop] at h
    simp only at h
    generalize skipAsciiWs p = q at h hzero hskipped
    split at h
    case isFalse =>
      cases h
      exact ⟨[], by simp, by simp, Nat.zero_le _⟩
    case isTrue hstart =>
      have hlength := drop_of_isPrefixOf hstart
      have hbehind : q.drop glmToolStart.length <:+ q := List.drop_suffix _ _
      have hzero' : 0 ∉ q.drop glmToolStart.length := fun hmem => hzero (hbehind.mem hmem)
      generalize q.drop glmToolStart.length = r at h hlength hzero'
      cases hclose : strstr r glmToolEnd with
      | none =>
        rw [hclose] at h
        cases h
      | some close =>
        rw [hclose] at h
        simp only at h
        split at h
        case isTrue => cases h
        case isFalse =>
          generalize hname : trimConstSpan (r.take (glmNameEnd r close)) = name at h
          -- the arguments begin behind the name
          have hnamed : name.length ≤ r.length - (r.drop (((r.take (glmNameEnd r close)).takeWhile isspace).length +
              name.length)).length := by
            have hsplit := congrArg List.length
              (@List.takeWhile_append_dropWhile _ isspace (r.take (glmNameEnd r close)))
            have htrim := (List.rdropWhile_prefix isspace ((r.take (glmNameEnd r close)).dropWhile isspace)).length_le
            rw [← trimConstSpan, hname] at htrim
            rw [List.length_append, List.length_take] at hsplit
            rw [List.length_drop]
            omega
          have hargs : r.drop (((r.take (glmNameEnd r close)).takeWhile isspace).length + name.length) <:+ r :=
            List.drop_suffix _ _
          have hargsLength := hargs.length_le
          generalize r.drop (((r.take (glmNameEnd r close)).takeWhile isspace).length + name.length) = t
            at h hnamed hargs hargsLength
          cases hloop : glmArgsLoop (r.length - close) (r.length + 1) t [] with
          | none =>
            rw [hloop] at h
            cases h
          | some found =>
            obtain ⟨new, more⟩ := found
            rw [hloop] at h
            have hzero'' : 0 ∉ t := fun hmem => hzero' (hargs.mem hmem)
            obtain ⟨args, rfl, hkeys, hmore, hsum⟩ := glmArgsLoop_length hzero'' hloop
            obtain ⟨read, rfl, hread, hsums⟩ := ih (fun hmem => hzero'' (hmore.mem hmem)) h
            refine ⟨(name, args) :: read, by simp [glmCall], List.forall_mem_cons.mpr ⟨hkeys, hread⟩, ?_⟩
            rw [List.map_cons, List.sum_cons, callSize]
            simp only
            omega

/-! ## What comes back of an argument -/

theorem trimConstSpan_eq_self_iff {span : List UInt8} : trimConstSpan span = span ↔
    (∀ b ∈ span.head?, isspace b = false) ∧ ∀ b ∈ span.getLast?, isspace b = false := by
  have hboth : trimConstSpan span = span ↔ span.dropWhile isspace = span ∧ span.rdropWhile isspace = span := by
    constructor
    · intro h
      have hle := (List.rdropWhile_prefix isspace (span.dropWhile isspace)).length_le
      rw [← trimConstSpan, h] at hle
      have hdrop := (List.dropWhile_sublist isspace).eq_of_length_le hle
      rw [trimConstSpan, hdrop] at h
      exact ⟨hdrop, h⟩
    · rintro ⟨hdrop, hright⟩
      rw [trimConstSpan, hdrop, hright]
  rw [hboth]
  refine and_congr ?_ ?_
  · cases span with
    | nil => simp
    | cons c span => simp [List.dropWhile_eq_self_iff]
  · rw [List.rdropWhile_eq_self_iff]
    cases hlast : span.getLast? with
    | none => simp [List.getLast?_eq_none_iff.mp hlast]
    | some b =>
      obtain ⟨front, rfl⟩ := List.getLast?_eq_some_iff.mp hlast
      simp

theorem trimConstSpan_key {key : List UInt8} (h : trimConstSpan key = key) :
    trimConstSpan (appendGlmArgKeyText key) = appendGlmArgKeyText key := by
  have hprotects : Protects 0x3c 0x26 glmArgKeyEnd (bytes "&lt;") := protects_entity rfl (by decide)
  obtain ⟨hhead, hlast⟩ := trimConstSpan_eq_self_iff.mp h
  refine trimConstSpan_eq_self_iff.mpr ⟨fun b hb => ?_, fun b hb => hlast b ?_⟩
  · rcases head?_escapeWord hprotects hb with rfl | hb
    · rfl
    · exact hhead b hb
  · rwa [← @getLast?_escapeWord _ glmArgKeyEnd (bytes "&lt;") _ (by decide) key]

/-- What the parser makes of an argument. -/
def glmReadArg (arg : JsonArg) : JsonArg :=
  ⟨dsmlUnescapeText (trimConstSpan (appendGlmArgKeyText arg.key)),
    dsmlUnescapeText (appendGlmArgValueText arg.value), true⟩

theorem glmReadBack_eq (orders : List ToolSchemaOrder) (call : ToolCall) :
    glmReadBack orders call = glmCall call.name ((glmCallArgs orders call).map glmReadArg) := by
  rw [glmReadBack, glmCall, List.foldl_map]
  rfl

theorem glmReadArg_value (arg : JsonArg) : (glmReadArg arg).value = dsmlUnescapeText arg.value :=
  unescape_escapeWord (protects_entity rfl (by decide)) arg.value

/-- A trimmed key comes back without its entities. -/
theorem glmReadArg_key {arg : JsonArg} (h : trimConstSpan arg.key = arg.key) :
    (glmReadArg arg).key = dsmlUnescapeText arg.key := by
  show dsmlUnescapeText (trimConstSpan (appendGlmArgKeyText arg.key)) = _
  rw [trimConstSpan_key h]
  exact unescape_escapeWord (protects_entity rfl (by decide)) arg.key

theorem glmReadArg_zero (h : 0 ∉ arg.key) : 0 ∉ (glmReadArg arg).key := by
  refine not_mem_dsmlUnescapeLoop (fun hmem => ?_) 0
  exact escapeWord_zero (by decide) h ((trimConstSpan_inside _).subset hmem)

theorem unescape_length_iff {text : List UInt8} : (dsmlUnescapeText text).length = text.length ↔ NoEntity text := by
  constructor
  · intro h
    by_contra hnot
    exact absurd h (Nat.ne_of_lt ((length_unescape text).2 hnot))
  · intro h
    rw [unescape_eq_self_iff.mpr h]

/-- Where the sums agree, so do the parts. -/
theorem eq_of_sum_eq {α : Type} {f g : α → Nat} {xs : List α} (hle : ∀ x ∈ xs, f x ≤ g x)
    (h : (xs.map f).sum = (xs.map g).sum) : ∀ x ∈ xs, f x = g x := by
  have hsum {ys : List α} (hys : ∀ y ∈ ys, f y ≤ g y) : (ys.map f).sum ≤ (ys.map g).sum := by
    induction ys with
    | nil => exact Nat.le_refl _
    | cons y ys ih =>
      obtain ⟨hy, hys⟩ := List.forall_mem_cons.mp hys
      rw [List.map_cons, List.map_cons, List.sum_cons, List.sum_cons]
      exact Nat.add_le_add hy (ih hys)
  induction xs with
  | nil => simp
  | cons x xs ih =>
    obtain ⟨hx, hxs⟩ := List.forall_mem_cons.mp hle
    have hlater := hsum hxs
    rw [List.map_cons, List.map_cons, List.sum_cons, List.sum_cons] at h
    exact List.forall_mem_cons.mpr ⟨by omega, ih hxs (by omega)⟩

/-- What is written for a member under a key without a zero byte, and what comes back of it. -/
theorem StringCall.member_read (hm : m ∈ call.members) (hkey : 0 ∉ m.key) : ∃ s, m.value = .string s ∧
    m.arg = ⟨m.key, s, true⟩ ∧ glmReadArg m.arg = ⟨dsmlUnescapeText m.key, dsmlUnescapeText s, true⟩ := by
  obtain ⟨s, hs, h0⟩ := call.strings m hm
  have harg : m.arg = ⟨m.key, s, true⟩ := by
    rw [m.arg_string hs, cString_eq hkey, cString_eq h0]
  refine ⟨s, hs, harg, ?_⟩
  rw [harg]
  have hread := @glmReadArg_key ⟨m.key, s, true⟩ (call.keys m hm).2
  exact congrArg₂ (JsonArg.mk · · true) hread (glmReadArg_value ⟨m.key, s, true⟩)

/-- What is read back of a call is the call just when no zero byte stands in a key and no entity anywhere. -/
theorem same_readBack_iff : SameGlmCall orders call (glmReadBack orders call.toolCall) ↔
    ∀ m ∈ call.members, 0 ∉ m.key ∧ NoEntity m.key ∧ ∀ s, m.value = .string s → NoEntity s := by
  rw [glmReadBack_eq, call.glmCallArgs_eq]
  have hmembers := orderArgs_perm (schemaProps orders call.name) (call.members.map ArgMember.arg)
  constructor
  · intro h
    have hzero : ∀ arg ∈ (orderArgs (schemaProps orders call.name)
        (call.members.map ArgMember.arg)).map glmReadArg, 0 ∉ arg.key := by
      intro arg harg
      obtain ⟨arg, hmem, rfl⟩ := List.mem_map.mp harg
      obtain ⟨m, -, rfl⟩ := List.mem_map.mp (hmembers.mem_iff.mp hmem)
      exact glmReadArg_zero (by rw [m.arg_key]; exact cString_zero _)
    obtain ⟨hkeys, hperm⟩ := h.perm hzero
    -- nothing grows, and the sum of all lengths is the same
    have hsum := sum_of_perm ((((hmembers.map glmReadArg).symm.map JsonArg.entry).trans hperm))
      fun key value => key.length + value.length
    rw [List.map_map, List.map_map, List.map_map] at hsum
    have hle : ∀ m ∈ call.members, (glmReadArg m.arg).key.length + (glmReadArg m.arg).value.length ≤
        m.arg.key.length + m.arg.value.length := by
      intro m hm
      obtain ⟨s, -, harg, hread⟩ := call.member_read hm (hkeys m hm)
      rw [hread, harg]
      exact Nat.add_le_add (length_unescape _).1 (length_unescape _).1
    intro m hm
    have hsame := eq_of_sum_eq hle hsum m hm
    obtain ⟨s, hs, harg, hread⟩ := call.member_read hm (hkeys m hm)
    rw [hread, harg] at hsame
    have hkeyLe := (length_unescape m.key).1
    have hvalueLe := (length_unescape s).1
    simp only at hsame
    refine ⟨hkeys m hm, unescape_length_iff.mp (by omega), fun s' hs' => ?_⟩
    obtain rfl := Value.string.inj (hs.symm.trans hs')
    exact unescape_length_iff.mp (by omega)
  · intro h
    have hback : ∀ m ∈ call.members, glmReadArg m.arg = m.arg := by
      intro m hm
      obtain ⟨hkey, hnokey, hnovalue⟩ := h m hm
      obtain ⟨s, hs, harg, hread⟩ := call.member_read hm hkey
      rw [hread, harg, unescape_eq_self_iff.mpr hnokey, unescape_eq_self_iff.mpr (hnovalue s hs)]
    have hself : (orderArgs (schemaProps orders call.name) (call.members.map ArgMember.arg)).map glmReadArg =
        orderArgs (schemaProps orders call.name) (call.members.map ArgMember.arg) := by
      refine (List.map_congr_left fun arg harg => ?_).trans (List.map_id _)
      obtain ⟨m, hm, rfl⟩ := List.mem_map.mp (hmembers.mem_iff.mp harg)
      exact hback m hm
    have hentries : call.members.map (JsonArg.entry ∘ ArgMember.arg) = call.members.map ArgMember.entry :=
      List.map_congr_left fun m hm => call.member_entry hm (h m hm).1
    have hkeys : call.members.map (JsonArg.key ∘ ArgMember.arg) = call.members.map ArgMember.key :=
      List.map_congr_left fun m hm => by rw [Function.comp_apply, m.arg_key, cString_eq (h m hm).1]
    refine ⟨rfl, 1, _, read_glmCall 0 _ _, ?_, ?_⟩
    · rw [hself, ← hentries, ← List.map_map]
      exact hmembers.map JsonArg.entry
    · rw [hself, List.map_map]
      exact orderArgs_first _ (by rw [List.map_map, hkeys]; exact call.distinct)

/-! ## Where `</think>` is -/

variable {calls : List StringCall} {arg : JsonArg}

/-- A key or a value of an argument. -/
def Mentions (word : List UInt8) (arg : JsonArg) : Prop := word <:+: arg.key ∨ word <:+: arg.value

theorem think_tag {tag : List UInt8} (hhead : tag.head? = some 0x3c) (honce : 0x3c ∉ tag.tail)
    (hword : ¬ thinkClose <+: tag) (htag : ¬ tag <+: thinkClose) (rest : List UInt8) :
    thinkClose <:+: tag ++ rest ↔ thinkClose <:+: rest :=
  infix_tag rfl hhead honce (not_prefix_append hword htag)

theorem think_escaped {word : List UInt8} (hprotects : Protects 0x3c 0x26 word (bytes "&lt;"))
    (hapart : ¬ thinkClose <+: word) (hapart' : ¬ word <+: thinkClose) (hrest : rest.head? = some 0x3c)
    (text : List UInt8) : thinkClose <:+: escapeWord word (bytes "&lt;") text ++ rest ↔
      thinkClose <:+: text ∨ thinkClose <:+: rest := by
  have htext : thinkClose <:+: escapeWord word (bytes "&lt;") text ↔ thinkClose <:+: text :=
    infix_escapeWord hprotects rfl (by decide) (by decide) hapart hapart'
  rw [← htext]
  exact @infix_append_of_head _ 0x3c _ _ thinkClose.tail hrest (by decide)

theorem think_arg (arg : JsonArg) (rest : List UInt8) :
    thinkClose <:+: appendGlmArg arg ++ rest ↔ Mentions thinkClose arg ∨ thinkClose <:+: rest := by
  have hkey : Protects 0x3c 0x26 (bytes "</arg_key>") (bytes "&lt;") := protects_entity rfl (by decide)
  have hvalue : Protects 0x3c 0x26 (bytes "</arg_value>") (bytes "&lt;") := protects_entity rfl (by decide)
  rw [appendGlmArg_eq, @think_tag glmArgKeyStart rfl (by decide) (by decide) (by decide), appendGlmArgKeyText,
    appendGlmTagBodyText, think_escaped hkey (by decide) (by decide) rfl,
    @think_tag glmArgKeyEnd rfl (by decide) (by decide) (by decide),
    @think_tag glmArgValueStart rfl (by decide) (by decide) (by decide), appendGlmArgValueText, appendGlmTagBodyText,
    think_escaped hvalue (by decide) (by decide) rfl,
    @think_tag glmArgValueEnd rfl (by decide) (by decide) (by decide), ← or_assoc]
  rfl

theorem think_args (args : List JsonArg) (rest : List UInt8) :
    thinkClose <:+: args.flatMap appendGlmArg ++ rest ↔
      (∃ arg ∈ args, Mentions thinkClose arg) ∨ thinkClose <:+: rest := by
  induction args with
  | nil => simp
  | cons arg args ih =>
    rw [List.flatMap_cons, List.append_assoc, think_arg, ih, ← or_assoc, List.exists_mem_cons_iff]

theorem think_calls (calls : List StringCall) (rest : List UInt8) :
    thinkClose <:+: (calls.map StringCall.toolCall).flatMap (appendGlmToolCall orders) ++ rest ↔
      (∃ call ∈ calls, ∃ m ∈ call.members, Mentions thinkClose m.arg) ∨ thinkClose <:+: rest := by
  induction calls with
  | nil => simp
  | cons call calls ih =>
    have hargs : (∃ arg ∈ glmCallArgs orders call.toolCall, Mentions thinkClose arg) ↔
        ∃ m ∈ call.members, Mentions thinkClose m.arg := by
      rw [call.glmCallArgs_eq]
      simp only [(orderArgs_perm _ _).mem_iff, List.mem_map, exists_exists_and_eq_and]
    have hname (rest : List UInt8) : thinkClose <:+: call.toolCall.name ++ rest ↔ thinkClose <:+: rest :=
      @infix_append_of_not_mem _ 0x3c rest call.name thinkClose.tail call.named.plain
    rw [List.map_cons, List.flatMap_cons, List.append_assoc, appendGlmToolCall_eq,
      @think_tag glmToolStart rfl (by decide) (by decide) (by decide), hname, think_args, hargs,
      @think_tag glmToolEnd rfl (by decide) (by decide) (by decide), ih, ← or_assoc, List.exists_mem_cons_iff]

theorem map_toolCall_ne_nil (hcalls : calls ≠ []) : calls.map StringCall.toolCall ≠ [] := by
  simpa using hcalls

/-- A `</think>` in the text is one in a key or in a value. -/
theorem think_text (hcalls : calls ≠ []) :
    thinkClose <:+: appendGlmToolCallsText (calls.map StringCall.toolCall) none orders ↔
      ∃ call ∈ calls, ∃ m ∈ call.members, Mentions thinkClose m.arg := by
  rw [glmText_eq orders (map_toolCall_ne_nil hcalls), infix_newline, think_calls, or_iff_left (by decide)]

/-! ## How much text there is -/

/-- How long a call is when it is written. -/
def StringCall.size (call : StringCall) : Nat := callSize call.name (call.members.map ArgMember.arg)

theorem length_appendGlmArg (arg : JsonArg) : (appendGlmArg arg).length = glmSize arg.key arg.value := by
  rw [glmSize]
  rfl

theorem length_call (call : StringCall) : (appendGlmToolCall orders call.toolCall).length = call.size := by
  have htext := congrArg List.length (appendGlmToolCall_eq orders call.toolCall [])
  have hsum := (((orderArgs_perm (schemaProps orders call.name) (call.members.map ArgMember.arg)).map
    fun arg => glmSize arg.key arg.value)).sum_nat
  rw [List.append_nil, List.append_nil, List.length_append, List.length_append, List.length_append,
    List.length_flatMap, call.glmCallArgs_eq] at htext
  rw [htext, StringCall.size, callSize, ← hsum]
  simp only [length_appendGlmArg, StringCall.toolCall]
  omega

theorem length_text (hcalls : calls ≠ []) :
    (appendGlmToolCallsText (calls.map StringCall.toolCall) none orders).length =
      (calls.map StringCall.size).sum + 2 := by
  have hsum : ((calls.map StringCall.toolCall).map fun call => (appendGlmToolCall orders call).length) =
      calls.map StringCall.size := by
    rw [List.map_map]
    exact List.map_congr_left fun call _ => length_call call
  rw [glmText_eq orders (map_toolCall_ne_nil hcalls), List.length_cons, List.length_append, List.length_flatMap, hsum]
  rfl

theorem appendGlmArg_zero (hkey : 0 ∉ arg.key) (hvalue : 0 ∉ arg.value) : 0 ∉ appendGlmArg arg := by
  simp only [appendGlmArg, List.mem_append, not_or]
  have hkey' : 0 ∉ appendGlmArgKeyText arg.key := escapeWord_zero (by decide) hkey
  have hvalue' : 0 ∉ appendGlmArgValueText arg.value := escapeWord_zero (by decide) hvalue
  exact ⟨⟨⟨⟨by decide, hkey'⟩, by decide⟩, hvalue'⟩, by decide⟩

theorem glmText_zero (calls : List StringCall) :
    0 ∉ appendGlmToolCallsText (calls.map StringCall.toolCall) none orders := by
  by_cases hcalls : calls = []
  · rw [hcalls]
    exact List.not_mem_nil
  rw [glmText_eq orders (map_toolCall_ne_nil hcalls)]
  simp only [List.mem_cons, List.mem_append, List.mem_flatMap, List.mem_map, not_or, not_exists, not_and]
  refine ⟨by decide, ?_, by decide, by simp⟩
  rintro _ ⟨call, -, rfl⟩ hmem
  have htext := appendGlmToolCall_eq orders call.toolCall []
  rw [List.append_nil, call.glmCallArgs_eq] at htext
  rw [htext] at hmem
  simp only [List.mem_append, List.mem_flatMap, (orderArgs_perm _ _).mem_iff, List.mem_map] at hmem
  rcases hmem with hmem | hmem | ⟨_, ⟨m, hm, rfl⟩, hmem⟩ | hmem | hmem
  · exact absurd hmem (by decide)
  · exact call.cstring.1 hmem
  · obtain ⟨s, hs, h0⟩ := call.strings m hm
    refine appendGlmArg_zero ?_ ?_ hmem
    · rw [m.arg_key]
      exact cString_zero _
    · rw [m.arg_string hs]
      exact cString_zero _
  · exact absurd hmem (by decide)
  · cases hmem

/-- Calls that are the same are as long. -/
theorem sum_size_eq {read : List (List UInt8 × List JsonArg)}
    (hread : ∀ call ∈ read, ∀ arg ∈ call.2, 0 ∉ arg.key)
    (h : List.Forall₂ (SameGlmCall orders) calls (read.map fun call => glmCall call.1 call.2)) :
    (calls.map StringCall.size).sum = (read.map fun call => callSize call.1 call.2).sum := by
  induction read generalizing calls with
  | nil =>
    rw [List.map_nil, List.forall₂_nil_right_iff] at h
    rw [h]
    rfl
  | cons call read ih =>
    obtain ⟨hcall, hread⟩ := List.forall_mem_cons.mp hread
    rw [List.map_cons, List.forall₂_cons_right_iff] at h
    obtain ⟨first, later, hsame, hlater, rfl⟩ := h
    have hname : call.1 = first.name := hsame.1
    have hsum := sum_of_perm (hsame.perm hcall).2 glmSize
    rw [List.map_cons, List.map_cons, List.sum_cons, List.sum_cons, ih hread hlater, StringCall.size, callSize,
      callSize, hname, hsum]

/-- Behind a `</think>` that counts there is not enough text for the calls. -/
theorem not_survives_of_think (hcalls : calls ≠ [])
    (h : thinkClose <:+: appendGlmToolCallsText (calls.map StringCall.toolCall) none orders) :
    ¬ GlmSurvives orders calls true := by
  rintro ⟨message, hparse, hsame⟩
  have hlength := @length_text orders _ hcalls
  have h0 := @glmText_zero orders calls
  generalize appendGlmToolCallsText (calls.map StringCall.toolCall) none orders = text at h hparse hlength h0
  obtain ⟨k, hk⟩ := infix_iff_occurs.mp h
  have hlast := findLastSubstr_last thinkClose_ne_nil h0
  cases hfind : findLastSubstr text thinkClose with
  | none =>
    rw [hfind] at hlast
    exact hlast k hk
  | some i =>
    have hsearch : glmToolSearch text true = some (i + thinkClose.length, false) := by
      rw [glmToolSearch, if_pos rfl, hfind]
    rw [parseGlmGeneratedMessageEx, hsearch] at hparse
    simp only at hparse
    cases hstart : strstr (text.drop (i + thinkClose.length)) glmToolStart with
    | none =>
      rw [hstart] at hparse
      cases hparse
      exact hcalls (List.forall₂_nil_right_iff.mp hsame)
    | some pos =>
      rw [hstart] at hparse
      simp only at hparse
      cases hloop : glmCallsLoop (text.length + 1) (text.drop (i + thinkClose.length + pos)) [] with
      | none =>
        rw [hloop] at hparse
        cases hparse
      | some found =>
        obtain ⟨parsed, rest⟩ := found
        rw [hloop] at hparse
        have hzero : 0 ∉ text.drop (i + thinkClose.length + pos) := fun hmem => h0 (List.mem_of_mem_drop hmem)
        obtain ⟨read, hparsed, hkeys, hsum⟩ := glmCallsLoop_length hzero hloop
        have hmessage : message.calls = parsed := by
          simp only [Bool.false_eq_true, if_false] at hparse
          split at hparse
          · cases hparse
          · cases hparse
            rfl
        rw [hmessage, hparsed, List.nil_append] at hsame
        -- the call that was found lies inside the text
        have hdrop : 0 ∉ text.drop (i + thinkClose.length) := fun hmem => h0 (List.mem_of_mem_drop hmem)
        have hfirst := @strstr_first _ glmToolStart (by decide) hdrop
        rw [hstart] at hfirst
        have hle := hfirst.1.le (by decide)
        have hpos : 0 < glmToolStart.length := by decide
        rw [List.length_drop, length_thinkClose] at hle
        rw [← sum_size_eq hkeys hsame, List.length_drop, length_thinkClose] at hsum
        omega

/-! ## All calls -/

theorem closesEarly_iff (call : StringCall) :
    ClosesEarly orders call.toolCall ↔ ∃ m ∈ call.members, Mentions glmToolEnd m.arg := by
  unfold ClosesEarly
  rw [call.glmCallArgs_eq]
  simp only [(orderArgs_perm _ _).mem_iff, List.mem_map, exists_exists_and_eq_and]
  rfl

/-- A word stands in what is written for a member where it stands in the key or in the string. -/
theorem StringCall.within_iff {word : List UInt8} (hm : m ∈ call.members) (hkey : 0 ∉ m.key) :
    ¬ Mentions word m.arg ↔ ¬ word <:+: m.key ∧ ∀ s, m.value = .string s → ¬ word <:+: s := by
  obtain ⟨s, hs, harg, -⟩ := call.member_read hm hkey
  rw [harg, Mentions, not_or]
  refine and_congr_right fun _ => ⟨fun h s' hs' => ?_, fun h => h s hs⟩
  rwa [← Value.string.inj (hs.symm.trans hs')]

theorem early_iff : (∃ call ∈ calls.map StringCall.toolCall, ClosesEarly orders call) ↔
    ∃ call ∈ calls, ∃ m ∈ call.members, Mentions glmToolEnd m.arg := by
  simp only [List.mem_map, exists_exists_and_eq_and, closesEarly_iff]

theorem names_of (calls : List StringCall) : ∀ call ∈ calls.map StringCall.toolCall, GlmName call.name := by
  intro _ hcall
  obtain ⟨call, -, rfl⟩ := List.mem_map.mp hcall
  exact call.named

theorem kept_of_survives (hcalls : calls ≠ []) (h : GlmSurvives orders calls require) :
    ∀ call ∈ calls, ∀ m ∈ call.members, m.KeptIn require := by
  have hthink : require = true →
      ¬ thinkClose <:+: appendGlmToolCallsText (calls.map StringCall.toolCall) none orders := by
    rintro rfl hclose
    exact not_survives_of_think hcalls hclose h
  have hparse := parse_glmText (map_toolCall_ne_nil hcalls) (names_of calls) (glmText_zero calls) hthink
  obtain ⟨message, hmessage, hsame⟩ := h
  intro call hcall m hm
  rw [hmessage, Option.map_some] at hparse
  split at hparse
  case isTrue => cases hparse
  case isFalse hnone =>
    rw [Option.some.inj hparse, List.map_map, List.forall₂_map_right_iff, List.forall₂_same] at hsame
    obtain ⟨hkey, hentity, hvalues⟩ := same_readBack_iff.mp (hsame call hcall) m hm
    have hclose : ¬ Mentions glmToolEnd m.arg := fun hwithin => hnone (early_iff.mpr ⟨call, hcall, m, hm, hwithin⟩)
    have hopen (hrequire : require = true) : ¬ Mentions thinkClose m.arg := fun hwithin =>
      hthink hrequire ((think_text hcalls).mpr ⟨call, hcall, m, hm, hwithin⟩)
    obtain ⟨hcloseKey, hcloseValue⟩ := (call.within_iff hm hkey).mp hclose
    refine ⟨hkey, ⟨hentity, hcloseKey, fun hrequire => ?_⟩, fun s hs => ⟨hvalues s hs, hcloseValue s hs, ?_⟩⟩
    · exact ((call.within_iff hm hkey).mp (hopen hrequire)).1
    · exact fun hrequire => ((call.within_iff hm hkey).mp (hopen hrequire)).2 s hs

theorem survives_of_kept (hcalls : calls ≠ []) (h : ∀ call ∈ calls, ∀ m ∈ call.members, m.KeptIn require) :
    GlmSurvives orders calls require := by
  have hthink : require = true →
      ¬ thinkClose <:+: appendGlmToolCallsText (calls.map StringCall.toolCall) none orders := by
    intro hrequire hclose
    obtain ⟨call, hcall, m, hm, hwithin⟩ := (think_text hcalls).mp hclose
    obtain ⟨hkey, hkept, hvalue⟩ := h call hcall m hm
    exact (call.within_iff hm hkey).mpr ⟨hkept.think hrequire, fun s hs => (hvalue s hs).think hrequire⟩ hwithin
  have hnone : ¬ ∃ call ∈ calls.map StringCall.toolCall, ClosesEarly orders call := by
    rw [early_iff]
    rintro ⟨call, hcall, m, hm, hwithin⟩
    obtain ⟨hkey, hkept, hvalue⟩ := h call hcall m hm
    exact (call.within_iff hm hkey).mpr ⟨hkept.close, fun s hs => (hvalue s hs).close⟩ hwithin
  have hparse := parse_glmText (map_toolCall_ne_nil hcalls) (names_of calls) (glmText_zero calls) hthink
  rw [if_neg hnone] at hparse
  obtain ⟨message, hmessage, hread⟩ := Option.map_eq_some_iff.mp hparse
  refine ⟨message, hmessage, ?_⟩
  rw [hread, List.map_map, List.forall₂_map_right_iff, List.forall₂_same]
  intro call hcall
  refine same_readBack_iff.mpr fun m hm => ?_
  obtain ⟨hkey, hkept, hvalue⟩ := h call hcall m hm
  exact ⟨hkey, hkept.entity, fun s hs => (hvalue s hs).entity⟩

/-- Calls are read as they were written just when each of their members is kept. -/
theorem glm_survives_iff (orders : List ToolSchemaOrder) (calls : List StringCall) (require : Bool) :
    GlmSurvives orders calls require ↔ ∀ call ∈ calls, ∀ m ∈ call.members, m.KeptIn require := by
  by_cases hcalls : calls = []
  · subst hcalls
    refine iff_of_true ?_ (by simp)
    -- no calls are written as no text
    cases require with
    | false => exact ⟨_, rfl, .nil⟩
    | true => exact ⟨_, rfl, .nil⟩
  · exact ⟨kept_of_survives hcalls, survives_of_kept hcalls⟩

/-! ## One that does not -/

def entityStrings : StringCall where
  name := bytes "f"
  arguments := bytes "\x7b\"k\":\"a&amp;b\"\x7d"
  members := [entityMember]
  named := ⟨by decide, by decide, by decide⟩
  cstring := by decide
  text := entityCall.text
  strings := List.forall_mem_singleton.mpr ⟨bytes "a&amp;b", rfl, by decide⟩
  keys := List.forall_mem_singleton.mpr (by decide)
  distinct := entityCall.distinct

theorem entityStrings_lost (require : Bool) : ¬ GlmSurvives [] [entityStrings] require := by
  intro h
  obtain ⟨-, -, hvalue⟩ := kept_of_survives (List.cons_ne_nil _ _) h entityStrings List.mem_cons_self entityMember
    List.mem_cons_self
  have hnone := (hvalue (bytes "a&amp;b") rfl).entity
  exact hnone (bytes "&amp;", 0x26) (by decide) ⟨bytes "a", bytes "b", by decide⟩

/-- The parser turns an entity back that the renderer did not write: `a&amp;b` becomes `a&b`. -/
theorem glm_entity_not_kept : ¬ GlmSurvives [] [entityStrings] false ∧ ¬ GlmSurvives [] [entityStrings] true :=
  ⟨entityStrings_lost false, entityStrings_lost true⟩

end Spark.Server
