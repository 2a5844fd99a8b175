import Spark.Server.DsmlRoundTrip

/-!
# What survives the DSML round trip

Which turns are read as they were written, member by member.

* **`close_block_iff`** — a `</think>` in the block is one in a value.
* **`survives_of_fits`** — a turn whose calls meet the condition is read as it was written.
-/

namespace Spark.Server

open Json Spark.Search

variable {arg : JsonArg} {rest tag : List UInt8} {turn : Turn}

/-! ## Where `</think>` is -/

theorem not_close_front {text : List UInt8} (h : text.take 3 ≠ thinkClose.take 3) : ¬ thinkClose <+: text := by
  rintro ⟨more, rfl⟩
  exact h (List.take_append_of_le_length (by decide))

theorem infix_newline (rest : List UInt8) : thinkClose <:+: 0x0a :: rest ↔ thinkClose <:+: rest :=
  @infix_append_of_not_mem _ 0x3c rest [0x0a] thinkClose.tail (by decide)

theorem infix_body (arg : JsonArg) : thinkClose <:+: arg.body ↔ thinkClose <:+: arg.value := by
  unfold JsonArg.body
  split
  case isTrue =>
    exact infix_escapeWord (protects_entity rfl (by decide)) rfl (by decide) (by decide) (by decide) (by decide)
  case isFalse =>
    exact infix_escapeWord (protects_spelled rfl (by decide)) rfl (by decide) (by decide) (by decide) (by decide)

/-- The marker of the dialect stands right behind the opening bracket, or behind the slash. -/
theorem take_dsml (h : tag.take 3 = [0x3c, 0xef, 0xbd] ∨ tag.take 3 = [0x3c, 0x2f, 0xef]) :
    (tag ++ rest).take 3 ≠ thinkClose.take 3 := by
  have hlength : 3 ≤ tag.length := by
    have hboth : (tag.take 3).length = 3 := by rcases h with h | h <;> rw [h] <;> rfl
    rw [List.length_take] at hboth
    omega
  rw [List.take_append_of_le_length hlength]
  rcases h with h | h
  · rw [h]
    decide
  · rw [h]
    decide

theorem infix_param (key : List UInt8) (isString : Bool) (rest : List UInt8) :
    thinkClose <:+: paramTag key isString ++ rest ↔ thinkClose <:+: rest := by
  have hbool : 0x3c ∉ boolText isString := by cases isString <;> decide
  refine infix_tag rfl rfl ?_ (not_close_front (take_dsml (.inl rfl)))
  show 0x3c ∉ (bytes "<｜DSML｜parameter name=\"").tail ++ _ ++ _ ++ _ ++ _
  simp only [List.mem_append, not_or]
  exact ⟨⟨⟨⟨by decide, (attrEscaped_clean key).2.2⟩, by decide⟩, hbool⟩, by decide⟩

theorem infix_invoke (name : List UInt8) (rest : List UInt8) :
    thinkClose <:+: invokeTag name ++ rest ↔ thinkClose <:+: rest := by
  refine infix_tag rfl rfl ?_ (not_close_front (take_dsml (.inl rfl)))
  show 0x3c ∉ (bytes "<｜DSML｜invoke name=\"").tail ++ _ ++ _
  simp only [List.mem_append, not_or]
  exact ⟨⟨by decide, (attrEscaped_clean name).2.2⟩, by decide⟩

theorem infix_arg (arg : JsonArg) (rest : List UInt8) :
    thinkClose <:+: appendDsmlArg arg ++ rest ↔ thinkClose <:+: arg.value ∨ thinkClose <:+: rest := by
  have hend : thinkClose <:+: dsmlLong.paramEnd ++ 0x0a :: rest ↔ thinkClose <:+: 0x0a :: rest :=
    infix_tag rfl rfl (by decide) (not_close_front (take_dsml (.inr rfl)))
  rw [appendDsmlArg_eq, infix_param, List.append_assoc, ← infix_body, ← infix_newline rest, ← hend]
  exact infix_append_of_head rfl (by decide)

theorem infix_args (args : List JsonArg) (rest : List UInt8) :
    thinkClose <:+: args.flatMap appendDsmlArg ++ rest ↔
      (∃ arg ∈ args, thinkClose <:+: arg.value) ∨ thinkClose <:+: rest := by
  induction args with
  | nil => simp
  | cons arg args ih =>
    rw [List.flatMap_cons, List.append_assoc, infix_arg, ih, ← or_assoc, List.exists_mem_cons_iff]

theorem infix_calls (calls : List ToolCall) (rest : List UInt8) :
    thinkClose <:+: calls.flatMap appendDsmlToolCall ++ rest ↔
      (∃ call ∈ calls, ∃ arg ∈ callArgs call.arguments, thinkClose <:+: arg.value) ∨ thinkClose <:+: rest := by
  induction calls with
  | nil => simp
  | cons call calls ih =>
    have hend (rest : List UInt8) : thinkClose <:+: dsmlLong.invokeEnd ++ rest ↔ thinkClose <:+: rest :=
      infix_tag rfl rfl (by decide) (not_close_front (take_dsml (.inr rfl)))
    rw [List.flatMap_cons, List.append_assoc, appendDsmlToolCall_eq, infix_invoke, infix_newline, infix_args, hend,
      infix_newline, ih, ← or_assoc, List.exists_mem_cons_iff]

/-- A `</think>` in the block is one in a value. -/
theorem close_block_iff : thinkClose <:+: turn.block ↔
    ∃ call ∈ turn.calls, ∃ arg ∈ callArgs call.arguments, thinkClose <:+: arg.value := by
  have hopen (rest : List UInt8) : thinkClose <:+: dsmlLong.toolCallsStart ++ rest ↔ thinkClose <:+: rest :=
    infix_tag rfl rfl (by decide) (not_close_front (take_dsml (.inl rfl)))
  have hend : ¬ thinkClose <:+: dsmlLong.toolCallsEnd := by decide
  rw [block_eq, infix_newline, infix_newline, hopen, callsText, infix_newline, infix_calls, or_iff_left hend]
  simp [ObjectCall.toolCall]

/-! ## The condition -/

/-- A member that comes back: a string without a zero byte, an entity or `</think>`, under a key that does not
end the way the `string` attribute begins; any other value without `</think>`. -/
def ArgMember.Fits (m : ArgMember) : Prop :=
  0 ∉ m.key ∧
    match m.value with
    | .string s => 0 ∉ s ∧ NoEntity s ∧ ¬ thinkClose <:+: s ∧ ¬ StringKey m.key
    | _ => ¬ thinkClose <:+: m.valueText

/-- A call that comes back: the server's own reader takes its arguments, and every member comes back. -/
structure ObjectCall.Fits (call : ObjectCall) : Prop where
  readable : (jsonArgsParse call.arguments).isSome
  each : ∀ m ∈ call.members, m.Fits

/-! ## What is written for a member -/

variable {m : ArgMember} {call : ObjectCall} {limit : Nat} {s : List UInt8}

theorem cString_eq_self_iff : cString s = s ↔ 0 ∉ s :=
  ⟨fun h => h ▸ cString_zero s, cString_eq⟩

theorem ArgMember.arg_string (h : m.value = .string s) : m.arg = ⟨cString m.key, cString s, true⟩ := by
  rw [ArgMember.arg, h]

theorem ArgMember.arg_other (h : ∀ s, m.value ≠ .string s) : m.arg = ⟨cString m.key, m.valueText, false⟩ := by
  unfold ArgMember.arg
  split
  case h_1 s hs => exact absurd hs (h s)
  · rfl

theorem ArgMember.fits_string (h : m.value = .string s) : m.Fits ↔
    0 ∉ m.key ∧ 0 ∉ s ∧ NoEntity s ∧ ¬ thinkClose <:+: s ∧ ¬ StringKey m.key := by
  rw [ArgMember.Fits, h]

theorem ArgMember.fits_other (h : ∀ s, m.value ≠ .string s) :
    m.Fits ↔ 0 ∉ m.key ∧ ¬ thinkClose <:+: m.valueText := by
  unfold ArgMember.Fits
  split
  case h_1 s hs => exact absurd hs (h s)
  · rfl

/-- A member is a string or it is not. -/
theorem ArgMember.string_or (m : ArgMember) : (∃ s, m.value = .string s) ∨ ∀ s, m.value ≠ .string s := by
  rw [or_iff_not_imp_left]
  exact fun h s hs => h ⟨s, hs⟩

theorem membersText_mem {text : List UInt8} {items : List (List UInt8 × List UInt8)} (h : MembersText text items) :
    ∀ item ∈ items, item.2 ⊆ text := by
  have hmember (ws : Around) (item : List UInt8 × List UInt8) (tail : List UInt8) :
      item.2 ⊆ ws.member item tail ∧ tail ⊆ ws.member item tail := by
    unfold Around.member
    constructor
    · intro b hb
      simp [hb]
    · intro b hb
      simp [hb]
  induction h with
  | last ws item rest => exact List.forall_mem_singleton.mpr (hmember ws item _).1
  | @more ws item later items _ ih =>
    refine List.forall_mem_cons.mpr ⟨(hmember ws item _).1, fun k hk => List.Subset.trans (ih k hk) ?_⟩
    exact List.Subset.trans (List.subset_cons_self _ _) (hmember ws item _).2

/-- What stands in a value stands in the arguments. -/
theorem ObjectCall.value_zero (call : ObjectCall) : ∀ m ∈ call.members, 0 ∉ m.valueText := by
  have htext := call.text
  generalize hitems : call.members.map ArgMember.item = items at htext
  have hsubset : ∀ item ∈ items, item.2 ⊆ call.arguments := by
    have hzero := call.arguments
    generalize call.arguments = text at htext
    cases htext with
    | empty => simp
    | members hfront hmembers =>
      intro item hitem b hb
      simp [membersText_mem hmembers item hitem hb]
  intro m hm h0
  exact call.cstring (hsubset m.item (hitems ▸ List.mem_map_of_mem hm) h0)

theorem ArgMember.arg_zero (h : 0 ∉ m.valueText) : 0 ∉ m.arg.key ∧ 0 ∉ m.arg.value := by
  rcases m.string_or with ⟨s, hs⟩ | hother
  · rw [m.arg_string hs]
    exact ⟨cString_zero _, cString_zero _⟩
  · rw [m.arg_other hother]
    exact ⟨cString_zero _, h⟩

/-- The parameters of a call are its members, or its arguments as they stand. -/
theorem ObjectCall.callArgs_eq (call : ObjectCall) :
    (jsonArgsParse call.arguments).isSome ∧ callArgs call.arguments = call.members.map ArgMember.arg ∨
      (∃ m ∈ call.members, ¬ m.Shallow) ∧ callArgs call.arguments = [⟨bytes "arguments", call.arguments, true⟩] := by
  rcases jsonArgsParse_of_text call.text with hsome | ⟨hnone, hdeep⟩
  · left
    rw [callArgs, hsome]
    exact ⟨rfl, rfl⟩
  · right
    rw [callArgs, hnone]
    exact ⟨hdeep, rfl⟩

theorem ObjectCall.clean (call : ObjectCall) : CleanCall call.toolCall := by
  refine ⟨call.named.2, ?_⟩
  show ∀ arg ∈ callArgs call.arguments, _
  rcases call.callArgs_eq with ⟨-, hargs⟩ | ⟨-, hargs⟩
  · rw [hargs]
    intro arg harg
    obtain ⟨m, hm, rfl⟩ := List.mem_map.mp harg
    exact m.arg_zero (call.value_zero m hm)
  · rw [hargs]
    exact List.forall_mem_singleton.mpr ⟨show 0 ∉ bytes "arguments" by decide, call.cstring⟩

/-! ## What is read of a member -/

theorem isString_iff (arg : JsonArg) : arg.leaf.isString ↔ arg.isString = true ∧ ¬ StringKey arg.key := by
  show readType arg.key arg.isString = bytes "true" ↔ _
  unfold readType
  split
  case isTrue hkey =>
    refine iff_of_false (by decide) ?_
    simp [hkey]
  case isFalse hkey =>
    rw [and_iff_left hkey]
    cases arg.isString
    · exact iff_of_false (by decide) (by decide)
    · exact iff_of_true rfl rfl

theorem read_readBack {call : ToolCall} {members : List (List UInt8 × Value)}
    (h : List.Forall₂ (fun arg member => JsonArg.leaf arg |>.Means limit member) (callArgs call.arguments) members) :
    read (limit + 1) (readBack call).call.arguments = some (.object members) := by
  show read _ (0x7b :: ((callArgs call.arguments).map fun arg => Param.leaf arg.leaf).foldl Param.addTo [] ++
    [0x7d]) = _
  rw [foldl_params, List.map_map]
  refine read_object (by simp [spaced, isWs]) (by simp [spaced, isWs]) (List.forall₂_map_left_iff.mpr ?_)
  exact h.imp fun arg member hleaf => hleaf.reads

/-- A string that is read as one is its body without entities. -/
theorem means_string (hkey : ¬ StringKey m.arg.key) (hs : m.value = .string s) (limit : Nat) :
    m.arg.leaf.Means limit (cString m.key, .string (dsmlUnescapeText (cString s))) := by
  have hstring : m.arg.leaf.isString := by
    refine (isString_iff _).mpr ⟨?_, hkey⟩
    rw [m.arg_string hs]
  refine ⟨m.arg_key.symm, ?_⟩
  rw [if_pos hstring]
  show _ = Value.string (dsmlUnescapeText m.arg.body)
  rw [m.arg_string hs]
  exact congrArg _ (unescape_escapeWord (protects_entity rfl (by decide)) _).symm

theorem means_other (hother : ∀ s, m.value ≠ .string s) :
    ∃ limit, ∀ limit', limit ≤ limit' → m.arg.leaf.Means limit' (cString m.key, m.value) := by
  rcases m.reads_value with ⟨s, hs, -⟩ | ⟨-, -, limit, hread⟩
  · exact absurd hs (hother s)
  · refine ⟨limit, fun limit' hle => ⟨m.arg_key.symm, ?_⟩⟩
    have hstring : ¬ m.arg.leaf.isString := fun h => by
      have hboth := ((isString_iff _).mp h).1
      rw [m.arg_other hother] at hboth
      cases hboth
    rw [if_neg hstring]
    show read _ m.arg.body = _
    rw [m.arg_other hother]
    exact read_appendDsmlJsonLiteral (read_mono hread hle)

/-! ## Every turn that meets the condition survives -/

theorem means_fits {members : List ArgMember} (h : ∀ m ∈ members, m.Fits) :
    ∃ limit, ∀ limit', limit ≤ limit' →
      List.Forall₂ (fun arg member => JsonArg.leaf arg |>.Means limit' member) (members.map ArgMember.arg)
        (members.map fun m => (m.key, m.value)) := by
  induction members with
  | nil => exact ⟨0, fun _ _ => .nil⟩
  | cons m members ih =>
    obtain ⟨hm, hlater⟩ := List.forall_mem_cons.mp h
    obtain ⟨limit, hall⟩ := ih hlater
    rcases m.string_or with ⟨s, hs⟩ | hother
    · obtain ⟨hkey, hzero, hnone, -, hstringKey⟩ := (m.fits_string hs).mp hm
      refine ⟨limit, fun limit' hle => .cons ?_ (hall limit' hle)⟩
      have hmeans := means_string (by rwa [m.arg_key, cString_eq hkey]) hs limit'
      rwa [cString_eq hkey, cString_eq hzero, unescape_eq_self_iff.mpr hnone, ← hs] at hmeans
    · obtain ⟨limit₁, hmeans⟩ := means_other hother
      refine ⟨max limit limit₁, fun limit' hle => .cons ?_ (hall limit' (by omega))⟩
      have hmeans := hmeans limit' (by omega)
      rwa [cString_eq ((m.fits_other hother).mp hm).1] at hmeans

theorem ArgMember.Fits.no_close (h : m.Fits) : ¬ thinkClose <:+: m.arg.value := by
  rcases m.string_or with ⟨s, hs⟩ | hother
  · obtain ⟨-, hzero, -, hclose, -⟩ := (m.fits_string hs).mp h
    rw [m.arg_string hs]
    show ¬ thinkClose <:+: cString s
    rwa [cString_eq hzero]
  · rw [m.arg_other hother]
    exact ((m.fits_other hother).mp h).2

theorem ObjectCall.Fits.callArgs_eq (h : call.Fits) :
    callArgs call.arguments = call.members.map ArgMember.arg := by
  rcases jsonArgsParse_of_text call.text with hsome | ⟨hnone, -⟩
  · rw [callArgs, hsome]
    rfl
  · have hreadable := h.readable
    rw [hnone] at hreadable
    cases hreadable

theorem survives_of_fits (h : ∀ call ∈ turn.calls, call.Fits) : turn.Survives := by
  have hclose : ¬ thinkClose <:+: turn.block := by
    rw [close_block_iff]
    rintro ⟨call, hcall, arg, harg, hat⟩
    rw [(h call hcall).callArgs_eq] at harg
    obtain ⟨m, hm, rfl⟩ := List.mem_map.mp harg
    exact ((h call hcall).each m hm).no_close hat
  refine ⟨_, parse_turn (fun call _ => call.clean) hclose, rfl, rfl, ?_⟩
  rw [List.forall₂_map_right_iff, List.forall₂_same]
  intro call hcall
  obtain ⟨limit, hmeans⟩ := means_fits (h call hcall).each
  refine ⟨rfl, limit + 1, read_readBack ?_⟩
  show List.Forall₂ _ (callArgs call.arguments) _
  rw [(h call hcall).callArgs_eq]
  exact hmeans limit (Nat.le_refl _)

end Spark.Server
