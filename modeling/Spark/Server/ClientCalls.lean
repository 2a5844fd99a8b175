import Spark.Server.GlmReading

/-!
# What reaches the client of a finished reply

`parse_generated_message_for_response_for_syntax`, and the arguments of the parsed calls as they are sent.

* **`callWhole_iff`** — a call is sent as it was written just when the server can spell all of its parameters.
-/

namespace Spark.Server

open Json

/-! ## The reply -/

inductive ServerModelSyntax where
  | deepseek
  | glm
  deriving DecidableEq, Repr

/-- `parse_generated_message_ex_for_syntax`. -/
def parseGeneratedMessageExForSyntax (modelSyntax : ServerModelSyntax) (text : List UInt8)
    (requireThinkingClosed : Bool) : Option GeneratedMessage :=
  match modelSyntax with
  | .glm => parseGlmGeneratedMessageEx text requireThinkingClosed
  | .deepseek => parseDeepseekGeneratedMessageEx text requireThinkingClosed

/-- `tool_parse_failure_recovery_finish`. -/
def toolParseFailureRecoveryFinish (finish : List UInt8) : List UInt8 :=
  if finish = bytes "length" then bytes "length" else bytes "stop"

/-- What the parser leaves for the response: its answer, the message, the finish reason and the error. -/
structure ResponseMessage where
  parsed : Bool
  message : GeneratedMessage
  finish : Option (List UInt8)
  err : Option (List UInt8)
  recovered : Bool
  deriving DecidableEq, Repr

/-- `parse_generated_message_for_response_for_syntax`; no finish reason stands for the null pointer. -/
def parseGeneratedMessageForResponseForSyntax (modelSyntax : ServerModelSyntax) (text : List UInt8)
    (hasTools sawToolStart requireThinkingClosed : Bool) (finish : Option (List UInt8)) : ResponseMessage :=
  match parseGeneratedMessageExForSyntax modelSyntax text requireThinkingClosed with
  | some message => ⟨true, message, finish, none, false⟩
  | none =>
    let reason := finish.getD (bytes "stop")
    if hasTools ∧ sawToolStart ∧ reason ≠ bytes "error" then
      ⟨false, ⟨text, none, [], none⟩, some (toolParseFailureRecoveryFinish reason),
        some (bytes "invalid tool call"), true⟩
    else ⟨false, ⟨text, none, [], none⟩, finish, none, false⟩

/-! ## What is written -/

/-- The calls that stand in a reply as they are written, where the parser looks for them. -/
def Written (modelSyntax : ServerModelSyntax) (text : List UInt8) (requireThinkingClosed : Bool)
    (invokes : List Invoke) : Prop :=
  match modelSyntax with
  | .deepseek =>
    match toolSearch text requireThinkingClosed with
    | none => invokes = []
    | some (search, _) =>
      match findToolBlock (text.drop search) with
      | none => invokes = []
      | some (pos, syn) =>
        ∃ opener rest, strstr (text.drop (search + pos)) syn.toolCallsStart = some opener ∧
          Invokes syn (text.drop (search + pos + opener + syn.toolCallsStart.length)) invokes rest
  | .glm =>
    match glmToolSearch text requireThinkingClosed with
    | none => invokes = []
    | some (search, _) =>
      match strstr (text.drop search) glmToolStart with
      | none => invokes = []
      | some pos => ∃ rest, GlmInvokes (text.drop (search + pos)) invokes rest

/-- The member a parameter spells, however deeply its value is nested. -/
inductive Param.Spells : Param → List UInt8 × Value → Prop where
  | leaf {leaf member} (h : ∃ limit, leaf.Means limit member) : Param.Spells (.leaf leaf) member
  | nested {name members inner}
      (h : List.Forall₂ (fun leaf member => ∃ limit, leaf.Means limit member) members inner) :
      Param.Spells (.nested name members) (name, .object inner)

/-- A call as it was written: its arguments, and what is sent of them, are the object its parameters spell. -/
def CallWhole (invoke : Invoke) (call : ToolCall) : Prop :=
  call.name = invoke.name ∧ ∃ members, List.Forall₂ Param.Spells invoke.params members ∧
    (∃ limit, read limit call.arguments = some (.object members)) ∧
    ∃ limit, read limit (appendJsonObjectOrEmpty call.arguments) = some (.object members)

/-- Every call of a reply reaches the client as it was written. -/
def CallsReachClient (modelSyntax : ServerModelSyntax) (text : List UInt8) (requireThinkingClosed : Bool) : Prop :=
  ∀ message, parseGeneratedMessageExForSyntax modelSyntax text requireThinkingClosed = some message →
    (∃ invokes, Written modelSyntax text requireThinkingClosed invokes) ∧
      ∀ invokes, Written modelSyntax text requireThinkingClosed invokes → List.Forall₂ CallWhole invokes message.calls

/-! ## One call -/

/-- Members with a limit each have one together. -/
theorem common_limit {items : List (List UInt8 × List UInt8)} {members : List (List UInt8 × Value)}
    (h : List.Forall₂ AnyMember items members) : ∃ limit, List.Forall₂ (MemberReads limit) items members := by
  induction h with
  | nil => exact ⟨0, .nil⟩
  | cons hitem _ ih =>
    obtain ⟨limit, hkey, hvalue⟩ := hitem
    obtain ⟨limit', hitems⟩ := ih
    refine ⟨max limit limit', .cons ⟨hkey, read_mono hvalue (Nat.le_max_left _ _)⟩ ?_⟩
    exact hitems.imp fun item member hreads => ⟨hreads.1, read_mono hreads.2 (Nat.le_max_right _ _)⟩

theorem spaced_blank : ∀ b ∈ spaced, isWs b = true := by simp [spaced, isWs]

theorem Param.Spells.reads {param : Param} {member : List UInt8 × Value} (h : param.Spells member) :
    AnyMember param.item member := by
  cases h with
  | leaf h =>
    obtain ⟨limit, hmeans⟩ := h
    exact ⟨limit, hmeans.reads⟩
  | @nested name members inner h =>
    have hany : List.Forall₂ AnyMember (members.map Leaf.item) inner :=
      List.forall₂_map_left_iff.mpr (h.imp fun leaf member hleaf => hleaf.imp fun _ hmeans => hmeans.reads)
    obtain ⟨limit, hreads⟩ := common_limit hany
    have htype : bytes "false" ≠ bytes "true" := by decide
    exact ⟨limit + 1, quotes_jsonEscape _, read_argText htype (read_object spaced_blank spaced_blank hreads)⟩

theorem Leaf.Means.of_within {limit n : Nat} {leaf : Leaf} {member : List UInt8 × Value} (h : leaf.Means limit member)
    (hwithin : member.2.Within n) : leaf.Means n member := by
  have hvalue := h.2
  by_cases hstring : leaf.isString
  · rw [if_pos hstring] at hvalue
    exact ⟨h.1, by rwa [if_pos hstring]⟩
  · rw [if_neg hstring] at hvalue
    exact ⟨h.1, by rw [if_neg hstring]; exact read_of_within hvalue hwithin⟩

theorem Param.Means.spells {param : Param} {member : List UInt8 × Value} (h : param.Means member) :
    param.Spells member := by
  cases h with
  | leaf h => exact .leaf ⟨_, h⟩
  | nested h => exact .nested (h.imp fun leaf member hleaf => ⟨_, hleaf⟩)

/-- A parameter the server takes apart and holds as it is. -/
theorem Param.Spells.means {param : Param} {member : List UInt8 × Value} (h : param.Spells member)
    (hwithin : member.2.Within jsonMaxNesting) (hcut : cutMember member = member) : param.Means member := by
  cases h with
  | leaf h =>
    obtain ⟨limit, hmeans⟩ := h
    refine .leaf (hmeans.of_within hwithin) fun _ s hs => ?_
    have hcut' := congrArg Prod.snd hcut
    rw [cutMember, hs] at hcut'
    rw [← Value.string.inj hcut']
    exact cString_zero s
  | @nested name members inner h =>
    refine .nested ?_
    cases hwithin with
    | object hinner =>
      refine (Traverse.forall₂_and_right h hinner).imp fun leaf member hleaf => ?_
      obtain ⟨⟨limit, hmeans⟩, hmember⟩ := hleaf
      exact hmeans.of_within hmember

/-- The empty object is one without members. -/
theorem read_empty {limit : Nat} {members : List (List UInt8 × Value)}
    (h : read limit (bytes "\x7b\x7d") = some (.object members)) : members = [] := by
  cases limit with
  | zero => cases h
  | succ limit =>
    cases h
    rfl

/-- A call is sent as it was written just when the server can spell all of its parameters. -/
theorem callWhole_iff {invoke : Invoke} (hclean : ∀ param ∈ invoke.params, param.Clean) :
    CallWhole invoke invoke.call ↔ ∃ members, List.Forall₂ Param.Means invoke.params members := by
  constructor
  · rintro ⟨-, members, hspells, -, limit, hsent⟩
    refine ⟨members, ?_⟩
    have hany : List.Forall₂ AnyMember (invoke.params.map Param.item) members :=
      List.forall₂_map_left_iff.mpr (hspells.imp fun param member h => h.reads)
    have hcall : invoke.call.arguments =
        0x7b :: membersText spaced spaced (invoke.params.map Param.item) ++ [0x7d] := by
      rw [← foldl_params]
      rfl
    rw [hcall] at hsent
    rcases appendJsonObjectOrEmpty_or hany with ⟨hnone, m, hm, -⟩ | ⟨hread, hwithin⟩
    · rw [hnone] at hsent
      rw [read_empty hsent] at hm
      cases hm
    · -- what was sent is the same object twice, so no member was cut
      have hsame := (read_mono hread (Nat.le_max_left _ limit)).symm.trans (read_mono hsent (Nat.le_max_right _ _))
      have hcut := Value.object.inj (Option.some.inj hsame)
      have hall : ∀ member ∈ members, member.2.Within jsonMaxNesting ∧ cutMember member = member := by
        intro member hmember
        exact ⟨hwithin member hmember, List.map_inj_left.mp (hcut.trans (List.map_id members).symm) member hmember⟩
      refine (Traverse.forall₂_and_right hspells hall).imp fun param member h => ?_
      obtain ⟨hspelled, hmember, hcutMember⟩ := h
      exact hspelled.means hmember hcutMember
  · rintro ⟨members, hmeans⟩
    refine ⟨rfl, members, hmeans.imp fun param member h => h.spells, ⟨_, read_arguments hmeans⟩, ?_⟩
    exact ⟨_, read_rewritten hmeans hclean⟩

/-! ## All calls of a reply -/

variable {text : List UInt8} {require : Bool} {invokes : List Invoke}

theorem findToolBlock_mem {search : List UInt8} {pos : Nat} {syn : DsmlSyntax}
    (h : findToolBlock search = some (pos, syn)) : syn ∈ dsmlSyntaxes := by
  unfold findToolBlock at h
  split at h
  · cases h
    simp [dsmlSyntaxes]
  split at h
  · cases h
    simp [dsmlSyntaxes]
  · obtain ⟨found, -, hfound⟩ := Option.map_eq_some_iff.mp h
    cases hfound
    simp [dsmlSyntaxes]

/-- The calls of a reply in DSML are the ones that stand in it. -/
theorem calls_of_written (h0 : 0 ∉ text) (h : Written .deepseek text require invokes) :
    ∃ message, parseDeepseekGeneratedMessageEx text require = some message ∧
      message.calls = invokes.map Invoke.call := by
  simp only [Written] at h
  rw [parseDeepseekGeneratedMessageEx]
  cases hsearch : toolSearch text require with
  | none =>
    rw [hsearch] at h
    obtain rfl := h
    exact ⟨_, rfl, rfl⟩
  | some found =>
    obtain ⟨search, recovered⟩ := found
    rw [hsearch] at h
    dsimp only at h ⊢
    cases hblock : findToolBlock (text.drop search) with
    | none =>
      rw [hblock] at h
      obtain rfl := h
      exact ⟨_, rfl, rfl⟩
    | some block =>
      obtain ⟨pos, syn⟩ := block
      rw [hblock] at h
      obtain ⟨opener, rest, hopener, hinvokes⟩ := h
      have hzero : 0 ∉ text.drop (search + pos + opener + syn.toolCallsStart.length) :=
        fun hmem => h0 (List.mem_of_mem_drop hmem)
      have hparse := parseInvokes_of_invokes (findToolBlock_mem hblock) hinvokes hzero (Nat.lt_succ_self _) []
      dsimp only
      rw [hopener]
      dsimp only
      rw [hparse]
      cases recovered <;> exact ⟨_, rfl, rfl⟩

theorem written_of_parse (h0 : 0 ∉ text) {message : GeneratedMessage}
    (h : parseDeepseekGeneratedMessageEx text require = some message) :
    ∃ invokes, Written .deepseek text require invokes := by
  simp only [Written]
  rw [parseDeepseekGeneratedMessageEx] at h
  cases hsearch : toolSearch text require with
  | none => exact ⟨[], rfl⟩
  | some found =>
    obtain ⟨search, recovered⟩ := found
    rw [hsearch] at h
    dsimp only at h ⊢
    cases hblock : findToolBlock (text.drop search) with
    | none => exact ⟨[], rfl⟩
    | some block =>
      obtain ⟨pos, syn⟩ := block
      rw [hblock] at h
      dsimp only at h ⊢
      cases hopener : strstr (text.drop (search + pos)) syn.toolCallsStart with
      | none => simp [hopener] at h
      | some opener =>
        rw [hopener] at h
        dsimp only at h
        generalize hp : text.drop (search + pos + opener + syn.toolCallsStart.length) = p at h
        have hzero : 0 ∉ p := fun hmem => h0 (List.mem_of_mem_drop (by rw [hp]; exact hmem))
        cases hparse : parseInvokes syn (p.length + 1) p [] with
        | none => simp [hparse] at h
        | some read =>
          obtain ⟨invokes, hinvokes, -⟩ := invokes_of_parse (findToolBlock_mem hblock) hzero hparse
          exact ⟨invokes, opener, read.2, rfl, by rw [hp]; exact hinvokes⟩

/-- The calls of a GLM reply stand in it, and no others do. -/
theorem glm_written (h0 : 0 ∉ text) {message : GeneratedMessage}
    (h : parseGlmGeneratedMessageEx text require = some message) :
    (∃ invokes, Written .glm text require invokes) ∧
      ∀ invokes, Written .glm text require invokes → message.calls = invokes.map Invoke.call := by
  simp only [Written]
  rw [parseGlmGeneratedMessageEx] at h
  cases hsearch : glmToolSearch text require with
  | none =>
    rw [hsearch] at h
    cases h
    exact ⟨⟨[], rfl⟩, by rintro _ rfl; rfl⟩
  | some found =>
    obtain ⟨search, recovered⟩ := found
    rw [hsearch] at h
    dsimp only at h ⊢
    cases hstart : strstr (text.drop search) glmToolStart with
    | none =>
      rw [hstart] at h
      cases h
      exact ⟨⟨[], rfl⟩, by rintro _ rfl; rfl⟩
    | some pos =>
      rw [hstart] at h
      dsimp only at h ⊢
      have hzero : 0 ∉ text.drop (search + pos) := fun hmem => h0 (List.mem_of_mem_drop hmem)
      cases hloop : glmCallsLoop (text.length + 1) (text.drop (search + pos)) [] with
      | none => simp [hloop] at h
      | some read =>
        obtain ⟨calls, rest⟩ := read
        rw [hloop] at h
        dsimp only at h
        obtain ⟨invokes, hinvokes⟩ := glmInvokes_of_parse hzero hloop
        refine ⟨⟨invokes, rest, hinvokes⟩, ?_⟩
        rintro invokes' ⟨rest', hinvokes'⟩
        have hcalls : message.calls = calls := by
          split at h
          · cases h
          · split at h <;> cases h <;> rfl
        rw [hcalls, calls_of_glmInvokes hinvokes' hloop]
        rfl

/-- No name of a parameter holds a zero byte. -/
theorem written_clean {modelSyntax : ServerModelSyntax} (h0 : 0 ∉ text)
    (h : Written modelSyntax text require invokes) :
    ∀ invoke ∈ invokes, ∀ param ∈ invoke.params, param.Clean := by
  have hzero {n : Nat} : 0 ∉ text.drop n := fun hmem => h0 (List.mem_of_mem_drop hmem)
  cases modelSyntax with
  | deepseek =>
    simp only [Written] at h
    split at h
    · simp [h]
    split at h
    · simp [h]
    · obtain ⟨opener, rest, -, hinvokes⟩ := h
      exact hinvokes.clean hzero
  | glm =>
    simp only [Written] at h
    split at h
    · simp [h]
    split at h
    · simp [h]
    · obtain ⟨rest, hinvokes⟩ := h
      exact hinvokes.clean hzero

/-- Every string is one the server can spell, and GLM knows no other parameters. -/
theorem glm_meaningful (h : Written .glm text require invokes) : Meaningful invokes := by
  have hstrings : ∀ invoke ∈ invokes, ∀ param ∈ invoke.params, ∃ leaf, param = .leaf leaf ∧ leaf.isString := by
    simp only [Written] at h
    split at h
    · simp [h]
    split at h
    · simp [h]
    · obtain ⟨rest, hinvokes⟩ := h
      exact hinvokes.strings
  intro invoke hinvoke
  have hparams := hstrings invoke hinvoke
  generalize invoke.params = params at hparams
  induction params with
  | nil => exact ⟨[], .nil⟩
  | cons param params ih =>
    obtain ⟨⟨leaf, rfl, hstring⟩, hlater⟩ := List.forall_mem_cons.mp hparams
    obtain ⟨members, hmembers⟩ := ih hlater
    have hmeans : leaf.Means jsonMaxNesting (leaf.name, .string (dsmlUnescapeText leaf.value)) :=
      ⟨rfl, by rw [if_pos hstring]⟩
    exact ⟨_ :: members, .cons (.leaf hmeans fun hnot => absurd hstring hnot) hmembers⟩

/-- The calls of a reply are the ones that stand in it. -/
theorem calls_written {modelSyntax : ServerModelSyntax} (h0 : 0 ∉ text) {message : GeneratedMessage}
    (h : parseGeneratedMessageExForSyntax modelSyntax text require = some message) :
    (∃ invokes, Written modelSyntax text require invokes) ∧
      ∀ invokes, Written modelSyntax text require invokes → message.calls = invokes.map Invoke.call := by
  cases modelSyntax with
  | glm => exact glm_written h0 h
  | deepseek =>
    refine ⟨written_of_parse h0 h, fun invokes hwritten => ?_⟩
    obtain ⟨message', hparse, hcalls⟩ := calls_of_written h0 hwritten
    cases h.symm.trans hparse
    exact hcalls

/-- The calls of a reply reach the client as they were written just when the server can spell every parameter
that stands in it; a reply that is refused is left as it is. -/
theorem calls_reach_client_iff (modelSyntax : ServerModelSyntax) {text : List UInt8} (h0 : 0 ∉ text)
    (require : Bool) :
    (CallsReachClient modelSyntax text require ↔
      ∀ invokes, Written modelSyntax text require invokes → Meaningful invokes) ∧
    (parseGeneratedMessageExForSyntax modelSyntax text require = none →
      ∀ hasTools sawToolStart finish,
        let response :=
          parseGeneratedMessageForResponseForSyntax modelSyntax text hasTools sawToolStart require finish
        response.parsed = false ∧ response.message = ⟨text, none, [], none⟩) := by
  constructor
  · constructor
    · intro hclient invokes hwritten invoke hinvoke
      cases modelSyntax with
      | glm => exact glm_meaningful hwritten invoke hinvoke
      | deepseek =>
        obtain ⟨message, hparse, hcalls⟩ := calls_of_written h0 hwritten
        have hwhole := (hclient message hparse).2 invokes hwritten
        rw [hcalls, List.forall₂_map_right_iff, List.forall₂_same] at hwhole
        exact (callWhole_iff (written_clean h0 hwritten invoke hinvoke)).mp (hwhole invoke hinvoke)
    · intro hspelled message hparse
      obtain ⟨hexists, hcalls⟩ := calls_written h0 hparse
      refine ⟨hexists, fun invokes hwritten => ?_⟩
      rw [hcalls invokes hwritten, List.forall₂_map_right_iff, List.forall₂_same]
      intro invoke hinvoke
      exact (callWhole_iff (written_clean h0 hwritten invoke hinvoke)).mpr (hspelled invokes hwritten invoke hinvoke)
  · intro hparse hasTools sawToolStart finish
    simp only [parseGeneratedMessageForResponseForSyntax, hparse]
    split <;> exact ⟨rfl, rfl⟩

def stringArgument : List UInt8 :=
  bytes "<tool_call>f<arg_key>k</arg_key><arg_value>v</arg_value></tool_call>"

theorem calls_reach_client_iff_string : CallsReachClient .glm stringArgument true :=
  (calls_reach_client_iff .glm (by decide : 0 ∉ stringArgument) true).1.mpr fun _ hwritten => glm_meaningful hwritten

def nestedArgument : List UInt8 :=
  bytes "<tool_calls><invoke name=\"f\"><parameter name=\"s\" string=\"true\">a</parameter>" ++
    bytes "<parameter name=\"n\" string=\"false\">1</parameter><parameter name=\"o\">" ++
    bytes "<parameter name=\"k\" string=\"false\">[2]</parameter></parameter></invoke></tool_calls>"

example : (parseGeneratedMessageExForSyntax .deepseek nestedArgument false).map GeneratedMessage.calls =
    some [⟨bytes "f", bytes "\x7b\"s\": \"a\", \"n\": 1, \"o\": \x7b\"k\":[2]\x7d\x7d"⟩] := by
  decide +kernel

/-! ## A value that is no JSON -/

/-- A call whose arguments are no JSON does not reach the client. -/
theorem not_reach_of_unread {modelSyntax : ServerModelSyntax} {calls : List ToolCall}
    (hparse : (parseGeneratedMessageExForSyntax modelSyntax text require).map GeneratedMessage.calls = some calls)
    {call : ToolCall} (hcall : call ∈ calls) (hunread : ∀ limit v, read limit call.arguments ≠ some v) :
    ¬ CallsReachClient modelSyntax text require := by
  intro hclient
  obtain ⟨message, hmessage, rfl⟩ := Option.map_eq_some_iff.mp hparse
  obtain ⟨⟨invokes, hwritten⟩, hwhole⟩ := hclient message hmessage
  obtain ⟨invoke, -, -, members, -, ⟨limit, hread⟩, -⟩ :=
    Traverse.forall₂_exists_left (hwhole invokes hwritten) hcall
  exact hunread limit _ hread

/-- A call with a string and with a value that is no JSON value. -/
def wordArgument : List UInt8 :=
  bytes "<tool_calls><invoke name=\"f\"><parameter name=\"s\" string=\"true\">a</parameter>" ++
    bytes "<parameter name=\"x\" string=\"false\">abc</parameter></invoke></tool_calls>"

def wordArguments : List UInt8 := bytes "\x7b\"s\": \"a\", \"x\": abc\x7d"

theorem parse_wordArgument : (parseGeneratedMessageExForSyntax .deepseek wordArgument false).map
    GeneratedMessage.calls = some [⟨bytes "f", wordArguments⟩] := by
  decide +kernel

theorem wordArguments_unread (limit : Nat) (v : Value) : read limit wordArguments ≠ some v := by
  intro h
  cases limit with
  | zero => cases h
  | succ limit => cases h

/-- The value is put into the arguments as it stands, and all of them are lost. -/
theorem word_argument_loses_all : ¬ CallsReachClient .deepseek wordArgument false ∧
    appendJsonObjectOrEmpty wordArguments = bytes "\x7b\x7d" :=
  ⟨not_reach_of_unread parse_wordArgument List.mem_cons_self wordArguments_unread, by decide +kernel⟩

end Spark.Server
