import Spark.Server.DsmlTags
import Spark.Server.JsonLiteral
import Spark.Server.SafeLimits
import Spark.Server.ToolArguments

/-!
# DSML calls, written and read again

An earlier reply is written into a prompt as reasoning, content and a block of its calls. Read as a reply,
that text is the reply again.

* **`parse_turn`** — what the parser makes of such a text when no `</think>` stands in the block.
-/

namespace Spark.Server

open Json Spark.Search

/-! ## Replies that are written -/

/-- A call whose arguments are an object. -/
structure ObjectCall where
  name : List UInt8
  arguments : List UInt8
  members : List ArgMember
  named : name ≠ [] ∧ 0 ∉ name
  cstring : 0 ∉ arguments
  text : ObjectText arguments (members.map ArgMember.item)
  distinct : (members.map ArgMember.key).Nodup

def ObjectCall.toolCall (call : ObjectCall) : ToolCall := ⟨call.name, call.arguments⟩

structure Turn where
  reasoning : List UInt8
  content : List UInt8
  calls : List ObjectCall
  cstring : 0 ∉ reasoning ∧ 0 ∉ content
  reasoning_plain : ¬ thinkOpen <:+: reasoning ∧ ¬ thinkClose <:+: reasoning
  content_plain : ∀ marker ∈ thinkClose :: (toolStarts ++ toolEnds), ¬ marker <:+: content
  content_ends : ∀ b ∈ content.getLast?, isspace b = false
  calling : calls ≠ []

def Turn.block (turn : Turn) : List UInt8 :=
  appendDsmlToolCallsText (turn.calls.map ObjectCall.toolCall) none

/-- The text of the turn. -/
def Turn.text (turn : Turn) : List UInt8 := turn.reasoning ++ thinkClose ++ turn.content ++ turn.block

/-- The object a call passes. -/
def ObjectCall.object (call : ObjectCall) : Value := .object (call.members.map fun m => (m.key, m.value))

/-- The same name, and arguments that are the same object. -/
def SameCall (call : ObjectCall) (parsed : ToolCall) : Prop :=
  parsed.name = call.name ∧ ∃ limit, read limit parsed.arguments = some call.object

/-- The turn is read as it was written. -/
def Turn.Survives (turn : Turn) : Prop :=
  ∃ message, parseDeepseekGeneratedMessageEx turn.text true = some message ∧
    message.reasoning = some turn.reasoning ∧ message.content = turn.content ∧
      List.Forall₂ SameCall turn.calls message.calls

/-! ## The block -/

/-- The parameters a call is written with. -/
def callArgs (json : List UInt8) : List JsonArg := (jsonArgsParse json).getD [⟨bytes "arguments", json, true⟩]

/-- The body of a parameter. -/
def JsonArg.body (arg : JsonArg) : List UInt8 :=
  if arg.isString then appendDsmlParameterText arg.value else appendDsmlJsonLiteral arg.value

def JsonArg.leaf (arg : JsonArg) : Leaf := ⟨arg.key, some (readType arg.key arg.isString), arg.body⟩

/-- The call a reader of the block gets. -/
def readBack (call : ToolCall) : Invoke := ⟨call.name, (callArgs call.arguments).map fun arg => .leaf arg.leaf⟩

/-- No zero byte is written for a call. -/
def CleanCall (call : ToolCall) : Prop :=
  0 ∉ call.name ∧ ∀ arg ∈ callArgs call.arguments, 0 ∉ arg.key ∧ 0 ∉ arg.value

theorem appendDsmlArg_eq (arg : JsonArg) (rest : List UInt8) : appendDsmlArg arg ++ rest =
    paramTag arg.key arg.isString ++ (arg.body ++ dsmlLong.paramEnd ++ 0x0a :: rest) := by
  have hend : bytes "</｜DSML｜parameter>\n" = dsmlLong.paramEnd ++ [0x0a] := rfl
  simp only [appendDsmlArg, paramTag, JsonArg.body, boolText, hend, List.append_assoc, List.singleton_append]

theorem appendDsmlArguments_eq (json : List UInt8) :
    appendDsmlArguments json = (callArgs json).flatMap appendDsmlArg := by
  rw [appendDsmlArguments, appendDsmlArgumentsFromJson, callArgs]
  cases jsonArgsParse json with
  | none =>
    have hname : appendDsmlAttrEscaped (bytes "arguments") = bytes "arguments" := by decide
    have htag : bytes "<｜DSML｜parameter name=\"arguments\" string=\"true\">" =
        paramTag (bytes "arguments") true := by
      rw [paramTag, hname]
      rfl
    have harg := appendDsmlArg_eq ⟨bytes "arguments", json, true⟩ []
    rw [List.append_nil] at harg
    show _ = appendDsmlArg ⟨bytes "arguments", json, true⟩ ++ []
    rw [List.append_nil, harg, htag]
    simp only [List.append_assoc]
    rfl
  | some args => rfl

theorem appendDsmlToolCall_eq (call : ToolCall) (rest : List UInt8) : appendDsmlToolCall call ++ rest =
    invokeTag call.name ++ 0x0a :: ((callArgs call.arguments).flatMap appendDsmlArg ++
      (dsmlLong.invokeEnd ++ 0x0a :: rest)) := by
  have hend : bytes "</｜DSML｜invoke>\n" = dsmlLong.invokeEnd ++ [0x0a] := rfl
  have hopen : bytes "\">\n" = bytes "\">" ++ [0x0a] := rfl
  simp only [appendDsmlToolCall, invokeTag, appendDsmlArguments_eq, hend, hopen, List.append_assoc,
    List.cons_append, List.nil_append]

/-! ## The block is one of the grammar -/

/-- The body ends where the closing tag behind it stands. -/
theorem body_ends (arg : JsonArg) (rest : List UInt8) :
    searchString dsmlLong.paramEnd (arg.body ++ dsmlLong.paramEnd ++ rest) = some arg.body.length := by
  have hne : dsmlLong.paramEnd ≠ [] := by decide
  rw [List.append_assoc]
  refine (searchString_first hne _).unique ?_
  unfold JsonArg.body
  split
  case isTrue => exact first_escapeWord (protects_entity rfl (by decide)) (by decide) arg.value rest
  case isFalse => exact first_escapeWord (protects_spelled rfl (by decide)) (by decide) arg.value rest

theorem leafText {arg : JsonArg} (hkey : 0 ∉ arg.key) (rest : List UInt8) :
    LeafText dsmlLong arg.leaf (paramTag arg.key arg.isString) (appendDsmlArg arg ++ rest) (0x0a :: rest) where
  tagged := tagged_param hkey arg.isString
  typed := param_typed hkey arg.isString
  ends := body_ends arg _
  text_eq := appendDsmlArg_eq arg rest

theorem spaces_newline : Spaces [0x0a] := by simp [Spaces, isspace]

theorem params_written {args : List JsonArg} (hargs : ∀ arg ∈ args, 0 ∉ arg.key) (rest : List UInt8) :
    Params dsmlLong (0x0a :: (args.flatMap appendDsmlArg ++ (dsmlLong.invokeEnd ++ rest)))
      (args.map fun arg => .leaf arg.leaf) rest := by
  induction args with
  | nil => exact .close spaces_newline
  | cons arg args ih =>
    have hlater := ih fun a ha => hargs a (List.mem_cons_of_mem _ ha)
    have htext := leafText (hargs arg List.mem_cons_self)
      (args.flatMap appendDsmlArg ++ (dsmlLong.invokeEnd ++ rest))
    rw [List.flatMap_cons, List.append_assoc]
    exact .leaf spaces_newline htext (fun h => by cases h) hlater

theorem invokes_written {calls : List ToolCall} (hcalls : ∀ call ∈ calls, CleanCall call) (rest : List UInt8) :
    Invokes dsmlLong (0x0a :: (calls.flatMap appendDsmlToolCall ++ (dsmlLong.toolCallsEnd ++ rest)))
      (calls.map readBack) rest := by
  induction calls with
  | nil => exact .close spaces_newline
  | cons call calls ih =>
    have hlater := ih fun c hc => hcalls c (List.mem_cons_of_mem _ hc)
    obtain ⟨hname, hargs⟩ := hcalls call List.mem_cons_self
    rw [List.flatMap_cons, List.append_assoc, appendDsmlToolCall_eq]
    exact .invoke spaces_newline (tagged_invoke hname)
      (params_written (fun arg harg => (hargs arg harg).1) _) hlater

theorem escapeWord_zero {word replacement text : List UInt8} (hreplacement : 0 ∉ replacement) (htext : 0 ∉ text) :
    0 ∉ escapeWord word replacement text := by
  induction text with
  | nil => exact htext
  | cons c text ih =>
    rw [List.mem_cons, not_or] at htext
    rw [escapeWord]
    split
    case isTrue =>
      rw [List.mem_append, not_or]
      exact ⟨hreplacement, ih htext.2⟩
    case isFalse =>
      rw [List.mem_cons, not_or]
      exact ⟨htext.1, ih htext.2⟩

theorem body_zero {arg : JsonArg} (hvalue : 0 ∉ arg.value) : 0 ∉ arg.body := by
  unfold JsonArg.body
  split
  case isTrue => exact escapeWord_zero (by decide) hvalue
  case isFalse => exact escapeWord_zero (by decide) hvalue

theorem appendDsmlArg_zero {arg : JsonArg} (hkey : 0 ∉ arg.key) (hvalue : 0 ∉ arg.value) :
    0 ∉ appendDsmlArg arg := by
  have harg := appendDsmlArg_eq arg []
  rw [List.append_nil] at harg
  rw [harg]
  simp only [List.mem_append, not_or]
  exact ⟨paramTag_zero hkey, ⟨body_zero hvalue, by decide⟩, by decide⟩

theorem appendDsmlToolCall_zero {call : ToolCall} (hcall : CleanCall call) : 0 ∉ appendDsmlToolCall call := by
  have hwritten := appendDsmlToolCall_eq call []
  rw [List.append_nil] at hwritten
  rw [hwritten]
  simp only [List.mem_append, List.mem_cons, List.mem_flatMap, not_or, not_exists, not_and]
  exact ⟨invokeTag_zero hcall.1, by decide,
    fun arg harg => appendDsmlArg_zero (hcall.2 arg harg).1 (hcall.2 arg harg).2, by decide, by decide, by simp⟩

/-! ## Around the block -/

variable {turn : Turn}

/-- The calls of a block and its closing tag. -/
def callsText (calls : List ToolCall) : List UInt8 :=
  0x0a :: (calls.flatMap appendDsmlToolCall ++ dsmlLong.toolCallsEnd)

theorem block_eq (turn : Turn) : turn.block =
    0x0a :: (0x0a :: (dsmlLong.toolCallsStart ++ callsText (turn.calls.map ObjectCall.toolCall))) := by
  have hne : turn.calls.map ObjectCall.toolCall ≠ [] := by simpa using turn.calling
  have hopen : bytes "\n\n<｜DSML｜tool_calls>\n" = 0x0a :: 0x0a :: (dsmlLong.toolCallsStart ++ [0x0a]) := rfl
  unfold Turn.block appendDsmlToolCallsText
  rw [if_neg hne]
  show bytes "\n\n<｜DSML｜tool_calls>\n" ++ _ ++ _ = _
  simp only [hopen, callsText, List.cons_append, List.append_assoc, List.nil_append]
  rfl

theorem block_zero (hcalls : ∀ call ∈ turn.calls, CleanCall call.toolCall) : 0 ∉ turn.block := by
  rw [block_eq, callsText]
  simp only [List.mem_cons, List.mem_append, List.mem_flatMap, List.mem_map, not_or, not_exists, not_and]
  refine ⟨by decide, by decide, by decide, by decide, ?_, by decide⟩
  rintro _ ⟨call, hcall, rfl⟩
  exact appendDsmlToolCall_zero (hcalls call hcall)

theorem text_zero (hcalls : ∀ call ∈ turn.calls, CleanCall call.toolCall) : 0 ∉ turn.text := by
  simp only [Turn.text, List.mem_append, not_or]
  exact ⟨⟨⟨turn.cstring.1, by decide⟩, turn.cstring.2⟩, block_zero hcalls⟩

theorem drop_reasoning (turn : Turn) : turn.text.drop (turn.reasoning.length + thinkClose.length) =
    turn.content ++ turn.block := by
  rw [Turn.text, List.append_assoc, ← List.length_append, List.drop_left]

theorem occurs_close (turn : Turn) : Occurs thinkClose turn.text turn.reasoning.length := by
  rw [Occurs, Turn.text, List.append_assoc, List.append_assoc, List.drop_left]
  exact List.prefix_append _ _

theorem distinct_close : Distinct 0x3c [thinkClose] := by
  unfold Distinct
  decide

/-- A word without a line feed stands in the content or in the block. -/
theorem occurs_content {word : List UInt8} (hword : 0x0a ∉ word) {i : Nat} (hi : i ≤ turn.content.length) :
    Occurs word (turn.content ++ turn.block) i ↔ Occurs word turn.content i := by
  rw [block_eq]
  exact occurs_append_of_not_mem hword hi

/-- Behind the one that ends the reasoning, there is a `</think>` only in the block. -/
theorem close_behind {i : Nat} (hi : turn.reasoning.length < i) (hat : Occurs thinkClose turn.text i) :
    ∃ k, i = turn.reasoning.length + thinkClose.length + turn.content.length + k ∧
      Occurs thinkClose turn.block k := by
  have hle := distinct_close.no_overlap (List.mem_singleton.mpr rfl) (List.mem_singleton.mpr rfl)
    (occurs_close turn) hat hi
  obtain ⟨j, rfl⟩ := Nat.exists_eq_add_of_le hle
  rw [← occurs_drop, drop_reasoning] at hat
  by_cases hj : j ≤ turn.content.length
  · rw [occurs_content (by decide) hj] at hat
    exact absurd (infix_iff_occurs.mpr ⟨j, hat⟩) (turn.content_plain _ List.mem_cons_self)
  · obtain ⟨k, rfl⟩ := Nat.exists_eq_add_of_le (Nat.le_of_not_le hj)
    refine ⟨k, by omega, ?_⟩
    rwa [← occurs_drop, List.drop_left] at hat

theorem toolSearch_turn (h0 : 0 ∉ turn.text) (hclose : ¬ thinkClose <:+: turn.block) :
    toolSearch turn.text true = some (turn.reasoning.length + thinkClose.length, false) := by
  have hlast : Last (Occurs thinkClose turn.text) (some turn.reasoning.length) := by
    refine ⟨occurs_close turn, fun i hi hat => ?_⟩
    obtain ⟨k, -, hk⟩ := close_behind hi hat
    exact hclose (infix_iff_occurs.mpr ⟨k, hk⟩)
  rw [toolSearch, if_pos rfl, (findLastSubstr_last thinkClose_ne_nil h0).unique hlast]

theorem findToolBlock_turn (h0 : 0 ∉ turn.text) :
    findToolBlock (turn.content ++ turn.block) = some (turn.content.length, dsmlLong) := by
  have h0' : 0 ∉ turn.content ++ turn.block := by
    rw [← drop_reasoning]
    exact fun hmem => h0 (List.mem_of_mem_drop hmem)
  have hfirst : First (Occurs (bytes "\n\n" ++ dsmlLong.toolCallsStart) (turn.content ++ turn.block))
      (some turn.content.length) := by
    constructor
    · rw [Occurs, List.drop_left, block_eq]
      exact ⟨callsText _, rfl⟩
    · intro i hi hat
      -- the tag would begin two bytes further on
      have htag : Occurs dsmlLong.toolCallsStart (turn.content ++ turn.block) (i + 2) := by
        obtain ⟨rest, hrest⟩ := hat
        exact ⟨rest, by rw [← List.drop_drop, ← hrest]; rfl⟩
      by_cases hin : i + 2 ≤ turn.content.length
      · rw [occurs_content (by decide) hin] at htag
        exact turn.content_plain dsmlLong.toolCallsStart (by decide) (infix_iff_occurs.mpr ⟨_, htag⟩)
      · obtain rfl : i = turn.content.length - 1 := by omega
        rw [show turn.content.length - 1 + 2 = turn.content.length + 1 by omega, ← occurs_drop, List.drop_left,
          block_eq] at htag
        obtain ⟨rest, hrest⟩ := htag
        cases hrest
  rw [findToolBlock, findOpener, (strstr_first (by decide) h0').unique hfirst]

/-- The text up to the block ends in no white space. -/
theorem trim_turn (turn : Turn) : trimToolSeparatorWs turn.text 0
    (turn.reasoning.length + thinkClose.length + turn.content.length) =
      turn.reasoning.length + thinkClose.length + turn.content.length := by
  refine trimToolSeparatorWs_eq (le_refl _) (Nat.zero_le _) (fun i hi hlt => absurd hlt (by omega)) fun _ => ?_
  have hfront : turn.text = (turn.reasoning ++ thinkClose ++ turn.content) ++ turn.block := rfl
  have hlength : turn.reasoning.length + thinkClose.length + turn.content.length =
      (turn.reasoning ++ thinkClose ++ turn.content).length := by
    rw [List.length_append, List.length_append]
  have hpos : 0 < (turn.reasoning ++ thinkClose ++ turn.content).length := by
    rw [← hlength, length_thinkClose]
    omega
  rw [spaceAt, hlength, hfront, List.getElem?_append_left (Nat.sub_lt hpos Nat.one_pos), ← List.getLast?_eq_getElem?]
  by_cases hcontent : turn.content = []
  · rw [hcontent, List.append_nil, List.getLast?_append_of_ne_nil _ thinkClose_ne_nil]
    rfl
  · rw [List.getLast?_append_of_ne_nil _ hcontent]
    cases hlast : turn.content.getLast? with
    | none => rfl
    | some b => exact turn.content_ends b hlast

/-- The reasoning of the turn ends where it was ended, whatever follows. -/
theorem split_turn (turn : Turn) {content : List UInt8} (hcontent : 0 ∉ content) :
    splitReasoningContent (turn.reasoning ++ thinkClose ++ content) = (content, some turn.reasoning) := by
  have hopen : ¬ thinkOpen.isPrefixOf (turn.reasoning ++ thinkClose ++ content) = true := fun h => by
    have hat := List.isPrefixOf_iff_prefix.mp h
    rw [List.append_assoc] at hat
    rcases prefix_append_cases hat with hin | ⟨more, hmore, hbehind⟩
    · exact turn.reasoning_plain.1 hin.isInfix
    · cases hreasoning : turn.reasoning with
      | nil =>
        rw [hreasoning, List.nil_append] at hmore
        rw [← hmore] at hbehind
        obtain ⟨rest, hrest⟩ := hbehind
        cases hrest
      | cons b reasoning =>
        cases more with
        | nil => exact turn.reasoning_plain.1 ⟨[], [], by simp [hmore]⟩
        | cons c more =>
          obtain ⟨rest, hrest⟩ := hbehind
          obtain ⟨rfl, -⟩ := List.cons.inj (hrest : c :: (more ++ rest) = 0x3c :: (thinkClose.tail ++ content))
          have htail : thinkOpen.tail = reasoning ++ 0x3c :: more := by
            rw [hmore, hreasoning]
            rfl
          exact absurd (show (0x3c : UInt8) ∈ thinkOpen.tail by rw [htail]; simp) (by decide)
  have h0 : 0 ∉ turn.reasoning ++ thinkClose ++ content := by
    simp only [List.mem_append, not_or]
    exact ⟨⟨turn.cstring.1, by decide⟩, hcontent⟩
  have hfirst : First (Occurs thinkClose (turn.reasoning ++ thinkClose ++ content))
      (some turn.reasoning.length) := by
    constructor
    · rw [Occurs, List.append_assoc, List.drop_left]
      exact List.prefix_append _ _
    · intro i hi hat
      have hhere : Occurs thinkClose (turn.reasoning ++ thinkClose ++ content) turn.reasoning.length := by
        rw [Occurs, List.append_assoc, List.drop_left]
        exact List.prefix_append _ _
      have hle := distinct_close.no_overlap (List.mem_singleton.mpr rfl) (List.mem_singleton.mpr rfl) hat hhere hi
      refine turn.reasoning_plain.2 (infix_iff_occurs.mpr ⟨i, ?_⟩)
      have htake := (occurs_take (n := turn.reasoning.length) thinkClose_ne_nil).mpr ⟨hat, hle⟩
      rwa [List.append_assoc, List.take_left] at htake
  have hlength : turn.reasoning.length + thinkClose.length = (turn.reasoning ++ thinkClose).length := by simp
  rw [splitReasoningContent, dropThinkOpen, if_neg hopen]
  simp only [(strstr_first thinkClose_ne_nil h0).unique hfirst, hlength]
  rw [List.drop_left, List.append_assoc, List.take_left]

/-- A turn without `</think>` in its block is read as reasoning, content and the calls of the block. -/
theorem parse_turn (hcalls : ∀ call ∈ turn.calls, CleanCall call.toolCall) (hclose : ¬ thinkClose <:+: turn.block) :
    parseDeepseekGeneratedMessageEx turn.text true =
      some ⟨turn.content, some turn.reasoning,
        turn.calls.map fun call => (readBack call.toolCall).call, some turn.block⟩ := by
  have h0 := text_zero hcalls
  have hblock0 := block_zero hcalls
  have hlength : turn.reasoning.length + thinkClose.length + turn.content.length =
      (turn.reasoning ++ thinkClose ++ turn.content).length := by
    rw [List.length_append, List.length_append]
  have hblock : turn.text.drop (turn.reasoning.length + thinkClose.length + turn.content.length) = turn.block := by
    rw [Turn.text, hlength, List.drop_left]
  have htake : turn.text.take (turn.reasoning.length + thinkClose.length + turn.content.length) =
      turn.reasoning ++ thinkClose ++ turn.content := by
    rw [Turn.text, hlength, List.take_left]
  have hopener : strstr turn.block dsmlLong.toolCallsStart = some 2 := by
    refine (strstr_first (by decide) hblock0).unique ⟨?_, fun i hi hat => ?_⟩
    · rw [Occurs, block_eq]
      exact List.prefix_append _ _
    · rw [block_eq] at hat
      obtain ⟨rest, hrest⟩ := hat
      obtain rfl | rfl : i = 0 ∨ i = 1 := by omega
      · cases hrest
      · cases hrest
  have hp : turn.text.drop (turn.reasoning.length + thinkClose.length + turn.content.length + 2 +
      dsmlLong.toolCallsStart.length) = callsText (turn.calls.map ObjectCall.toolCall) := by
    rw [← List.drop_drop, ← List.drop_drop, hblock, block_eq]
    exact List.drop_left
  have hp0 : 0 ∉ callsText (turn.calls.map ObjectCall.toolCall) := by
    rw [← hp]
    exact fun hmem => h0 (List.mem_of_mem_drop hmem)
  have hwritten : Invokes dsmlLong (callsText (turn.calls.map ObjectCall.toolCall))
      ((turn.calls.map ObjectCall.toolCall).map readBack) [] := by
    have hinvokes := @invokes_written (turn.calls.map ObjectCall.toolCall) (by simpa using hcalls) []
    rwa [List.append_nil] at hinvokes
  have hparse := parseInvokes_of_invokes (by simp [dsmlSyntaxes]) hwritten hp0 (Nat.lt_succ_self _) []
  rw [List.nil_append, List.map_map, List.map_map] at hparse
  rw [parseDeepseekGeneratedMessageEx, toolSearch_turn h0 hclose]
  simp only [drop_reasoning, findToolBlock_turn h0, hblock, hopener, hp]
  rw [hparse]
  simp only [trim_turn, htake, split_turn turn turn.cstring.2, Bool.false_eq_true, if_false, List.length_nil, Nat.sub_zero]
  rw [List.take_of_length_le (by rw [← hblock, List.length_drop])]
  rfl

end Spark.Server
