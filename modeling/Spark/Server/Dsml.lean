import Spark.Server.JsonText

/-!
# The tool calls of a finished reply

`parse_deepseek_generated_message_ex`: the reply is cut into reasoning, content and the calls of one
tool block, in one of three dialects. What is left to parse stands for the pointer into it.
-/

namespace Spark.Server

/-! ## Dialects -/

structure DsmlSyntax where
  toolCallsStart : List UInt8
  toolCallsEnd : List UInt8
  invokeStart : List UInt8
  invokeEnd : List UInt8
  paramStart : List UInt8
  paramEnd : List UInt8
  deriving DecidableEq, Repr

def dsmlLong : DsmlSyntax where
  toolCallsStart := bytes "<｜DSML｜tool_calls>"
  toolCallsEnd := bytes "</｜DSML｜tool_calls>"
  invokeStart := bytes "<｜DSML｜invoke"
  invokeEnd := bytes "</｜DSML｜invoke>"
  paramStart := bytes "<｜DSML｜parameter"
  paramEnd := bytes "</｜DSML｜parameter>"

def dsmlShort : DsmlSyntax where
  toolCallsStart := bytes "<DSML｜tool_calls>"
  toolCallsEnd := bytes "</DSML｜tool_calls>"
  invokeStart := bytes "<DSML｜invoke"
  invokeEnd := bytes "</DSML｜invoke>"
  paramStart := bytes "<DSML｜parameter"
  paramEnd := bytes "</DSML｜parameter>"

def dsmlPlain : DsmlSyntax where
  toolCallsStart := bytes "<tool_calls>"
  toolCallsEnd := bytes "</tool_calls>"
  invokeStart := bytes "<invoke"
  invokeEnd := bytes "</invoke>"
  paramStart := bytes "<parameter"
  paramEnd := bytes "</parameter>"

def dsmlSyntaxes : List DsmlSyntax := [dsmlLong, dsmlShort, dsmlPlain]

/-! ## Text -/

def skipAsciiWs (p : List UInt8) : List UInt8 := p.dropWhile isspace

/-- `trim_tool_separator_ws`. -/
def trimToolSeparatorWs (raw : List UInt8) (start : Nat) : Nat → Nat
  | 0 => 0
  | limit + 1 =>
    if limit + 1 > start ∧ (raw[limit]?.map isspace).getD false then trimToolSeparatorWs raw start limit
    else limit + 1

/-- The entity at the front of a text: what it stands for, and the bytes behind its first. -/
def dsmlEntity (s : List UInt8) : Option (UInt8 × Nat) :=
  if (bytes "&amp;").isPrefixOf s then some (0x26, 4)
  else if (bytes "&lt;").isPrefixOf s then some (0x3c, 3)
  else if (bytes "&gt;").isPrefixOf s then some (0x3e, 3)
  else if (bytes "&quot;").isPrefixOf s then some (0x22, 5)
  else if (bytes "&apos;").isPrefixOf s then some (0x27, 5)
  else none

/-- The loop of `dsml_unescape_text`, with the bytes it has yet to step over. -/
def dsmlUnescapeLoop : Nat → List UInt8 → List UInt8
  | _, [] => []
  | skip + 1, _ :: s => dsmlUnescapeLoop skip s
  | 0, c :: s =>
    match dsmlEntity (c :: s) with
    | some (decoded, skip) => decoded :: dsmlUnescapeLoop skip s
    | none => c :: dsmlUnescapeLoop 0 s

def dsmlUnescapeText (s : List UInt8) : List UInt8 := dsmlUnescapeLoop 0 s

/-- `dsml_attr`: the value of an attribute of a tag. -/
def dsmlAttr (tag name : List UInt8) : Option (List UInt8) :=
  let pat := name ++ bytes "=\""
  match strstr tag pat with
  | none => none
  | some pos =>
    let p := tag.drop (pos + pat.length)
    if 0x22 ∈ p then some (dsmlUnescapeText (p.takeWhile (· ≠ 0x22))) else none

/-- The tag at the front of a text, up to its `>`, and what follows it. -/
def dsmlTag (p : List UInt8) : Option (List UInt8 × List UInt8) :=
  if 0x3e ∈ p then
    some (p.takeWhile (· ≠ 0x3e) ++ [0x3e], (p.dropWhile (· ≠ 0x3e)).drop 1)
  else none

/-! ## Arguments -/

/-- `tool_call_json_args_add`. -/
def toolCallJsonArgsAdd (args name value type : List UInt8) : List UInt8 :=
  args ++ (if args = [] then [] else bytes ", ") ++ jsonEscape name ++ bytes ": " ++
    if type = bytes "true" then jsonEscape value
    else
      let min := jsonMinifyRawValue value
      if min = [] then bytes "null" else min

/-- A parameter without parameters inside: its value up to the closing tag becomes an argument. -/
def addLeafArg (syn : DsmlSyntax) (args name : List UInt8) (isString : Option (List UInt8))
    (p : List UInt8) : Option (List UInt8 × List UInt8) :=
  match strstr p syn.paramEnd with
  | none => none
  | some valueEnd =>
    let rawValue := p.take valueEnd
    let type := isString.getD (bytes "true")
    let value := if type = bytes "true" then dsmlUnescapeText rawValue else rawValue
    some (toolCallJsonArgsAdd args name value type, p.drop (valueEnd + syn.paramEnd.length))

/-- `dsml_parse_leaf_param_json`. -/
def dsmlParseLeafParamJson (syn : DsmlSyntax) (p out : List UInt8) :
    Option (List UInt8 × List UInt8) :=
  if syn.paramStart.isPrefixOf p then
    match dsmlTag p with
    | none => none
    | some (tag, p) =>
      match dsmlAttr tag (bytes "name") with
      | none => none
      | some name => addLeafArg syn out name (dsmlAttr tag (bytes "string")) p
  else none

/-- The loop of `dsml_parse_nested_params_object`: the members, and whether there are any. -/
def dsmlNestedLoop (syn : DsmlSyntax) :
    Nat → List UInt8 → List UInt8 → Bool → Option ((List UInt8 × Bool) × List UInt8)
  | 0, _, _, _ => none
  | fuel + 1, p, members, any =>
    let p := skipAsciiWs p
    if syn.paramStart.isPrefixOf p then
      match dsmlParseLeafParamJson syn p members with
      | none => none
      | some (members, p) => dsmlNestedLoop syn fuel p members true
    else some ((members, any), p)

/-- `dsml_parse_nested_params_object`. -/
def dsmlParseNestedParamsObject (syn : DsmlSyntax) (p : List UInt8) :
    Option (List UInt8 × List UInt8) :=
  match dsmlNestedLoop syn (p.length + 1) p [] false with
  | some ((members, true), p) => some (0x7b :: members ++ [0x7d], p)
  | _ => none

/-! ## Calls -/

structure ToolCall where
  name : List UInt8
  arguments : List UInt8
  deriving DecidableEq, Repr

/-- The parameters of one call up to its closing tag: the arguments so far become all of them. -/
def parseParams (syn : DsmlSyntax) :
    Nat → List UInt8 → List UInt8 → Option (List UInt8 × List UInt8)
  | 0, _, _ => none
  | fuel + 1, p, args =>
    let p := skipAsciiWs p
    if syn.invokeEnd.isPrefixOf p then some (args, p.drop syn.invokeEnd.length)
    else if syn.paramStart.isPrefixOf p then
      match dsmlTag p with
      | none => none
      | some (tag, p) =>
        match dsmlAttr tag (bytes "name"), dsmlAttr tag (bytes "string") with
        | none, _ => none
        | some name, none =>
          -- Without the attribute, the value may be an object of parameters.
          if syn.paramStart.isPrefixOf (skipAsciiWs p) then
            match dsmlParseNestedParamsObject syn p with
            | none => none
            | some (nested, p) =>
              let args := toolCallJsonArgsAdd args name nested (bytes "false")
              let p := skipAsciiWs p
              parseParams syn fuel
                (if syn.paramEnd.isPrefixOf p then p.drop syn.paramEnd.length else p) args
          else
            match addLeafArg syn args name none p with
            | none => none
            | some (args, p) => parseParams syn fuel p args
        | some name, some isString =>
          match addLeafArg syn args name (some isString) p with
          | none => none
          | some (args, p) => parseParams syn fuel p args
    else none

/-- The calls up to the end of the block, and what follows the block. -/
def parseInvokes (syn : DsmlSyntax) :
    Nat → List UInt8 → List ToolCall → Option (List ToolCall × List UInt8)
  | 0, _, _ => none
  | fuel + 1, p, calls =>
    let p := skipAsciiWs p
    if syn.toolCallsEnd.isPrefixOf p then some (calls, p.drop syn.toolCallsEnd.length)
    else if syn.invokeStart.isPrefixOf p then
      match dsmlTag p with
      | none => none
      | some (tag, p) =>
        match dsmlAttr tag (bytes "name") with
        | none => none
        | some name =>
          match parseParams syn (p.length + 1) p [] with
          | none => none
          | some (args, p) => parseInvokes syn fuel p (calls ++ [⟨name, 0x7b :: args ++ [0x7d]⟩])
    else none

/-! ## The reply -/

/-- What the parser makes of a reply. -/
structure GeneratedMessage where
  content : List UInt8
  reasoning : Option (List UInt8)
  calls : List ToolCall
  rawToolText : Option (List UInt8)
  deriving DecidableEq, Repr

def thinkOpen : List UInt8 := bytes "<think>"
def thinkClose : List UInt8 := bytes "</think>"

/-- A text behind the `<think>` it may begin with. -/
def dropThinkOpen (text : List UInt8) : List UInt8 :=
  if thinkOpen.isPrefixOf text then text.drop thinkOpen.length else text

/-- `split_reasoning_content`: content and reasoning. -/
def splitReasoningContent (text : List UInt8) : List UInt8 × Option (List UInt8) :=
  let body := dropThinkOpen text
  match strstr body thinkClose with
  | some thinkEnd => (body.drop (thinkEnd + thinkClose.length), some (body.take thinkEnd))
  | none => (text, none)

/-- The first opener of a dialect, one behind an empty line before any other. -/
def findOpener (search opener : List UInt8) : Option Nat :=
  match strstr search (bytes "\n\n" ++ opener) with
  | some pos => some pos
  | none => strstr search opener

/-- The block a reply is searched for: the long dialect counts before the short one and that before
the plain one, wherever they stand. -/
def findToolBlock (search : List UInt8) : Option (Nat × DsmlSyntax) :=
  match findOpener search dsmlLong.toolCallsStart with
  | some pos => some (pos, dsmlLong)
  | none =>
    match findOpener search dsmlShort.toolCallsStart with
    | some pos => some (pos, dsmlShort)
    | none => (findOpener search dsmlPlain.toolCallsStart).map fun pos => (pos, dsmlPlain)

/-- Where the search for a block begins, and whether reasoning that never closes stands before it;
none where the reply is all reasoning. -/
def toolSearch (text : List UInt8) (requireThinkingClosed : Bool) : Option (Nat × Bool) :=
  if requireThinkingClosed then
    match findLastSubstr text thinkClose with
    | some thinkEnd => some (thinkEnd + thinkClose.length, false)
    | none =>
      match findAnyToolStart text with
      | none => none
      | some candidate =>
        if (findAnyToolEnd (text.drop candidate)).isSome then some (candidate, true) else none
  else some (0, false)

/-- `parse_deepseek_generated_message_ex`; none where it refuses the reply. -/
def parseDeepseekGeneratedMessageEx (text : List UInt8) (requireThinkingClosed : Bool) :
    Option GeneratedMessage :=
  match toolSearch text requireThinkingClosed with
  | none => some ⟨[], some (dropThinkOpen text), [], none⟩
  | some (search, recovered) =>
    match findToolBlock (text.drop search) with
    | none =>
      let split := splitReasoningContent text
      some ⟨split.1, split.2, [], none⟩
    | some (pos, syn) =>
      let start := search + pos
      let contentLen := trimToolSeparatorWs text 0 start
      match strstr (text.drop start) syn.toolCallsStart with
      | none => none
      | some opener =>
        let p := text.drop (start + opener + syn.toolCallsStart.length)
        match parseInvokes syn (p.length + 1) p [] with
        | none => none
        | some (calls, rest) =>
          let block := (text.drop start).take (text.length - start - rest.length)
          if recovered then some ⟨[], some (dropThinkOpen (text.take contentLen)), calls, some block⟩
          else
            let split := splitReasoningContent (text.take contentLen)
            some ⟨split.1, split.2, calls, some block⟩

end Spark.Server
