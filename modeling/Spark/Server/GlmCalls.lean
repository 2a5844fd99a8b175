import Mathlib.Data.List.DropRight
import Spark.Server.Dsml

/-!
# The tool calls of a finished GLM reply

`parse_glm_generated_message_ex`: every call is a tag of its own, with its name as plain text and one pair of
tags for each argument, whose value is a string. What is left to parse stands for the pointer into the reply,
and the pointer to the closing tag of a call for how much is left there.
-/

namespace Spark.Server

def glmToolStart : List UInt8 := bytes "<tool_call>"
def glmToolEnd : List UInt8 := bytes "</tool_call>"
def glmArgKeyStart : List UInt8 := bytes "<arg_key>"
def glmArgKeyEnd : List UInt8 := bytes "</arg_key>"
def glmArgValueStart : List UInt8 := bytes "<arg_value>"
def glmArgValueEnd : List UInt8 := bytes "</arg_value>"

/-- `trim_const_span`. -/
def trimConstSpan (span : List UInt8) : List UInt8 := (span.dropWhile isspace).rdropWhile isspace

/-- The arguments of one call up to its closing tag; none where one of them goes beyond it. -/
def glmArgsLoop (close : Nat) : Nat → List UInt8 → List UInt8 → Option (List UInt8 × List UInt8)
  | 0, _, _ => none
  | fuel + 1, p, args =>
    let p := skipAsciiWs p
    if glmToolEnd.isPrefixOf p then some (args, p.drop glmToolEnd.length)
    else if glmArgKeyStart.isPrefixOf p then
      let p := p.drop glmArgKeyStart.length
      match strstr p glmArgKeyEnd with
      | none => none
      | some keyEnd =>
        if p.length - keyEnd < close then none
        else
          let key := dsmlUnescapeText (trimConstSpan (p.take keyEnd))
          let p := skipAsciiWs (p.drop (keyEnd + glmArgKeyEnd.length))
          if glmArgValueStart.isPrefixOf p then
            let p := p.drop glmArgValueStart.length
            match strstr p glmArgValueEnd with
            | none => none
            | some valueEnd =>
              if p.length - valueEnd < close then none
              else
                let value := dsmlUnescapeText (p.take valueEnd)
                glmArgsLoop close fuel (p.drop (valueEnd + glmArgValueEnd.length))
                  (toolCallJsonArgsAdd args key value (bytes "true"))
          else none
    else none

/-- Where the name of a call ends: at its first argument, or where the call is closed. -/
def glmNameEnd (p : List UInt8) (close : Nat) : Nat :=
  match strstr p glmArgKeyStart with
  | some arg => if arg > close then close else arg
  | none => close

/-- The calls that follow one another, and what follows them. -/
def glmCallsLoop : Nat → List UInt8 → List ToolCall → Option (List ToolCall × List UInt8)
  | 0, _, _ => none
  | fuel + 1, p, calls =>
    let p := skipAsciiWs p
    if glmToolStart.isPrefixOf p then
      let p := p.drop glmToolStart.length
      match strstr p glmToolEnd with
      | none => none
      | some close =>
        let nameEnd := glmNameEnd p close
        let name := trimConstSpan (p.take nameEnd)
        if name = [] then none
        else
          -- the trimmed end of the name is where the arguments are looked for
          let trimmed := ((p.take nameEnd).takeWhile isspace).length + name.length
          match glmArgsLoop (p.length - close) (p.length + 1) (p.drop trimmed) [] with
          | none => none
          | some (args, p) => glmCallsLoop fuel p (calls ++ [⟨name, 0x7b :: args ++ [0x7d]⟩])
    else some (calls, p)

/-- Where the search for calls begins, and whether reasoning that never closes stands before it. -/
def glmToolSearch (text : List UInt8) (requireThinkingClosed : Bool) : Option (Nat × Bool) :=
  if requireThinkingClosed then
    match findLastSubstr text thinkClose with
    | some thinkEnd => some (thinkEnd + thinkClose.length, false)
    | none =>
      match strstr text glmToolStart with
      | none => none
      | some candidate =>
        if (strstr (text.drop candidate) glmToolEnd).isSome then some (candidate, true) else none
  else some (0, false)

/-- `parse_glm_generated_message_ex`; none where it refuses the reply. -/
def parseGlmGeneratedMessageEx (text : List UInt8) (requireThinkingClosed : Bool) : Option GeneratedMessage :=
  match glmToolSearch text requireThinkingClosed with
  | none => some ⟨[], some (dropThinkOpen text), [], none⟩
  | some (search, recovered) =>
    match strstr (text.drop search) glmToolStart with
    | none =>
      let split := splitReasoningContent text
      some ⟨split.1, split.2, [], none⟩
    | some pos =>
      let start := search + pos
      let rawBlockStart :=
        if 2 ≤ start ∧ text[start - 2]? = some 0x0a ∧ text[start - 1]? = some 0x0a then start - 2 else start
      let contentLen := trimToolSeparatorWs text 0 rawBlockStart
      match glmCallsLoop (text.length + 1) (text.drop start) [] with
      | none => none
      | some (calls, rest) =>
        if calls = [] then none
        else
          let block := (text.drop rawBlockStart).take (text.length - rawBlockStart - rest.length)
          if recovered then some ⟨[], some (dropThinkOpen (text.take contentLen)), calls, some block⟩
          else
            let split := splitReasoningContent (text.take contentLen)
            some ⟨split.1, split.2, calls, some block⟩

end Spark.Server
