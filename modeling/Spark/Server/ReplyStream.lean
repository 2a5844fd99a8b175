import Spark.Server.Dsml

/-!
# A reply on its way out

The translators that send a chat reply while it grows: `openai_sse_stream_update` and
`anthropic_sse_stream_update`. Both read the same text the same way and tell what they find in their own
events, so the reading is one definition here and the events are two.

* **`streamUpdate`** — one update: reasoning and content to send, and what the tool block says so far.
* **`openaiSseStreamUpdate`**, **`anthropicSseStreamUpdate`** — the same in the words of each protocol.
* **`anthropicSseFinishLive`** — the end of an Anthropic stream.

An update is handed the whole buffer and the number of its bytes that may be sent. A buffer has no zero
byte, so a search of it is one of the list.
-/

namespace Spark.Server

/-! ## What is safe to send -/

def utf8ExpectedLen (c : UInt8) : Nat :=
  if c < 0x80 then 1
  else if 0xc2 ≤ c ∧ c ≤ 0xdf then 2
  else if 0xe0 ≤ c ∧ c ≤ 0xef then 3
  else if 0xf0 ≤ c ∧ c ≤ 0xf4 then 4
  else 1

def isContinuation (c : UInt8) : Bool := c &&& 0xc0 = 0x80

/-- The loop of `utf8_stream_safe_len`, over at most so many continuation bytes. -/
def skipContinuation (s : List UInt8) (start : Nat) : Nat → Nat → Nat
  | 0, p => p
  | cont + 1, p =>
    if p > start ∧ isContinuation (s.getD (p - 1) 0) then skipContinuation s start cont (p - 1) else p

/-- `utf8_stream_safe_len`: without the character the text breaks off in. -/
def utf8StreamSafeLen (s : List UInt8) (start limit : Nat) (final : Bool) : Nat :=
  if final ∨ limit ≤ start then limit
  else
    let p := skipContinuation s start 4 limit
    if p = limit then
      if utf8ExpectedLen (s.getD (limit - 1) 0) > 1 then limit - 1 else limit
    else if p = start ∧ isContinuation (s.getD p 0) then start
    else
      let lead := p - 1
      if limit - lead < utf8ExpectedLen (s.getD lead 0) then lead else limit

/-- The last place of a byte in front of a position, not looked for before `scan`. -/
def lastByte (b : UInt8) (s : List UInt8) (scan : Nat) : Nat → Option Nat
  | 0 => none
  | i + 1 =>
    if i + 1 > scan then if s[i]? = some b then some i else lastByte b s scan i
    else none

/-- `text_stream_safe_limit`. Where tools are on, white space and the last `<` wait for what follows
them. -/
def textStreamSafeLimit (raw : List UInt8) (start rawLen : Nat) (hasTools final : Bool) : Nat :=
  if rawLen ≤ start then rawLen
  else if hasTools then
    match findAnyToolStart (raw.drop start) with
    | some tool =>
      utf8StreamSafeLen raw start (trimToolSeparatorWs raw start (start + tool)) true
    | none =>
      if final then utf8StreamSafeLen raw start rawLen final
      else
        let limit := trimToolSeparatorWs raw start rawLen
        let scan := if rawLen - start > markerHold then rawLen - markerHold else start
        let limit :=
          match lastByte 0x3c raw scan rawLen with
          | some marker => min marker limit
          | none => limit
        utf8StreamSafeLen raw start (trimToolSeparatorWs raw start limit) final
  else utf8StreamSafeLen raw start rawLen final

def dsmlEntities : List (List UInt8) :=
  [bytes "&amp;", bytes "&lt;", bytes "&gt;", bytes "&quot;", bytes "&apos;"]

/-- `dsml_entity_stream_safe_len`: without the entity the text breaks off in. -/
def dsmlEntityStreamSafeLen (raw : List UInt8) (start limit : Nat) : Nat :=
  match lastByte 0x26 raw (if limit > start + 6 then limit - 6 else start) limit with
  | none => limit
  | some amp =>
    let tail := (raw.drop amp).take (limit - amp)
    if dsmlEntities.any fun entity => tail.length < entity.length && tail.isPrefixOf entity then amp
    else limit

/-- `tool_param_value_stream_safe_len`, over all of the text. -/
def toolParamValueStreamSafeLen (text : List UInt8) (start : Nat) (paramEnd : List UInt8)
    (isString : Bool) : Nat :=
  let scan := if text.length > start + paramEnd.length then text.length - paramEnd.length else start
  let limit :=
    match lastByte 0x3c text scan text.length with
    | none => text.length
    | some marker =>
      if text.length - marker < paramEnd.length ∧ (text.drop marker).isPrefixOf paramEnd then marker
      else text.length
  utf8StreamSafeLen text start (if isString then dsmlEntityStreamSafeLen text start limit else limit) false

/-! ## What an update finds -/

inductive Channel where
  | reasoning
  | content
  deriving DecidableEq, Repr

/-- What an update has to tell the client, in no protocol's words yet. `reach` is where the text ends
that an action renders. -/
inductive Action where
  | delta (channel : Channel) (pos : Nat) (text : List UInt8)
  /-- The block that may be open is over. -/
  | closeBlock
  | toolStart (index : Nat) (name : List UInt8) (reach : Nat)
  | toolArgs (index : Nat) (fragment : List UInt8) (reach : Nat)
  | toolEnd (index reach : Nat)
  deriving DecidableEq, Repr

/-! ## The tool block -/

inductive ToolPhase where
  | betweenInvokes
  | betweenParams
  | paramValue
  | done
  | error
  deriving DecidableEq, Repr

structure ToolStream where
  state : ToolPhase
  syn : Option DsmlSyntax
  parsePos : Nat
  index : Nat
  active : Bool
  emittedAny : Bool
  argsOpen : Bool
  firstParam : Bool
  paramIsString : Bool
  deriving DecidableEq, Repr

def ToolStream.zero : ToolStream :=
  { state := .betweenInvokes, syn := none, parsePos := 0, index := 0, active := false
    emittedAny := false, argsOpen := false, firstParam := false, paramIsString := false }

def rawFullLit (text : List UInt8) (pos : Nat) (lit : List UInt8) : Bool :=
  pos ≤ text.length && lit.isPrefixOf (text.drop pos)

def rawPartialLit (text : List UInt8) (pos : Nat) (lit : List UInt8) : Bool :=
  pos ≤ text.length && text.length - pos < lit.length && (text.drop pos).isPrefixOf lit

def rawPartialAny (text : List UInt8) (pos : Nat) (a b : List UInt8) : Bool :=
  rawPartialLit text pos a || rawPartialLit text pos b

/-- `openai_tool_stream_init` and `anthropic_tool_stream_init`. -/
def ToolStream.init (text : List UInt8) (pos : Nat) : ToolStream :=
  match dsmlSyntaxes.find? fun syn => rawFullLit text pos syn.toolCallsStart with
  | some syn =>
    { ToolStream.zero with active := true, syn := some syn, parsePos := pos + syn.toolCallsStart.length }
  | none => { ToolStream.zero with state := .error, parsePos := pos }

def ToolStream.fail (ts : ToolStream) : ToolStream := { ts with active := false, state := .error }

def ToolStream.skipWs (ts : ToolStream) (text : List UInt8) : ToolStream :=
  { ts with parsePos := ts.parsePos + ((text.drop ts.parsePos).takeWhile isspace).length }

/-- `openai_tool_start_invoke` and `anthropic_tool_start_invoke`. -/
def toolStartInvoke (ts : ToolStream) (text : List UInt8) : ToolStream × List Action :=
  match dsmlTag (text.drop ts.parsePos) with
  | none => (ts, [])
  | some (tag, _) =>
    match dsmlAttr tag (bytes "name") with
    | none => (ts.fail, [])
    | some name =>
      let reach := ts.parsePos + tag.length
      ({ ts with
          emittedAny := true, argsOpen := true, firstParam := true
          parsePos := reach, state := .betweenParams },
        [.toolStart ts.index name reach, .toolArgs ts.index [0x7b] reach])

/-- `openai_tool_start_param` and `anthropic_tool_start_param`. -/
def toolStartParam (ts : ToolStream) (text : List UInt8) : ToolStream × List Action :=
  match dsmlTag (text.drop ts.parsePos) with
  | none => (ts, [])
  | some (tag, _) =>
    match dsmlAttr tag (bytes "name"), dsmlAttr tag (bytes "string") with
    | some name, some isString =>
      let stringValue := decide (isString = bytes "true")
      let reach := ts.parsePos + tag.length
      let fragment := (if ts.firstParam then [] else [0x2c]) ++ jsonEscape name ++ [0x3a] ++
        if stringValue then [0x22] else []
      ({ ts with
          firstParam := false, paramIsString := stringValue
          parsePos := reach, state := .paramValue },
        [.toolArgs ts.index fragment reach])
    | _, _ => (ts.fail, [])

/-- The bytes of a value up to a limit, the way they go out: none of them, nothing goes out. -/
def ToolStream.emitValue (ts : ToolStream) (text : List UInt8) (limit : Nat) : List Action :=
  if limit > ts.parsePos then
    let piece := (text.drop ts.parsePos).take (limit - ts.parsePos)
    let fragment := if ts.paramIsString then jsonEscapeFragment (dsmlUnescapeText piece) else piece
    [.toolArgs ts.index fragment limit]
  else []

/-- `openai_tool_finish_param` and `anthropic_tool_finish_param`. -/
def toolFinishParam (syn : DsmlSyntax) (ts : ToolStream) (text : List UInt8) (valueEnd : Nat) :
    ToolStream × List Action :=
  ({ ts with parsePos := valueEnd + syn.paramEnd.length, state := .betweenParams },
    ts.emitValue text valueEnd ++
      if ts.paramIsString then [.toolArgs ts.index [0x22] valueEnd] else [])

/-- One turn of the loop between two calls; the flag says that another turn follows. -/
def toolBetweenInvokes (syn : DsmlSyntax) (ts : ToolStream) (text : List UInt8) :
    (ToolStream × List Action) × Bool :=
  let ts := ts.skipWs text
  if ts.parsePos ≥ text.length then ((ts, []), false)
  else if rawFullLit text ts.parsePos syn.toolCallsEnd then
    (({ ts with
        parsePos := ts.parsePos + syn.toolCallsEnd.length, active := false, state := .done }, []), false)
  else if rawPartialAny text ts.parsePos syn.toolCallsEnd syn.invokeStart then ((ts, []), false)
  else if rawFullLit text ts.parsePos syn.invokeStart then
    let next := toolStartInvoke ts text
    (next, !(next.1.parsePos = ts.parsePos && next.1.state = ts.state))
  else ((ts.fail, []), false)

/-- One turn of the loop inside a call. -/
def toolBetweenParams (syn : DsmlSyntax) (ts : ToolStream) (text : List UInt8) :
    (ToolStream × List Action) × Bool :=
  let ts := ts.skipWs text
  if ts.parsePos ≥ text.length then ((ts, []), false)
  else if rawFullLit text ts.parsePos syn.invokeEnd then
    let reach := ts.parsePos + syn.invokeEnd.length
    (({ ts with
        argsOpen := false, parsePos := reach, index := ts.index + 1, state := .betweenInvokes },
      (if ts.argsOpen then [.toolArgs ts.index [0x7d] reach] else []) ++ [.toolEnd ts.index reach]), true)
  else if rawPartialAny text ts.parsePos syn.invokeEnd syn.paramStart then ((ts, []), false)
  else if rawFullLit text ts.parsePos syn.paramStart then
    let next := toolStartParam ts text
    (next, !(next.1.parsePos = ts.parsePos && next.1.state = ts.state))
  else ((ts.fail, []), false)

/-- One turn of the loop inside a value. -/
def toolParamValue (syn : DsmlSyntax) (ts : ToolStream) (text : List UInt8) :
    (ToolStream × List Action) × Bool :=
  match searchString syn.paramEnd (text.drop ts.parsePos) with
  | some offset => (toolFinishParam syn ts text (ts.parsePos + offset), true)
  | none =>
    let limit := toolParamValueStreamSafeLen text ts.parsePos syn.paramEnd ts.paramIsString
    (({ ts with parsePos := max ts.parsePos limit }, ts.emitValue text limit), false)

def toolTurn (ts : ToolStream) (text : List UInt8) : (ToolStream × List Action) × Bool :=
  match ts.syn, ts.state with
  | some syn, .betweenInvokes => toolBetweenInvokes syn ts text
  | some syn, .betweenParams => toolBetweenParams syn ts text
  | some syn, .paramValue => toolParamValue syn ts text
  | _, _ => ((ts, []), false)

/-- The loop of `openai_tool_stream_update` and `anthropic_tool_stream_update`. -/
def toolLoop : Nat → ToolStream → List UInt8 → ToolStream × List Action
  | 0, ts, _ => (ts, [])
  | fuel + 1, ts, text =>
    if ts.active ∧ ts.parsePos < text.length then
      let turn := toolTurn ts text
      if turn.2 then
        let rest := toolLoop fuel turn.1.1 text
        (rest.1, turn.1.2 ++ rest.2)
      else turn.1
    else (ts, [])

/-- Every turn that another one follows reads a byte. -/
def toolStreamUpdate (ts : ToolStream) (text : List UInt8) : ToolStream × List Action :=
  toolLoop (text.length + 1) ts text

/-! ## The reply -/

inductive StreamMode where
  | thinking
  | text
  | tool
  | suppress
  deriving DecidableEq, Repr

/-- `openai_stream`, and `anthropic_stream` apart from its blocks. -/
structure ReplyStream where
  mode : StreamMode
  emitPos : Nat
  active : Bool
  checkedThinkPrefix : Bool
  guardSecondReasoning : Bool
  sentReasoning : Bool
  sentContent : Bool
  tool : ToolStream
  deriving DecidableEq, Repr

/-- What an update reads of the request, and whether the last update still begins to read a tool
block. -/
structure Translator where
  hasTools : Bool
  projectsOnFinal : Bool
  deriving DecidableEq, Repr

def ReplyStream.start (thinkEnabled hasTools : Bool) : ReplyStream :=
  { mode := if thinkEnabled then .thinking else .text
    emitPos := 0, active := true, checkedThinkPrefix := false
    guardSecondReasoning := thinkEnabled && hasTools
    sentReasoning := false, sentContent := false, tool := ToolStream.zero }

/-- The first tool marker from a position on, where there are tools. -/
def findTool (hasTools : Bool) (raw : List UInt8) (pos : Nat) : Option Nat :=
  if hasTools then (findAnyToolStart (raw.drop pos)).map (pos + ·) else none

/-- What ends reasoning: the next `</think>`, or a tool marker before it. -/
inductive ThinkEnd where
  | tool (pos : Nat)
  | close (pos : Nat)
  | none
  deriving DecidableEq, Repr

def thinkEnd (hasTools : Bool) (raw : List UInt8) (pos : Nat) : ThinkEnd :=
  match findTool hasTools raw pos, (strstr (raw.drop pos) thinkClose).map (pos + ·) with
  | .none, .none => .none
  | .none, some close => .close close
  | some tool, .none => .tool tool
  | some tool, some close => if tool < close then .tool tool else .close close

/-- Sends what lies between the last byte sent and a limit. -/
def ReplyStream.send (st : ReplyStream) (channel : Channel) (raw : List UInt8) (limit : Nat) :
    ReplyStream × List Action :=
  if limit > st.emitPos then
    ({ st with
        emitPos := limit
        sentReasoning := st.sentReasoning || channel = .reasoning
        sentContent := st.sentContent || channel = .content },
      [.delta channel st.emitPos ((raw.drop st.emitPos).take (limit - st.emitPos))])
  else (st, [])

/-- The look for a leading `<think>`; none while the reply may still begin with one. -/
def ReplyStream.checkThinkPrefix (st : ReplyStream) (raw : List UInt8) (rawLen : Nat) (final : Bool) :
    Option ReplyStream :=
  if st.checkedThinkPrefix then some st
  else if rawLen < thinkOpen.length ∧ raw.take rawLen = thinkOpen.take rawLen ∧ !final then none
  else
    let emitPos := if thinkOpen.length ≤ rawLen ∧ thinkOpen.isPrefixOf raw then thinkOpen.length
      else st.emitPos
    some { st with checkedThinkPrefix := true, emitPos := emitPos }

/-- The part of an update in reasoning. -/
def thinkingUpdate (hasTools : Bool) (st : ReplyStream) (raw : List UInt8) (rawLen : Nat) (final : Bool) :
    ReplyStream × List Action :=
  match thinkEnd hasTools raw st.emitPos with
  | .tool tool =>
    let sent := st.send .reasoning raw (trimToolSeparatorWs raw st.emitPos tool)
    -- A marker alone may be quoted: reasoning ends with a whole block only.
    if (findAnyToolEnd (raw.drop tool)).isSome then
      ({ sent.1 with emitPos := tool, mode := .suppress }, sent.2 ++ [.closeBlock])
    else sent
  | .close close =>
    let sent := st.send .reasoning raw close
    ({ sent.1 with emitPos := close + thinkClose.length, mode := .text }, sent.2 ++ [.closeBlock])
  | .none =>
    if final then
      let sent := st.send .reasoning raw rawLen
      ({ sent.1 with mode := .suppress }, sent.2 ++ [.closeBlock])
    else
      let hold := thinkClose.length - 1
      let limit := if rawLen > hold then rawLen - hold else st.emitPos
      st.send .reasoning raw (utf8StreamSafeLen raw st.emitPos limit false)

/-- The look for reasoning that goes on behind a `</think>`; the flag says that content may follow. -/
def guardUpdate (hasTools : Bool) (st : ReplyStream) (raw : List UInt8) (final : Bool) :
    (ReplyStream × List Action) × Bool :=
  if st.guardSecondReasoning then
    match thinkEnd hasTools raw st.emitPos with
    | .close close =>
      let sent := st.send .reasoning raw close
      (({ sent.1 with emitPos := close + thinkClose.length, guardSecondReasoning := false },
        sent.2 ++ [.closeBlock]), true)
    | .tool _ => (({ st with guardSecondReasoning := false }, []), true)
    | .none =>
      if final then (({ st with guardSecondReasoning := false }, []), true) else ((st, []), false)
  else ((st, []), true)

/-- The part of an update in content, up to the marker of a tool block. -/
def contentUpdate (t : Translator) (st : ReplyStream) (raw : List UInt8) (rawLen : Nat) (final : Bool) :
    ReplyStream × List Action :=
  let sent := st.send .content raw (textStreamSafeLimit raw st.emitPos rawLen t.hasTools final)
  match findTool t.hasTools raw st.emitPos with
  | some tool =>
    let projects := t.projectsOnFinal || !final
    let projection := if projects then ToolStream.init (raw.take rawLen) tool else st.tool
    ({ sent.1 with
        emitPos := tool, tool := projection
        mode := if projects && projection.active then .tool else .suppress },
      sent.2 ++ [.closeBlock])
  | none =>
    if final then ({ sent.1 with mode := .suppress }, sent.2 ++ [.closeBlock]) else sent

def textUpdate (t : Translator) (st : ReplyStream) (raw : List UInt8) (rawLen : Nat) (final : Bool) :
    ReplyStream × List Action :=
  let guarded := guardUpdate t.hasTools st raw final
  if guarded.2 then
    let sent := contentUpdate t guarded.1.1 raw rawLen final
    (sent.1, guarded.1.2 ++ sent.2)
  else guarded.1

/-- The part of an update in a tool block. -/
def toolUpdate (st : ReplyStream) (raw : List UInt8) (rawLen : Nat) : ReplyStream × List Action :=
  let read := toolStreamUpdate st.tool (raw.take rawLen)
  ({ st with tool := read.1, mode := if read.1.active then .tool else .suppress }, read.2)

def readThinking (t : Translator) (st : ReplyStream) (raw : List UInt8) (rawLen : Nat) (final : Bool) :
    ReplyStream × List Action :=
  match st.checkThinkPrefix raw rawLen final with
  | none => (st, [])
  | some st => thinkingUpdate t.hasTools st raw rawLen final

/-- One part of an update after another, where the mode by then asks for it. -/
def andIn (mode : StreamMode) (part : ReplyStream → ReplyStream × List Action)
    (done : ReplyStream × List Action) : ReplyStream × List Action :=
  if done.1.mode = mode then
    let next := part done.1
    (next.1, done.2 ++ next.2)
  else done

def streamUpdate (t : Translator) (st : ReplyStream) (raw : List UInt8) (rawLen : Nat) (final : Bool) :
    ReplyStream × List Action :=
  if !st.active then (st, [])
  else
    andIn .tool (toolUpdate · raw rawLen) <|
    andIn .text (textUpdate t · raw rawLen final) <|
    andIn .thinking (readThinking t · raw rawLen final) (st, [])

/-! ## OpenAI -/

inductive OpenAiDelta where
  | reasoningContent (text : List UInt8)
  | content (text : List UInt8)
  | toolCallStart (index : Nat) (name : List UInt8)
  | toolCallArgs (index : Nat) (fragment : List UInt8)
  deriving DecidableEq, Repr

/-- An empty text is not sent. -/
def openaiDelta : Action → Option OpenAiDelta
  | .delta .reasoning _ text => if text = [] then none else some (.reasoningContent text)
  | .delta .content _ text => if text = [] then none else some (.content text)
  | .closeBlock => none
  | .toolStart index name _ => some (.toolCallStart index name)
  | .toolArgs index fragment _ => if fragment = [] then none else some (.toolCallArgs index fragment)
  | .toolEnd _ _ => none

def openaiTranslator (hasTools : Bool) : Translator := ⟨hasTools, true⟩

def openaiSseStreamUpdate (hasTools : Bool) (st : ReplyStream) (raw : List UInt8) (rawLen : Nat)
    (final : Bool) : ReplyStream × List OpenAiDelta :=
  let update := streamUpdate (openaiTranslator hasTools) st raw rawLen final
  (update.1, update.2.filterMap openaiDelta)

/-! ## Anthropic -/

inductive BlockType where
  | thinking
  | text
  | tool
  deriving DecidableEq, Repr

inductive AnthropicDelta where
  | thinking (text : List UInt8)
  | text (text : List UInt8)
  | signature
  | inputJson (partialJson : List UInt8)
  deriving DecidableEq, Repr

inductive AnthropicEvent where
  | messageStart
  /-- The name is that of a tool block's tool. -/
  | contentBlockStart (index : Nat) (type : BlockType) (name : List UInt8)
  | contentBlockDelta (index : Nat) (delta : AnthropicDelta)
  | contentBlockStop (index : Nat)
  | messageDelta
  | messageStop
  deriving DecidableEq, Repr

/-- The blocks of `anthropic_stream`. -/
structure AnthropicBlocks where
  openBlock : Option BlockType
  nextIndex : Nat
  deriving DecidableEq, Repr

/-- What is sent, and the blocks behind it unless a block could not be opened. -/
abbrev Sent : Type := List AnthropicEvent × Option AnthropicBlocks

/-- `anthropic_sse_open_block`, and `anthropic_sse_open_tool_block` by its type. -/
def anthropicSseOpenBlock (blocks : AnthropicBlocks) (type : BlockType) (name : List UInt8) : Sent :=
  if blocks.openBlock = some type then ([], some blocks)
  else if blocks.openBlock ≠ none then ([], none)
  else ([.contentBlockStart blocks.nextIndex type name], some { blocks with openBlock := some type })

/-- `anthropic_sse_delta_live` and `anthropic_sse_tool_delta_live`. -/
def anthropicSseDeltaLive (blocks : AnthropicBlocks) (delta : AnthropicDelta) (len : Nat) : Sent :=
  if len = 0 then ([], some blocks)
  else ([.contentBlockDelta blocks.nextIndex delta], some blocks)

/-- `anthropic_sse_close_block_live`. -/
def anthropicSseCloseBlockLive (blocks : AnthropicBlocks) : Sent :=
  match blocks.openBlock with
  | none => ([], some blocks)
  | some type =>
    let signature := if type = .thinking then
      [AnthropicEvent.contentBlockDelta blocks.nextIndex .signature] else []
    (signature ++ [.contentBlockStop blocks.nextIndex], some ⟨none, blocks.nextIndex + 1⟩)

/-- A second piece of work behind a first one that did not fail. -/
def Sent.andThen (first : Sent) (next : AnthropicBlocks → Sent) : Sent :=
  match first.2 with
  | none => first
  | some blocks => (first.1 ++ (next blocks).1, (next blocks).2)

def anthropicAction (blocks : AnthropicBlocks) : Action → Sent
  | .delta .reasoning _ text =>
    (anthropicSseOpenBlock blocks .thinking []).andThen
      (anthropicSseDeltaLive · (.thinking text) text.length)
  | .delta .content _ text =>
    (anthropicSseOpenBlock blocks .text []).andThen (anthropicSseDeltaLive · (.text text) text.length)
  | .closeBlock => anthropicSseCloseBlockLive blocks
  | .toolStart _ name _ => anthropicSseOpenBlock blocks .tool name
  | .toolArgs _ fragment _ => anthropicSseDeltaLive blocks (.inputJson fragment) fragment.length
  | .toolEnd _ _ => anthropicSseCloseBlockLive blocks

def anthropicActions (blocks : AnthropicBlocks) : List Action → Sent
  | [] => ([], some blocks)
  | action :: actions => (anthropicAction blocks action).andThen (anthropicActions · actions)

def anthropicTranslator (hasTools : Bool) : Translator := ⟨hasTools, false⟩

/-- `anthropic_sse_stream_update`. -/
def anthropicSseStreamUpdate (hasTools : Bool) (st : ReplyStream) (blocks : AnthropicBlocks)
    (raw : List UInt8) (rawLen : Nat) (final : Bool) : ReplyStream × Sent :=
  let update := streamUpdate (anthropicTranslator hasTools) st raw rawLen final
  (update.1, anthropicActions blocks update.2)

/-- One call of `anthropic_sse_tool_blocks_live`. -/
def anthropicToolBlock (index : Nat) (call : ToolCall) : List AnthropicEvent :=
  [.contentBlockStart index .tool call.name,
    .contentBlockDelta index (.inputJson (appendJsonObjectOrEmpty call.arguments)),
    .contentBlockStop index]

/-- `anthropic_sse_tool_blocks_live`: the calls behind those that are on the client's side already. -/
def anthropicSseToolBlocksLive (st : ReplyStream) (blocks : AnthropicBlocks) (calls : List ToolCall) : Sent :=
  let alreadyStreamed := min (if st.tool.emittedAny then st.tool.index else 0) calls.length
  let tail := calls.drop alreadyStreamed
  ((tail.zipIdx blocks.nextIndex).flatMap fun call => anthropicToolBlock call.2 call.1,
    some { blocks with nextIndex := blocks.nextIndex + tail.length })

def anthropicSseStopLive (blocks : AnthropicBlocks) : Sent :=
  ([.messageDelta, .messageStop], some blocks)

/-- `anthropic_sse_finish_live`. -/
def anthropicSseFinishLive (hasTools : Bool) (st : ReplyStream) (blocks : AnthropicBlocks)
    (raw : List UInt8) (calls : List ToolCall) : Sent :=
  let update := anthropicSseStreamUpdate hasTools st blocks raw raw.length true
  ((update.2.andThen fun blocks =>
      if update.1.sentReasoning && !update.1.sentContent && calls.isEmpty then
        (anthropicSseOpenBlock blocks .text []).andThen anthropicSseCloseBlockLive
      else ([], some blocks)).andThen
    (anthropicSseToolBlocksLive update.1 · calls)).andThen anthropicSseStopLive

end Spark.Server
