import Mathlib.Data.List.DropRight

/-!
# What the OpenAI boundary sends

The JSON bodies and SSE frames of `common/openai.rs`, and the channel that carries the frames to the
connection. Bodies are JSON values, field by field as the source builds them; a text is the list of its
characters.

* **`chunk`**, **`finishChunk`**, **`errorFrame`** — the frames of a chat completion.
* **`responseEnvelope`**, **`responseValue`** — the bodies of the responses endpoint.
* **`Outbox`** — the sending half of the frame channel, with a client that may hang up.
-/

namespace Spark.OpenAi

abbrev Text := List Char

inductive Json where
  | null
  | bool (value : Bool)
  | num (value : Nat)
  | str (value : Text)
  | arr (items : List Json)
  | obj (fields : List (String × Json))

namespace Json

def ofString (s : String) : Json := .str s.toList

def ofOption (value : Option Json) : Json := value.getD .null

/-- The value of a field of an object. -/
def field (key : String) : Json → Option Json
  | .obj fields => (fields.find? fun entry => entry.1 == key).map (·.2)
  | _ => none

end Json

inductive FinishReason where
  | stop
  | length
  deriving DecidableEq, Repr

def FinishReason.asStr : FinishReason → String
  | .stop => "stop"
  | .length => "length"

/-- One SSE frame: `data: …`, `event: …` with its data, or `data: [DONE]`. -/
inductive Frame where
  | data (value : Json)
  | event (name : String) (value : Json)
  | done

/-! ## Chat completions -/

/-- `PreparedCompletion`, as far as the bodies read it. -/
structure PreparedCompletion where
  completionId : Text
  created : Nat
  model : Text
  promptTokenIds : List Nat

def usage (promptTokens completionTokens : Nat) : Json :=
  .obj [("prompt_tokens", .num promptTokens), ("completion_tokens", .num completionTokens),
    ("total_tokens", .num (promptTokens + completionTokens))]

def apiErrorValue (message : Text) (kind : String) (param : Option Text) : Json :=
  .obj [("message", .str message), ("type", .ofString kind), ("param", .ofOption (param.map .str)),
    ("code", .null)]

def errorValue (message : Text) : Json :=
  .obj [("error", apiErrorValue message "server_error" none)]

def errorFrame (message : Text) : Frame := .data (errorValue message)

/-- The fields all chunks of a completion begin with, and the choice that tells them apart. -/
def chunkFields (prepared : PreparedCompletion) (delta finishReason : Json) : List (String × Json) :=
  [("id", .str prepared.completionId), ("object", .ofString "chat.completion.chunk"),
    ("created", .num prepared.created), ("model", .str prepared.model),
    ("choices", .arr [.obj
      [("index", .num 0), ("delta", delta), ("logprobs", .null), ("finish_reason", finishReason)]])]

def openingChunk (prepared : PreparedCompletion) : Frame :=
  .data (.obj (chunkFields prepared
    (.obj [("role", .ofString "assistant"), ("content", .str [])]) .null))

def chunk (prepared : PreparedCompletion) (delta : Text) : Frame :=
  .data (.obj (chunkFields prepared (.obj [("content", .str delta)]) .null))

def finishChunk (prepared : PreparedCompletion) (finishReason : FinishReason) (usageValue : Option Json) :
    Frame :=
  .data (.obj (chunkFields prepared (.obj []) (.ofString finishReason.asStr) ++
    [("usage", .ofOption usageValue)]))

/-- The body of a completion that is not streamed. -/
def completionValue (prepared : PreparedCompletion) (finishReason : FinishReason) (content : Text)
    (completionTokens : Nat) : Json :=
  .obj
    [("id", .str prepared.completionId), ("object", .ofString "chat.completion"),
      ("created", .num prepared.created), ("model", .str prepared.model),
      ("choices", .arr [.obj
        [("index", .num 0),
          ("message", .obj [("role", .ofString "assistant"), ("content", .str content)]),
          ("logprobs", .null), ("finish_reason", .ofString finishReason.asStr)]]),
      ("usage", usage prepared.promptTokenIds.length completionTokens)]

/-! ## Responses -/

/-- `PreparedResponse`; the two floats are kept as the JSON they are written as. -/
structure PreparedResponse where
  responseId : Text
  messageId : Text
  created : Nat
  model : Text
  promptTokenIds : List Nat
  instructions : Option Text
  maxOutputTokens : Nat
  temperature : Json
  topP : Json
  reasoningEffort : Option Text
  store : Bool
  metadata : Json

def responsesUsage (inputTokens outputTokens : Nat) : Json :=
  .obj [("input_tokens", .num inputTokens),
    ("input_tokens_details", .obj [("cached_tokens", .num 0)]), ("output_tokens", .num outputTokens),
    ("output_tokens_details", .obj [("reasoning_tokens", .num 0)]),
    ("total_tokens", .num (inputTokens + outputTokens))]

def responseStatus : FinishReason → String
  | .stop => "completed"
  | .length => "incomplete"

def outputText (text : Text) : Json :=
  .obj [("type", .ofString "output_text"), ("text", .str text), ("annotations", .arr []),
    ("logprobs", .arr [])]

def responseMessageItem (prepared : PreparedResponse) (status : String) (content : Text) : Json :=
  .obj [("id", .str prepared.messageId), ("type", .ofString "message"), ("status", .ofString status),
    ("role", .ofString "assistant"), ("content", .arr [outputText content])]

def responseEnvelope (prepared : PreparedResponse) (status : String) (completedAt : Option Nat)
    (incompleteDetails output usage : Json) : Json :=
  .obj
    [("id", .str prepared.responseId), ("object", .ofString "response"),
      ("created_at", .num prepared.created), ("completed_at", .ofOption (completedAt.map .num)),
      ("status", .ofString status), ("error", .null), ("incomplete_details", incompleteDetails),
      ("instructions", .ofOption (prepared.instructions.map .str)),
      ("max_output_tokens", .num prepared.maxOutputTokens), ("model", .str prepared.model),
      ("output", output), ("parallel_tool_calls", .bool false), ("previous_response_id", .null),
      ("reasoning", .obj [("effort", .ofOption (prepared.reasoningEffort.map .str)), ("summary", .null)]),
      ("store", .bool prepared.store), ("temperature", prepared.temperature),
      ("text", .obj [("format", .obj [("type", .ofString "text")])]), ("tool_choice", .ofString "none"),
      ("tools", .arr []), ("top_p", prepared.topP), ("truncation", .ofString "disabled"),
      ("usage", usage), ("metadata", prepared.metadata)]

/-- `now` is what `unix_seconds` answers. -/
def responseValue (prepared : PreparedResponse) (now : Nat) (finishReason : FinishReason) (content : Text)
    (inputTokens outputTokens : Nat) : Json :=
  let status := responseStatus finishReason
  let incompleteDetails : Json :=
    match finishReason with
    | .stop => .null
    | .length => .obj [("reason", .ofString "max_output_tokens")]
  responseEnvelope prepared status (if finishReason = .stop then some now else none) incompleteDetails
    (.arr [responseMessageItem prepared status content]) (responsesUsage inputTokens outputTokens)

/-! ## The frame channel -/

/-- The frames the connection has taken, and how many more it will take; without a number it stays. -/
structure Outbox where
  frames : List Frame
  room : Option Nat

/-- A client that stays connected. -/
def Outbox.connected : Outbox := { frames := [], room := none }

namespace Outbox

/-- `sender.send`; `none` when the receiver is gone. -/
def send (box : Outbox) (frame : Frame) : Option Outbox :=
  match box.room with
  | none => some { box with frames := box.frames ++ [frame] }
  | some 0 => none
  | some (room + 1) => some { frames := box.frames ++ [frame], room := some room }

/-- `let _ = sender.send(…)`. -/
def post (box : Outbox) (frame : Frame) : Outbox := (box.send frame).getD box

theorem send_connected {box : Outbox} (h : box.room = none) (frame : Frame) :
    box.send frame = some { box with frames := box.frames ++ [frame] } := by
  rw [send, h]

theorem post_connected {box : Outbox} (h : box.room = none) (frame : Frame) :
    box.post frame = { box with frames := box.frames ++ [frame] } := by
  rw [post, send_connected h]
  rfl

end Outbox

end Spark.OpenAi
