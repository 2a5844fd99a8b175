import Spark.OpenAi.Stream

/-!
# The event protocol of the responses endpoint

A client follows a response by the names of its events, their numbers, the item they are about and the
text they carry. This module reads a stream of `produceResponseStream` that way, for every run of the
backend: tokens of any number, either finish, a failing backend, a failing decode.

* **`Frame.summary`** — what a client reads off an event.
* **`summary_numbered`** — reading a stream forgets the numbers, which `sequenceNumber_numbered` gives back.
* **`response_event_protocol`** — the order, the numbers and the end of every stream.
-/

namespace Spark.OpenAi

namespace Frame

def name : Frame → String
  | event name _ => name
  | _ => ""

def body : Frame → Json
  | data value => value
  | event _ value => value
  | done => .null

def sequenceNumber (frame : Frame) : Option Json := frame.body.field "sequence_number"

/-- The first of the content parts of an item. -/
def contentPart (item : Json) : Option Json :=
  match item.field "content" with
  | some (.arr (part :: _)) => some part
  | _ => none

/-- The item an event is about: `item_id`, or the id of the `item` it carries. -/
def itemId (frame : Frame) : Option Json :=
  frame.body.field "item_id" <|> (frame.body.field "item").bind (Json.field "id")

/-- The text an event carries: a `delta`, a `text`, or the text of a part, alone or in an item. -/
def text (frame : Frame) : Option Json :=
  frame.body.field "delta" <|> frame.body.field "text" <|>
    (frame.body.field "part").bind (Json.field "text") <|>
    ((frame.body.field "item").bind contentPart).bind (Json.field "text")

end Frame

structure Summary where
  name : String
  itemId : Option Json
  text : Option Json

def Frame.summary (frame : Frame) : Summary :=
  { name := frame.name, itemId := frame.itemId, text := frame.text }

def Summary.terminal (s : Summary) : Bool := s.name == "response.completed" || s.name == "response.failed"

/-! ## Streams of events -/

/-- An event but for its number. -/
def IsEvent (event : Nat → Frame) : Prop :=
  ∃ name fields, event = fun sequence => responseEvent name sequence fields

theorem getElem?_numbered (events : List (Nat → Frame)) :
    ∀ start k : Nat, (numbered events start)[k]? = events[k]?.map fun event => event (start + k) := by
  induction events with
  | nil => exact fun start k => rfl
  | cons event rest ih =>
    intro start k
    rw [numbered]
    cases k with
    | zero => rfl
    | succ k =>
      rw [List.getElem?_cons_succ, List.getElem?_cons_succ, ih, show start + 1 + k = start + (k + 1) by omega]

/-- The number of an event is where it stands. -/
theorem sequenceNumber_numbered {events : List (Nat → Frame)} (h : ∀ event ∈ events, IsEvent event)
    {k : Nat} {frame : Frame} (hk : (numbered events 0)[k]? = some frame) :
    frame.sequenceNumber = some (.num k) := by
  rw [getElem?_numbered, Option.map_eq_some_iff] at hk
  obtain ⟨event, hevent, rfl⟩ := hk
  obtain ⟨name, fields, rfl⟩ := h event (List.mem_of_getElem? hevent)
  rw [Nat.zero_add]
  rfl

/-- What is read of an event without its number is the same at every number. -/
theorem summary_responseEvent (name : String) (sequence : Nat) (fields : List (String × Json)) :
    (responseEvent name sequence fields).summary = (responseEvent name 0 fields).summary := by
  simp [Frame.summary, responseEvent, Frame.name, Frame.itemId, Frame.text, Frame.body, Json.field]

theorem summary_numbered {events : List (Nat → Frame)} :
    (∀ event ∈ events, IsEvent event) →
      ∀ start, (numbered events start).map Frame.summary = events.map fun event => (event 0).summary := by
  induction events with
  | nil => exact fun _ start => rfl
  | cons event rest ih =>
    intro h start
    obtain ⟨name, fields, rfl⟩ := h event List.mem_cons_self
    rw [numbered, List.map_cons, List.map_cons, summary_responseEvent,
      ih fun event hevent => h event (List.mem_cons_of_mem _ hevent)]

/-! ## The protocol -/

def openingSummaries (messageId : Text) : List Summary :=
  [⟨"response.created", none, none⟩, ⟨"response.in_progress", none, none⟩,
    ⟨"response.output_item.added", some (.str messageId), some (.str [])⟩,
    ⟨"response.content_part.added", some (.str messageId), some (.str [])⟩]

def deltaSummary (messageId delta : Text) : Summary :=
  ⟨"response.output_text.delta", some (.str messageId), some (.str delta)⟩

def closingSummaries (messageId text : Text) : List Summary :=
  [⟨"response.output_text.done", some (.str messageId), some (.str text)⟩,
    ⟨"response.content_part.done", some (.str messageId), some (.str text)⟩,
    ⟨"response.output_item.done", some (.str messageId), some (.str text)⟩,
    ⟨"response.completed", none, none⟩]

def failureSummaries : List Summary := [⟨"response.failed", none, none⟩]

theorem isEvent_prologue (prepared : PreparedResponse) : ∀ event ∈ prologue prepared, IsEvent event := by
  simp only [prologue, List.forall_mem_cons]
  exact ⟨⟨_, _, rfl⟩, ⟨_, _, rfl⟩, ⟨_, _, rfl⟩, ⟨_, _, rfl⟩, nofun⟩

theorem isEvent_epilogue (prepared : PreparedResponse) (now : Nat) (finishReason : FinishReason) (text : Text)
    (completionTokens : Nat) :
    ∀ event ∈ epilogue prepared now finishReason text completionTokens, IsEvent event := by
  simp only [epilogue, List.forall_mem_cons]
  exact ⟨⟨_, _, rfl⟩, ⟨_, _, rfl⟩, ⟨_, _, rfl⟩, ⟨_, _, rfl⟩, nofun⟩

theorem isEvent_response {prepared : PreparedResponse} {deltas : List Text} {tail : List (Nat → Frame)}
    (htail : ∀ event ∈ tail, IsEvent event) :
    ∀ event ∈ prologue prepared ++ (deltas.map fun delta sequence => deltaEvent prepared sequence delta) ++ tail,
      IsEvent event := by
  rw [List.forall_mem_append, List.forall_mem_append]
  refine ⟨⟨isEvent_prologue prepared, ?_⟩, htail⟩
  intro event hevent
  obtain ⟨delta, -, rfl⟩ := List.mem_map.mp hevent
  exact ⟨_, _, rfl⟩

/-- A stream read by a client: the prologue, the deltas, and the events of the tail. -/
theorem summary_responseFrames {prepared : PreparedResponse} {deltas : List Text} {tail : List (Nat → Frame)}
    (htail : ∀ event ∈ tail, IsEvent event) :
    (responseFrames prepared deltas tail).map Frame.summary =
      openingSummaries prepared.messageId ++ deltas.map (deltaSummary prepared.messageId) ++
        tail.map fun event => (event 0).summary := by
  rw [responseFrames, summary_numbered (isEvent_response htail), List.map_append, List.map_append, List.map_map]
  rfl

/-- One terminal event, behind everything else. -/
theorem terminal_last {messageId : Text} {deltas : List Text} {tail : List Summary} {last : Summary}
    (htail : tail.countP Summary.terminal = 0) (hlast : last.terminal = true) :
    (openingSummaries messageId ++ deltas.map (deltaSummary messageId) ++ (tail ++ [last])).countP
      Summary.terminal = 1 := by
  have hdeltas : (deltas.map (deltaSummary messageId)).countP Summary.terminal = 0 := by
    rw [List.countP_eq_zero]
    intro s hs
    obtain ⟨delta, -, rfl⟩ := List.mem_map.mp hs
    exact Bool.false_ne_true
  rw [List.countP_append, List.countP_append, List.countP_append, hdeltas, htail, List.countP_singleton,
    if_pos hlast]
  rfl

/-- The frames of a stream with the text `deltas`, as a client reads them. -/
structure FollowsProtocol (messageId : Text) (deltas : List Text) (frames : List Frame) : Prop where
  numbers : ∀ (k : Nat) (frame : Frame), frames[k]? = some frame → frame.sequenceNumber = some (.num k)
  order : ∃ tail, frames.map Frame.summary =
      openingSummaries messageId ++ deltas.map (deltaSummary messageId) ++ tail ∧
    (tail = failureSummaries ∨ tail = closingSummaries messageId deltas.flatten)
  carries : ∀ delta ∈ deltas, delta ≠ []
  once : (frames.map Frame.summary).countP Summary.terminal = 1
  ends : ∃ last, (frames.map Frame.summary).getLast? = some last ∧ last.terminal = true

/-- The end of a stream decides whether it follows the protocol. -/
theorem followsProtocol_of_tail {prepared : PreparedResponse} {deltas : List Text} {tail : List (Nat → Frame)}
    {summaries : List Summary} {last : Summary} (hne : ∀ delta ∈ deltas, delta ≠ [])
    (htail : ∀ event ∈ tail, IsEvent event)
    (hsummary : (tail.map fun event => (event 0).summary) = summaries ++ [last])
    (hkind : summaries ++ [last] = failureSummaries ∨
      summaries ++ [last] = closingSummaries prepared.messageId deltas.flatten)
    (hnone : summaries.countP Summary.terminal = 0) (hlast : last.terminal = true) :
    FollowsProtocol prepared.messageId deltas (responseFrames prepared deltas tail) := by
  have hread : (responseFrames prepared deltas tail).map Frame.summary = _ := summary_responseFrames htail
  rw [hsummary] at hread
  refine ⟨?_, ⟨_, hread, hkind⟩, hne, ?_, last, ?_, hlast⟩
  · exact fun k frame hk => sequenceNumber_numbered (isEvent_response htail) hk
  · rw [hread]
    exact terminal_last hnone hlast
  · rw [hread, ← List.append_assoc, List.getLast?_append, List.getLast?_singleton]
    rfl

/-- **The protocol.** Whatever the backend does, its stream is the prologue, deltas that carry text, and one
end: a single failure, or the three `done` events with all the text of the deltas, then the completed
response. Each event is numbered by its place. -/
theorem response_event_protocol (decode : Decoder) (run : BackendRun) (prepared : PreparedResponse) (now : Nat) :
    ∃ frames deltas, produceResponseStream decode run prepared now .connected = .delivered frames ∧
      FollowsProtocol prepared.messageId deltas frames := by
  obtain ⟨deltas, tail, hne, heq, hends⟩ := produceResponseStream_spec decode run prepared now
  refine ⟨_, deltas, heq, ?_⟩
  rcases hends with ⟨finishReason, text, -, -, rfl, rfl⟩ | ⟨message, ⟨-, rfl⟩ | ⟨-, rfl⟩⟩
  · have hsummary : ((epilogue prepared now finishReason deltas.flatten run.tokens.length).map
        fun event => (event 0).summary) =
        (closingSummaries prepared.messageId deltas.flatten).take 3 ++ [⟨"response.completed", none, none⟩] := rfl
    exact followsProtocol_of_tail hne (isEvent_epilogue _ _ _ _ _) hsummary (.inr rfl) rfl rfl
  · have hsummary : ([fun sequence => failedEvent prepared now sequence message].map
        fun event => (event 0).summary) = [] ++ failureSummaries := rfl
    exact followsProtocol_of_tail hne (List.forall_mem_singleton.mpr ⟨_, _, rfl⟩) hsummary (.inl rfl) rfl rfl
  · have hsummary : ([fun sequence => decodeFailedEvent sequence message].map
        fun event => (event 0).summary) = [] ++ failureSummaries := rfl
    exact followsProtocol_of_tail hne (List.forall_mem_singleton.mpr ⟨_, _, rfl⟩) hsummary (.inl rfl) rfl rfl

end Spark.OpenAi
