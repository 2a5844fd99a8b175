import Mathlib.Data.List.DropRight
import Mathlib.Data.List.SplitBy
import Spark.Lib.Delimited
import Spark.OpenAi.Wire

/-!
# The chat template

`render_qwen_text_chat` of `qwen_tokenizer.rs`: from the messages of a chat to the text that the model reads.

* **`renderLoop_eq`** — the loop writes one block for every message, or run of tool messages.
* **`Parses.unique`** — blocks are read back in one way.
* **`render_unambiguous`** — when a chat is rendered, and what is read back.
-/

namespace Spark.OpenAi

open Spark.Search

inductive ChatRole where
  | system
  | user
  | assistant
  | tool
  deriving DecidableEq, Repr

structure ChatMessage where
  role : ChatRole
  content : Text
  reasoningContent : Option Text := none

inductive ReasoningEffort where
  | xHigh
  | medium
  | low
  deriving DecidableEq, Repr

structure ChatTemplateOptions where
  enableThinking : Bool := true
  preserveThinking : Bool := true
  reasoningEffort : ReasoningEffort := .xHigh
  addGenerationPrompt : Bool := true

/-- The errors of `render_qwen_text_chat`. -/
inductive TokenizerError where
  | noMessages
  | noUserQuery
  | misplacedSystemMessage
  deriving DecidableEq, Repr

def xhighInstruction : Text :=
  "Reasoning effort is set to xhigh. Please think carefully through the task, validate key assumptions, consider plausible alternatives, and prioritize correctness, consistency, and clarity in the final answer.".toList

def lowInstruction : Text :=
  "Reasoning effort is set to low. Keep your thinking brief and focused, moving directly to the conclusion without unnecessary elaboration.".toList

/-- `char::is_whitespace`: the property `White_Space`. -/
def isWhitespace (c : Char) : Bool :=
  let n := c.toNat
  (9 ≤ n && n ≤ 13) || n == 0x20 || n == 0x85 || n == 0xA0 || n == 0x1680 || (0x2000 ≤ n && n ≤ 0x200A) ||
    n == 0x2028 || n == 0x2029 || n == 0x202F || n == 0x205F || n == 0x3000

/-- `str::trim`. -/
def trim (text : Text) : Text := (text.dropWhile isWhitespace).rdropWhile isWhitespace

/-- `Iterator::rposition`. -/
def rposition {α : Type} (p : α → Bool) : List α → Option Nat
  | [] => none
  | x :: xs =>
    match rposition p xs with
    | some i => some (i + 1)
    | none => if p x then some 0 else none

def reasoningInstruction (options : ChatTemplateOptions) : Text :=
  if !options.enableThinking then []
  else
    match options.reasoningEffort with
    | .xHigh => xhighInstruction
    | .medium => []
    | .low => lowInstruction

/-- What is written in front of the loop, and the index of the loop's first message. -/
def renderSystem (messages : List ChatMessage) (instruction : Text) : Text × Nat :=
  match messages with
  | ⟨.system, content, _⟩ :: _ =>
    let system := trim content
    if system ≠ [] ∨ instruction ≠ [] then
      let output := "<|im_start|>system\n".toList
      let output :=
        if instruction ≠ [] then
          let output := output ++ instruction
          if system ≠ [] then output ++ "\n\n".toList else output
        else output
      (output ++ system ++ "<|im_end|>\n".toList, 1)
    else ([], 1)
  | _ =>
    if instruction ≠ [] then ("<|im_start|>system\n".toList ++ instruction ++ "<|im_end|>\n".toList, 0) else ([], 0)

/-- One round of the inner loop over tool messages. -/
def toolResponse (message : ChatMessage) : Text :=
  "\n<tool_response>\n".toList ++ trim message.content ++ "\n</tool_response>".toList

/-- The loop over the messages from `index` on. -/
def renderLoop (options : ChatTemplateOptions) (lastUser : Nat) :
    (fuel index : Nat) → List ChatMessage → (output : Text) → Except TokenizerError Text
  | 0, _, _, output => .ok output
  | _ + 1, _, [], output => .ok output
  | fuel + 1, index, message :: rest, output =>
    match message.role with
    | .system => .error .misplacedSystemMessage
    | .user =>
      renderLoop options lastUser fuel (index + 1) rest
        (output ++ "<|im_start|>user\n".toList ++ trim message.content ++ "<|im_end|>\n".toList)
    | .assistant =>
      let output := output ++ "<|im_start|>assistant\n".toList
      let output :=
        if options.preserveThinking || index > lastUser then
          output ++ "<think>\n".toList ++ (message.reasoningContent.elim [] trim) ++ "\n</think>\n\n".toList
        else output
      renderLoop options lastUser fuel (index + 1) rest (output ++ trim message.content ++ "<|im_end|>\n".toList)
    | .tool =>
      let tools := (message :: rest).takeWhile fun message => message.role = .tool
      renderLoop options lastUser fuel (index + tools.length)
        ((message :: rest).dropWhile fun message => message.role = .tool)
        (output ++ "<|im_start|>user".toList ++ tools.flatMap toolResponse ++ "<|im_end|>\n".toList)

def generationPrompt (options : ChatTemplateOptions) : Text :=
  if options.addGenerationPrompt then
    "<|im_start|>assistant\n<think>\n".toList ++ (if !options.enableThinking then "\n</think>\n\n".toList else [])
  else []

/-- `render_qwen_text_chat`. -/
def renderQwenTextChat (messages : List ChatMessage) (options : ChatTemplateOptions) : Except TokenizerError Text :=
  if messages = [] then .error .noMessages
  else if messages.zipIdx.any fun entry => entry.1.role = .system && entry.2 != 0 then .error .misplacedSystemMessage
  else if !messages.any fun message => message.role = .user then .error .noUserQuery
  else
    let (output, firstMessage) := renderSystem messages (reasoningInstruction options)
    match rposition (fun message => message.role = .user) messages with
    | none => .error .noUserQuery
    | some lastUser => do
      let output ← renderLoop options lastUser messages.length firstMessage (messages.drop firstMessage) output
      return output ++ generationPrompt options

/-! ## Blocks -/

def imStart : Text := "<|im_start|>".toList
def imEnd : Text := "<|im_end|>".toList

/-- The ChatML markers. -/
def markers : List Text := [imStart, imEnd]

/-- What stands between two markers: a role, and a text under it. -/
structure Block where
  role : Text
  body : Text

def Block.text (block : Block) : Text := block.role ++ '\n' :: block.body

/-- The text is these blocks, and a tail in which no block ends. -/
structure Parses (output : Text) (blocks : List Block) (tail : Text) : Prop where
  printed : output = document imStart (imEnd ++ ['\n']) (blocks.map Block.text) ++ tail
  plain : ∀ block ∈ blocks, '\n' ∉ block.role ∧ Free markers block.role ∧ Free markers block.body
  tail : Free [imEnd] tail

/-! ## The blocks that are expected -/

/-- The text of a leading system message. -/
def leadingText : List ChatMessage → Text
  | ⟨.system, content, _⟩ :: _ => trim content
  | _ => []

/-- The system block: the instruction and the text of a leading system message, as far as they are there. -/
def systemBlock (messages : List ChatMessage) (instruction : Text) : List Block :=
  let parts := [instruction, leadingText messages].filter (· ≠ [])
  if parts = [] then [] else [⟨"system".toList, ['\n', '\n'].intercalate parts⟩]

/-- Is the reasoning of the message at `index` kept? -/
def keepsReasoning (messages : List ChatMessage) (options : ChatTemplateOptions) (index : Nat) : Bool :=
  options.preserveThinking || (messages.drop index).all fun message => message.role ≠ .user

/-- The block of one message, or of a run of tool messages. -/
def turnBlock (keeps : Nat → Bool) : List (ChatMessage × Nat) → Block
  | [] => ⟨[], []⟩
  | (message, index) :: others =>
    match message.role with
    | .system => ⟨"system".toList, trim message.content⟩
    | .user => ⟨"user".toList, trim message.content⟩
    | .assistant =>
      ⟨"assistant".toList,
        (if keeps index then
          "<think>\n".toList ++ (message.reasoningContent.elim [] trim) ++ "\n</think>\n\n".toList
        else []) ++ trim message.content⟩
    | .tool =>
      ⟨"user".toList, ['\n'].intercalate (((message, index) :: others).map fun entry =>
        "<tool_response>\n".toList ++ trim entry.1.content ++ "\n</tool_response>".toList)⟩

/-- Neighbours that share a block. -/
def bothTools (a b : ChatMessage × Nat) : Bool := a.1.role = .tool && b.1.role = .tool

/-- The messages behind a leading system message, with their places. -/
def turns (messages : List ChatMessage) : List (ChatMessage × Nat) :=
  match messages with
  | ⟨.system, _, _⟩ :: rest => rest.zipIdx 1
  | _ => messages.zipIdx

/-- The blocks of a chat; `splitBy` cuts between neighbours unless both are tool messages. -/
def expectedBlocks (messages : List ChatMessage) (options : ChatTemplateOptions) : List Block :=
  systemBlock messages (reasoningInstruction options) ++
    ((turns messages).splitBy bothTools).map (turnBlock (keepsReasoning messages options))

/-! ## The loop writes the blocks -/

theorem document_cons (opening closing block : Text) (blocks : List Text) :
    document opening closing (block :: blocks) = opening ++ block ++ closing ++ document opening closing blocks := by
  simp [document]

/-- An element that has no neighbour it shares a run with is a run of its own. -/
theorem splitBy_cons_of_not {α : Type} {r : α → α → Bool} {x : α} {xs : List α} (h : ∀ y, r x y = false) :
    (x :: xs).splitBy r = [x] :: xs.splitBy r := by
  rw [← List.singleton_append, List.splitBy_append fun a ha y _ => ?_]
  · rw [List.splitBy_of_isChain (List.cons_ne_nil x []) (List.isChain_singleton x)]
    rfl
  · rw [List.getLast?_singleton, Option.mem_some_iff] at ha
    rw [← ha, h]

/-- A separator in front of every text. -/
theorem flatMap_separator {α β : Type} (separator : List β) (f : α → List β) (x : α) (xs : List α) :
    ((x :: xs).flatMap fun y => separator ++ f y) = separator ++ separator.intercalate ((x :: xs).map f) := by
  induction xs generalizing x with
  | nil => simp [List.intercalate]
  | cons y ys ih =>
    rw [List.flatMap_cons, ih y]
    simp [List.intercalate]

theorem isChain_tools {tools : List (ChatMessage × Nat)} (h : ∀ entry ∈ tools, entry.1.role = .tool) :
    tools.IsChain fun a b => bothTools a b := by
  induction tools with
  | nil => exact List.isChain_nil
  | cons a tools ih =>
    obtain ⟨ha, htools⟩ := List.forall_mem_cons.mp h
    refine List.isChain_cons.mpr ⟨fun b hb => ?_, ih htools⟩
    simp [bothTools, ha, htools b (List.mem_of_mem_head? hb)]

/-- A run of tool messages, up to a message that is none. -/
theorem splitBy_tools {tools others : List (ChatMessage × Nat)} (hne : tools ≠ [])
    (htools : ∀ entry ∈ tools, entry.1.role = .tool) (hothers : ∀ entry ∈ others.head?, entry.1.role ≠ .tool) :
    (tools ++ others).splitBy bothTools = tools :: others.splitBy bothTools := by
  rw [List.splitBy_append fun a _ b hb => ?_]
  · rw [List.splitBy_of_isChain hne (isChain_tools htools)]
    rfl
  · simp [bothTools, hothers b hb]

theorem toolResponse_eq (message : ChatMessage) :
    toolResponse message =
      ['\n'] ++ ("<tool_response>\n".toList ++ trim message.content ++ "\n</tool_response>".toList) := by
  have hopen : "\n<tool_response>\n".toList = ['\n'] ++ "<tool_response>\n".toList := by decide
  unfold toolResponse
  generalize trim message.content = text
  rw [hopen, List.append_assoc, List.append_assoc, List.append_assoc]

/-- The inner loop writes the elements with a line break in front of each. -/
theorem toolResponses_eq (message : ChatMessage) (more : List ChatMessage) (index : Nat) :
    (message :: more).flatMap toolResponse =
      ['\n'] ++ ['\n'].intercalate (((message :: more).zipIdx index).map fun entry =>
        "<tool_response>\n".toList ++ trim entry.1.content ++ "\n</tool_response>".toList) := by
  have hplain : (((message :: more).zipIdx index).map fun entry =>
      "<tool_response>\n".toList ++ trim entry.1.content ++ "\n</tool_response>".toList) =
      (message :: more).map fun message =>
        "<tool_response>\n".toList ++ trim message.content ++ "\n</tool_response>".toList := by
    conv_rhs => rw [← List.zipIdx_map_fst index (message :: more), List.map_map]
    rfl
  rw [funext toolResponse_eq, flatMap_separator, hplain]

/-- A turn is written as the document writes its block. -/
theorem written_turn (role : Text) {opened : Text} (hopened : opened = imStart ++ (role ++ ['\n']))
    (output body : Text) (behind : List Text) :
    output ++ opened ++ body ++ "<|im_end|>\n".toList ++ document imStart (imEnd ++ ['\n']) behind =
      output ++ document imStart (imEnd ++ ['\n']) (Block.text ⟨role, body⟩ :: behind) := by
  rw [document_cons, hopened, show "<|im_end|>\n".toList = imEnd ++ ['\n'] from by decide]
  simp only [Block.text, List.append_assoc, List.cons_append, List.nil_append]

/-- The loop writes one block for every message, or run of tool messages. -/
theorem renderLoop_eq (options : ChatTemplateOptions) (lastUser : Nat) (fuel : Nat) :
    ∀ (index : Nat) (rest : List ChatMessage) (output : Text), rest.length ≤ fuel →
      (∀ message ∈ rest, message.role ≠ .system) →
      renderLoop options lastUser fuel index rest output =
        .ok (output ++ document imStart (imEnd ++ ['\n'])
          ((((rest.zipIdx index).splitBy bothTools).map
            (turnBlock fun i => options.preserveThinking || i > lastUser)).map Block.text)) := by
  induction fuel with
  | zero =>
    intro index rest output hfuel _
    rw [List.length_eq_zero_iff.mp (Nat.le_zero.mp hfuel)]
    simp [renderLoop, document]
  | succ fuel ih =>
    intro index rest output hfuel hsystem
    cases rest with
    | nil => simp [renderLoop, document]
    | cons message rest =>
      obtain ⟨hmessage, hrest⟩ := List.forall_mem_cons.mp hsystem
      have hshort : rest.length ≤ fuel := Nat.le_of_succ_le_succ hfuel
      rw [renderLoop]
      cases hrole : message.role with
      | system => exact absurd hrole hmessage
      | user =>
        have halone : ∀ entry, bothTools (message, index) entry = false := fun entry => by simp [bothTools, hrole]
        simp only
        rw [ih (index + 1) rest _ hshort hrest, List.zipIdx_cons, splitBy_cons_of_not halone, List.map_cons,
          List.map_cons, written_turn "user".toList (by decide)]
        simp only [turnBlock, hrole]
      | assistant =>
        have halone : ∀ entry, bothTools (message, index) entry = false := fun entry => by simp [bothTools, hrole]
        simp only
        rw [ih (index + 1) rest _ hshort hrest, List.zipIdx_cons, splitBy_cons_of_not halone, List.map_cons,
          List.map_cons]
        simp only [turnBlock, hrole]
        split
        · rw [← written_turn "assistant".toList (by decide : "<|im_start|>assistant\n".toList = _)]
          simp only [List.append_assoc]
        · rw [List.nil_append, written_turn "assistant".toList (by decide)]
      | tool =>
        -- the run of tool messages, and what is behind it
        simp only
        generalize htools : (message :: rest).takeWhile (fun message => message.role = .tool) = tools
        generalize hothers : (message :: rest).dropWhile (fun message => message.role = .tool) = others
        have hsplit : message :: rest = tools ++ others := by
          rw [← htools, ← hothers, List.takeWhile_append_dropWhile]
        have hall : ∀ other ∈ tools, other.role = .tool := fun other hother => by
          rw [← htools] at hother
          simpa using List.mem_takeWhile_imp hother
        have hhead : ∀ other ∈ others.head?, other.role ≠ .tool := fun other hother => by
          have hnot := List.head?_dropWhile_not (fun message : ChatMessage => decide (message.role = .tool))
            (message :: rest)
          rw [hothers, Option.mem_def.mp hother] at hnot
          simpa using hnot
        obtain ⟨more, rfl⟩ : ∃ more, tools = message :: more := by
          rw [List.takeWhile_cons_of_pos (by simpa using hrole)] at htools
          exact ⟨_, htools.symm⟩
        have hlength := congrArg List.length hsplit
        rw [List.length_append, List.length_cons, List.length_cons] at hlength
        have hturns : ∀ entry ∈ (message :: more).zipIdx index, entry.1.role = .tool := fun entry hentry =>
          hall entry.1 (List.fst_mem_of_mem_zipIdx hentry)
        have hnext : ∀ entry ∈ (others.zipIdx (index + (message :: more).length)).head?, entry.1.role ≠ .tool := by
          intro entry hentry
          cases others with
          | nil => cases hentry
          | cons other others =>
            cases hentry
            exact hhead other rfl
        rw [ih _ others _ (by omega) fun other hother => hsystem other (by rw [hsplit]; exact List.mem_append_right _ hother),
          hsplit, List.zipIdx_append, splitBy_tools (by simp) hturns hnext, List.map_cons, List.map_cons]
        rw [toolResponses_eq message more index, List.zipIdx_cons]
        simp only [turnBlock, hrole]
        rw [← written_turn "user".toList rfl]
        rw [show "<|im_start|>user".toList = imStart ++ "user".toList from by decide]
        simp only [List.append_assoc]

/-! ## The whole text -/

theorem rposition_last {α : Type} (p : α → Bool) (xs : List α) :
    Last (fun i => ∃ x, xs[i]? = some x ∧ p x = true) (rposition p xs) := by
  induction xs with
  | nil =>
    rintro i ⟨x, hx, -⟩
    cases hx
  | cons x xs ih =>
    unfold rposition
    cases hrest : rposition p xs with
    | some i =>
      rw [hrest] at ih
      refine ⟨ih.1, fun j hj hat => ?_⟩
      cases j with
      | zero => omega
      | succ j => exact ih.2 j (by omega) hat
    | none =>
      rw [hrest] at ih
      simp only
      split
      · next hx =>
        refine ⟨⟨x, rfl, hx⟩, fun j hj hat => ?_⟩
        cases j with
        | zero => omega
        | succ j => exact ih j hat
      · next hx =>
        intro j hat
        cases j with
        | zero =>
          obtain ⟨y, hy, hp⟩ := hat
          cases hy
          exact hx hp
        | succ j => exact ih j hat

/-- Behind the last user message there is none. -/
theorem keepsReasoning_eq {messages : List ChatMessage} {lastUser : Nat}
    (h : rposition (fun message => message.role = .user) messages = some lastUser) (options : ChatTemplateOptions) :
    keepsReasoning messages options = fun i => options.preserveThinking || i > lastUser := by
  have hlast := rposition_last (fun message : ChatMessage => message.role = .user) messages
  rw [h] at hlast
  obtain ⟨⟨user, huser, hrole⟩, hnone⟩ := hlast
  funext i
  refine congrArg (options.preserveThinking || ·) ?_
  rw [Bool.eq_iff_iff, List.all_eq_true, decide_eq_true_iff]
  constructor
  · intro hall
    by_contra hle
    obtain ⟨j, rfl⟩ := Nat.exists_eq_add_of_le (not_lt.mp hle)
    have hnot := hall user (List.mem_of_getElem? (by rw [List.getElem?_drop]; exact huser))
    simp at hnot hrole
    exact hnot hrole
  · intro hlt message hmessage
    obtain ⟨j, hj⟩ := List.mem_iff_getElem?.mp hmessage
    rw [List.getElem?_drop] at hj
    simp only [decide_eq_true_eq]
    intro huser
    exact hnone (i + j) (by omega) ⟨message, hj, by simpa using huser⟩

theorem written_system (body : Text) :
    "<|im_start|>system\n".toList ++ body ++ "<|im_end|>\n".toList =
      document imStart (imEnd ++ ['\n']) [Block.text ⟨"system".toList, body⟩] := by
  have h := written_turn "system".toList (by decide : "<|im_start|>system\n".toList = _) [] body []
  simpa [document] using h

/-- A chat that does not start with a system message. -/
theorem renderSystem_plain {messages : List ChatMessage} (instruction : Text)
    (hplain : ∀ message ∈ messages.head?, message.role ≠ .system) :
    renderSystem messages instruction =
        (document imStart (imEnd ++ ['\n']) ((systemBlock messages instruction).map Block.text), 0) ∧
      turns messages = messages.zipIdx := by
  have hblock : systemBlock messages instruction =
      if instruction = [] then [] else [⟨"system".toList, instruction⟩] := by
    have hnone : leadingText messages = [] := by
      unfold leadingText
      split
      · next content _ _ => exact absurd rfl (hplain _ rfl)
      · rfl
    unfold systemBlock
    rw [hnone]
    by_cases hinstruction : instruction = []
    · simp [hinstruction]
    · simp [hinstruction, List.intercalate]
  constructor
  · rw [hblock]
    unfold renderSystem
    split
    · next content _ _ => exact absurd rfl (hplain _ rfl)
    · by_cases hinstruction : instruction = []
      · simp [hinstruction, document]
      · rw [if_pos hinstruction, if_neg hinstruction, written_system]
        rfl
  · unfold turns
    split
    · next content _ _ => exact absurd rfl (hplain _ rfl)
    · rfl

theorem renderSystem_leading (content : Text) (reasoning : Option Text) (rest : List ChatMessage)
    (instruction : Text) :
    renderSystem (⟨.system, content, reasoning⟩ :: rest) instruction =
      (document imStart (imEnd ++ ['\n'])
        ((systemBlock (⟨.system, content, reasoning⟩ :: rest) instruction).map Block.text), 1) := by
  unfold renderSystem systemBlock leadingText
  simp only
  by_cases hinstruction : instruction = []
  · by_cases hsystem : trim content = []
    · simp [hinstruction, hsystem, document]
    · rw [if_pos (Or.inl hsystem), if_neg (not_not.mpr hinstruction), written_system]
      simp [hinstruction, hsystem, List.intercalate]
  · rw [if_pos (Or.inr hinstruction), if_pos hinstruction]
    by_cases hsystem : trim content = []
    · rw [if_neg (not_not.mpr hsystem), hsystem, List.append_nil, written_system]
      simp [hinstruction, List.intercalate]
    · have hbody : "<|im_start|>system\n".toList ++ instruction ++ "\n\n".toList ++ trim content ++ "<|im_end|>\n".toList =
          "<|im_start|>system\n".toList ++ (instruction ++ "\n\n".toList ++ trim content) ++ "<|im_end|>\n".toList := by
        simp only [List.append_assoc]
      rw [if_pos hsystem, hbody, written_system]
      simp [hinstruction, hsystem, List.intercalate]

/-- A chat that can be rendered. -/
structure Renderable (messages : List ChatMessage) : Prop where
  nonempty : messages ≠ []
  user : ∃ message ∈ messages, message.role = .user
  system : ∀ i message, messages[i]? = some message → message.role = .system → i = 0

theorem misplaced_iff {messages : List ChatMessage} :
    (messages.zipIdx.any fun entry => entry.1.role = .system && entry.2 != 0) = false ↔
      ∀ i message, messages[i]? = some message → message.role = .system → i = 0 := by
  rw [List.any_eq_false]
  constructor
  · intro hall i message hget hsystem
    by_contra hne
    refine hall (message, i) (List.mem_zipIdx_iff_getElem?.mpr hget) ?_
    simp [hsystem, hne]
  · rintro hall ⟨message, i⟩ hentry
    rw [List.mem_zipIdx_iff_getElem?] at hentry
    by_cases hsystem : message.role = .system
    · simp [hall i message hentry hsystem]
    · simp [hsystem]

variable {messages : List ChatMessage} {options : ChatTemplateOptions}

theorem renderable_of_ok {output : Text} (h : renderQwenTextChat messages options = .ok output) :
    Renderable messages := by
  unfold renderQwenTextChat at h
  split at h
  · cases h
  · next hsome =>
    split at h
    · cases h
    · next hplaced =>
      split at h
      · cases h
      · next huser =>
        refine ⟨hsome, ?_, misplaced_iff.mp (by simpa using hplaced)⟩
        simpa using huser

theorem Renderable.ok (h : Renderable messages) (options : ChatTemplateOptions) :
    renderQwenTextChat messages options =
      .ok (document imStart (imEnd ++ ['\n']) ((expectedBlocks messages options).map Block.text) ++
        generationPrompt options) := by
  obtain ⟨user, huser, hrole⟩ := h.user
  have hsome : messages.any (fun message => message.role = .user) = true :=
    List.any_eq_true.mpr ⟨user, huser, by simpa using hrole⟩
  obtain ⟨lastUser, hlast⟩ : ∃ lastUser, rposition (fun message => message.role = .user) messages = some lastUser := by
    cases hposition : rposition (fun message => decide (message.role = ChatRole.user)) messages with
    | some lastUser => exact ⟨lastUser, rfl⟩
    | none =>
      have hnone := rposition_last (fun message : ChatMessage => message.role = .user) messages
      rw [hposition] at hnone
      obtain ⟨i, hi⟩ := List.mem_iff_getElem?.mp huser
      exact absurd ⟨user, hi, by simpa using hrole⟩ (hnone i)
  unfold renderQwenTextChat
  rw [if_neg h.nonempty, misplaced_iff.mpr h.system, if_neg Bool.false_ne_true, hsome]
  simp only [Bool.not_true, Bool.false_eq_true, if_false, hlast]
  -- what is in front of the loop, and what the loop sees
  have hfront : (renderSystem messages (reasoningInstruction options)).1 =
        document imStart (imEnd ++ ['\n']) ((systemBlock messages (reasoningInstruction options)).map Block.text) ∧
      (messages.drop (renderSystem messages (reasoningInstruction options)).2).zipIdx
        (renderSystem messages (reasoningInstruction options)).2 = turns messages ∧
      ∀ message ∈ messages.drop (renderSystem messages (reasoningInstruction options)).2, message.role ≠ .system := by
    by_cases hplain : ∀ message ∈ messages.head?, message.role ≠ .system
    · obtain ⟨hrender, hturns⟩ := renderSystem_plain (reasoningInstruction options) hplain
      rw [hrender, hturns]
      refine ⟨rfl, rfl, fun message hmessage hsystem => ?_⟩
      obtain ⟨i, hi⟩ := List.mem_iff_getElem?.mp hmessage
      have hzero := h.system i message (by simpa using hi) hsystem
      subst hzero
      exact hplain message (by simpa [List.head?_eq_getElem?] using hi) hsystem
    · obtain ⟨⟨content, reasoning⟩, rest, rfl⟩ : ∃ texts : Text × Option Text, ∃ rest,
          messages = ⟨.system, texts.1, texts.2⟩ :: rest := by
        push Not at hplain
        obtain ⟨⟨role, content, reasoning⟩, hhead, hsystem⟩ := hplain
        cases messages with
        | nil => cases hhead
        | cons first rest =>
          cases hhead
          cases hsystem
          exact ⟨(content, reasoning), rest, rfl⟩
      rw [renderSystem_leading]
      refine ⟨rfl, rfl, fun message hmessage hsystem => ?_⟩
      obtain ⟨i, hi⟩ := List.mem_iff_getElem?.mp hmessage
      rw [List.getElem?_drop] at hi
      have hzero := h.system (1 + i) message hi hsystem
      omega
  obtain ⟨houtput, hturns, hsystem⟩ := hfront
  rw [renderLoop_eq options lastUser _ _ _ _ (by rw [List.length_drop]; omega) hsystem, houtput, hturns]
  show Except.ok (_ ++ generationPrompt options) = _
  rw [expectedBlocks, List.map_append, keepsReasoning_eq hlast]
  simp only [document, List.flatMap_append]

/-! ## Reading it back -/

theorem markers_head : ∀ word ∈ markers, word.head? = some '<' := by decide

theorem free_newline {a b : Text} (ha : Free markers a) (hb : Free markers b) : Free markers (a ++ '\n' :: b) :=
  Free.append_cons (by decide) ha hb

theorem free_nil : Free markers ([] : Text) := Free.of_not_mem markers_head List.not_mem_nil

theorem free_trim {text : Text} (h : Free markers text) : Free markers (trim text) :=
  h.of_infix ((List.rdropWhile_prefix _ _).isInfix.trans (List.dropWhile_suffix _).isInfix)

theorem free_intercalate {parts : List Text} (h : ∀ part ∈ parts, Free markers part) :
    Free markers (['\n'].intercalate parts) := by
  induction parts with
  | nil => exact free_nil
  | cons part parts ih =>
    obtain ⟨hpart, hparts⟩ := List.forall_mem_cons.mp h
    cases parts with
    | nil => simpa [List.intercalate] using hpart
    | cons other parts =>
      have hsplit : ['\n'].intercalate (part :: other :: parts) =
          part ++ '\n' :: ['\n'].intercalate (other :: parts) := by
        simp [List.intercalate]
      rw [hsplit]
      exact free_newline hpart (ih hparts)

/-- A message without a marker in its texts. -/
structure ChatMessage.Plain (message : ChatMessage) : Prop where
  content : Free markers message.content
  reasoning : ∀ text ∈ message.reasoningContent, Free markers text

def Block.Plain (block : Block) : Prop :=
  '\n' ∉ block.role ∧ Free markers block.role ∧ Free markers block.body

theorem plain_of_body {role body : Text} (hline : '\n' ∉ role) (hrole : '<' ∉ role) (hbody : Free markers body) :
    Block.Plain ⟨role, body⟩ :=
  ⟨hline, Free.of_not_mem markers_head hrole, hbody⟩

theorem systemBlock_plain (hplain : ∀ message ∈ messages, message.Plain) (options : ChatTemplateOptions) :
    ∀ block ∈ systemBlock messages (reasoningInstruction options), block.Plain := by
  have hinstruction : '<' ∉ reasoningInstruction options := by
    unfold reasoningInstruction
    split
    · decide
    · split
      · decide +kernel
      · decide
      · decide +kernel
  have hfree : Free markers (leadingText messages) := by
    unfold leadingText
    split
    · next content reasoning rest => exact free_trim (hplain ⟨.system, content, reasoning⟩ List.mem_cons_self).content
    · exact free_nil
  unfold systemBlock
  generalize leadingText messages = system at hfree
  intro block hblock
  simp only at hblock
  split at hblock
  · cases hblock
  · rw [List.mem_singleton] at hblock
    subst hblock
    refine plain_of_body (by decide) (by decide) ?_
    by_cases hempty : reasoningInstruction options = []
    · by_cases hnone : system = []
      · simpa [hempty, hnone, List.intercalate] using free_nil
      · simpa [hempty, hnone, List.intercalate] using hfree
    · by_cases hnone : system = []
      · simpa [hempty, hnone, List.intercalate] using Free.of_not_mem markers_head hinstruction
      · have hbody : Free markers (reasoningInstruction options ++ '\n' :: ([] ++ '\n' :: system)) :=
          free_newline (Free.of_not_mem markers_head hinstruction) (free_newline free_nil hfree)
        simpa [hempty, hnone, List.intercalate] using hbody

theorem turnBlock_plain {keeps : Nat → Bool} {turn : List (ChatMessage × Nat)}
    (hplain : ∀ entry ∈ turn, entry.1.Plain) : (turnBlock keeps turn).Plain := by
  cases turn with
  | nil => exact plain_of_body List.not_mem_nil List.not_mem_nil free_nil
  | cons entry others =>
    obtain ⟨message, index⟩ := entry
    have hmessage := hplain (message, index) List.mem_cons_self
    have hcontent := free_trim hmessage.content
    unfold turnBlock
    simp only
    split
    · exact plain_of_body (by decide) (by decide) hcontent
    · exact plain_of_body (by decide) (by decide) hcontent
    · refine plain_of_body (by decide) (by decide) ?_
      split
      · have hreasoning : Free markers (message.reasoningContent.elim [] trim) := by
          cases hsome : message.reasoningContent with
          | none => exact free_nil
          | some text => exact free_trim (hmessage.reasoning text hsome)
        have hopen : Free markers "<think>".toList := by decide
        have hclose : Free markers "</think>".toList := by decide
        have hbody := free_newline hopen (free_newline hreasoning
          (free_newline hclose (free_newline free_nil hcontent)))
        have hthink : "<think>\n".toList = "<think>".toList ++ ['\n'] := by decide
        have hend : "\n</think>\n\n".toList = '\n' :: ("</think>".toList ++ ['\n', '\n']) := by decide
        rw [hthink, hend]
        simpa only [List.append_assoc, List.cons_append, List.nil_append] using hbody
      · exact hcontent
    · refine plain_of_body (by decide) (by decide) (free_intercalate fun part hpart => ?_)
      obtain ⟨other, hother, rfl⟩ := List.mem_map.mp hpart
      have hopen : Free markers "<tool_response>".toList := by decide
      have hclose : Free markers "</tool_response>".toList := by decide
      have hbody := free_newline hopen (free_newline (free_trim (hplain other hother).content) hclose)
      have hstart : "<tool_response>\n".toList = "<tool_response>".toList ++ ['\n'] := by decide
      have hend : "\n</tool_response>".toList = '\n' :: "</tool_response>".toList := by decide
      rw [hstart, hend]
      simpa only [List.append_assoc, List.cons_append, List.nil_append] using hbody

theorem mem_of_turns {entry : ChatMessage × Nat} (h : entry ∈ turns messages) : entry.1 ∈ messages := by
  unfold turns at h
  split at h
  · exact List.mem_cons_of_mem _ (List.fst_mem_of_mem_zipIdx h)
  · exact List.fst_mem_of_mem_zipIdx h

theorem expectedBlocks_plain (hplain : ∀ message ∈ messages, message.Plain) (options : ChatTemplateOptions) :
    ∀ block ∈ expectedBlocks messages options, block.Plain := by
  intro block hblock
  rcases List.mem_append.mp hblock with hsystem | hturn
  · exact systemBlock_plain hplain options block hsystem
  · obtain ⟨turn, hmem, rfl⟩ := List.mem_map.mp hturn
    refine turnBlock_plain fun entry hentry => hplain entry.1 (mem_of_turns ?_)
    rw [← List.flatten_splitBy bothTools (turns messages)]
    exact List.mem_flatten_of_mem hmem hentry

/-- No block ends in the generation prompt. -/
theorem generationPrompt_free (options : ChatTemplateOptions) : Free [imEnd] (generationPrompt options) := by
  unfold generationPrompt
  split
  · split
    · decide
    · decide
  · decide

theorem Block.text_inj {block block' : Block} (hline : '\n' ∉ block.role) (hline' : '\n' ∉ block'.role)
    (h : block.text = block'.text) : block = block' := by
  have hhead : ∀ word ∈ [['\n']], word.head? = some '\n' := by decide
  have hfree {role : Text} (hrole : '\n' ∉ role) : Free [['\n']] role := Free.of_not_mem hhead hrole
  have hbreak : Distinct '\n' [['\n']] := by decide
  obtain ⟨hrole, hbody⟩ := closed_inj hbreak (hfree hline) (hfree hline') h
  cases block
  cases block'
  exact congr (congrArg Block.mk hrole) hbody

/-- Blocks are read back in one way. -/
theorem Parses.unique {output tail tail' : Text} {blocks blocks' : List Block} (h : Parses output blocks tail)
    (h' : Parses output blocks' tail') : blocks = blocks' ∧ tail = tail' := by
  have hclose : Distinct '<' [imEnd ++ ['\n']] := by decide
  -- the closing word is longer than the marker
  have hclosing {text : Text} (hfree : Free [imEnd] text) : Free [imEnd ++ ['\n']] text := by
    intro word hword hfound
    rw [List.mem_singleton.mp hword] at hfound
    exact hfree imEnd (List.mem_singleton.mpr rfl) ((List.prefix_append imEnd ['\n']).isInfix.trans hfound)
  have htext {blocks : List Block}
      (hplain : ∀ block ∈ blocks, '\n' ∉ block.role ∧ Free markers block.role ∧ Free markers block.body) :
      ∀ text ∈ blocks.map Block.text, Free [imEnd ++ ['\n']] text := by
    intro text hmem
    obtain ⟨block, hblock, rfl⟩ := List.mem_map.mp hmem
    obtain ⟨-, hrole, hbody⟩ := hplain block hblock
    refine hclosing fun word hword => free_newline hrole hbody word ?_
    rw [List.mem_singleton.mp hword]
    decide
  obtain ⟨htexts, rfl⟩ := document_inj hclose (htext h.plain) (htext h'.plain) (hclosing h.tail) (hclosing h'.tail)
    (h.printed.symm.trans h'.printed)
  refine ⟨?_, rfl⟩
  have hlength : blocks.length = blocks'.length := by simpa using congrArg List.length htexts
  refine List.ext_getElem hlength fun i hi hi' => ?_
  refine Block.text_inj (h.plain _ (List.getElem_mem hi)).1 (h'.plain _ (List.getElem_mem hi')).1 ?_
  have hget := congrArg (·[i]?) htexts
  simpa [hi, hi'] using hget

/-- **Rendering is unambiguous.** A chat is rendered exactly when it has messages, one of a user among them, and no
system message but in front. What is rendered reads back as the blocks that are expected and the generation prompt, and
as nothing else, when no text of a message has a marker in it. -/
theorem render_unambiguous (messages : List ChatMessage) (options : ChatTemplateOptions) :
    ((∃ output, renderQwenTextChat messages options = .ok output) ↔
      messages ≠ [] ∧ (∃ message ∈ messages, message.role = .user) ∧
        ∀ i message, messages[i]? = some message → message.role = .system → i = 0) ∧
    ∀ output, renderQwenTextChat messages options = .ok output → (∀ message ∈ messages, message.Plain) →
      ∀ blocks tail, Parses output blocks tail ↔
        blocks = expectedBlocks messages options ∧ tail = generationPrompt options := by
  constructor
  · constructor
    · rintro ⟨output, houtput⟩
      obtain ⟨hnonempty, huser, hsystem⟩ := renderable_of_ok houtput
      exact ⟨hnonempty, huser, hsystem⟩
    · rintro ⟨hnonempty, huser, hsystem⟩
      exact ⟨_, Renderable.ok ⟨hnonempty, huser, hsystem⟩ options⟩
  · intro output houtput hplain blocks tail
    rw [(renderable_of_ok houtput).ok options] at houtput
    have hparses : Parses output (expectedBlocks messages options) (generationPrompt options) :=
      ⟨(Except.ok.inj houtput).symm, expectedBlocks_plain hplain options, generationPrompt_free options⟩
    constructor
    · exact fun h => h.unique hparses
    · rintro ⟨rfl, rfl⟩
      exact hparses

/-- A chat with reasoning and a run of two tool answers. -/
def toolChat : List ChatMessage :=
  [⟨.system, "brief".toList, none⟩, ⟨.user, "weather?".toList, none⟩, ⟨.assistant, "asked".toList, some "ask".toList⟩,
    ⟨.tool, "sun".toList, none⟩, ⟨.tool, "rain".toList, none⟩]

example : (∀ message ∈ toolChat, message.Plain) ∧
    (expectedBlocks toolChat {}).map Block.role = ["system", "user", "assistant", "user"].map String.toList := by
  have hfree : ∀ message ∈ toolChat, '<' ∉ message.content ∧ ∀ text ∈ message.reasoningContent, '<' ∉ text := by
    decide
  exact ⟨fun message hmem => ⟨.of_not_mem markers_head (hfree message hmem).1,
    fun text htext => .of_not_mem markers_head ((hfree message hmem).2 text htext)⟩, by decide +kernel⟩

end Spark.OpenAi
