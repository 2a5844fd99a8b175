import Spark.Server.ToolStream

/-!
# The blocks of an Anthropic stream

What the actions of an update come to as events: whether a block can be opened where one is to be, and
whether starts, deltas and stops follow each other as a client expects.

* **`lifecycle`** — the client's side: what may follow what.
* **`Tells`** — actions that find their blocks and keep to the lifecycle.
* **`streamUpdate_tells`** — every update does.
-/

namespace Spark.Server

/-! ## The client's side -/

inductive WireState where
  | begin
  /-- No block is open, and the next one has this index. -/
  | idle (next : Nat)
  | inside (index : Nat)
  | finishing
  | finished
  deriving DecidableEq, Repr

def lifecycle : WireState → AnthropicEvent → Option WireState
  | .begin, .messageStart => some (.idle 0)
  | .idle next, .contentBlockStart index _ _ => if index = next then some (.inside index) else none
  | .inside open_, .contentBlockDelta index _ => if index = open_ then some (.inside open_) else none
  | .inside open_, .contentBlockStop index => if index = open_ then some (.idle (index + 1)) else none
  | .idle _, .messageDelta => some .finishing
  | .finishing, .messageStop => some .finished
  | _, _ => none

/-- Where a client is after some events; none where one of them was not to come. -/
def follow (state : WireState) (events : List AnthropicEvent) : Option WireState :=
  events.foldlM lifecycle state

theorem follow_append {a b c : WireState} {front back : List AnthropicEvent} (hfront : follow a front = some b)
    (hback : follow b back = some c) : follow a (front ++ back) = some c := by
  rw [follow, List.foldlM_append]
  rw [follow] at hfront
  rw [hfront]
  exact hback

/-! ## Text -/

def AnthropicEvent.said (channel : Channel) : AnthropicEvent → List UInt8
  | .contentBlockDelta _ (.thinking text) => if channel = .reasoning then text else []
  | .contentBlockDelta _ (.text text) => if channel = .content then text else []
  | _ => []

def Action.said (channel : Channel) : Action → List UInt8
  | .delta sent _ text => if channel = sent then text else []
  | _ => []

/-- All that is said in a channel. -/
def saidBy {ε : Type} (said : ε → List UInt8) (out : List ε) : List UInt8 := out.flatMap said

@[simp] theorem saidBy_nil {ε : Type} (said : ε → List UInt8) : saidBy said [] = [] := rfl

@[simp] theorem saidBy_append {ε : Type} (said : ε → List UInt8) (a b : List ε) :
    saidBy said (a ++ b) = saidBy said a ++ saidBy said b := by
  rw [saidBy, saidBy, saidBy, List.flatMap_append]

/-! ## Actions that find their blocks -/

def AnthropicBlocks.state (blocks : AnthropicBlocks) : WireState :=
  if blocks.openBlock.isSome then .inside blocks.nextIndex else .idle blocks.nextIndex

/-- The actions open every block they need, the events keep to the lifecycle, and they say the same. -/
structure Tells (blocks : AnthropicBlocks) (actions : List Action) (after : AnthropicBlocks) : Prop where
  opened : (anthropicActions blocks actions).2 = some after
  kept : follow blocks.state (anthropicActions blocks actions).1 = some after.state
  same : ∀ channel, saidBy (AnthropicEvent.said channel) (anthropicActions blocks actions).1 =
    saidBy (Action.said channel) actions

variable {blocks middle after : AnthropicBlocks} {actions later : List Action}

theorem Tells.nil (blocks : AnthropicBlocks) : Tells blocks [] blocks := ⟨rfl, rfl, fun _ => rfl⟩

theorem anthropicActions_append (blocks : AnthropicBlocks) (actions later : List Action) :
    anthropicActions blocks (actions ++ later) =
      (anthropicActions blocks actions).andThen (anthropicActions · later) := by
  induction actions generalizing blocks with
  | nil => rfl
  | cons action actions ih =>
    rw [List.cons_append, anthropicActions, anthropicActions]
    cases hfirst : (anthropicAction blocks action).2 with
    | none => simp only [Sent.andThen, hfirst]
    | some next =>
      simp only [Sent.andThen, hfirst, ih next]
      cases hrest : (anthropicActions next actions).2 with
      | none => simp only [hrest]
      | some last => simp only [List.append_assoc]

theorem Tells.append (h : Tells blocks actions middle) (hlater : Tells middle later after) :
    Tells blocks (actions ++ later) after := by
  have hall : anthropicActions blocks (actions ++ later) =
      ((anthropicActions blocks actions).1 ++ (anthropicActions middle later).1,
        (anthropicActions middle later).2) := by
    rw [anthropicActions_append, Sent.andThen, h.opened]
  refine ⟨?_, ?_, fun channel => ?_⟩
  · rw [hall]
    exact hlater.opened
  · rw [hall]
    exact follow_append h.kept hlater.kept
  · rw [hall, saidBy_append, saidBy_append, h.same, hlater.same]

/-- One action tells what its own events do. -/
theorem Tells.of_action {action : Action} (events : List AnthropicEvent)
    (hsent : anthropicAction blocks action = (events, some after))
    (hkept : follow blocks.state events = some after.state)
    (hsame : ∀ channel, saidBy (AnthropicEvent.said channel) events = action.said channel) :
    Tells blocks [action] after := by
  have hall : anthropicActions blocks [action] = (events, some after) := by
    rw [anthropicActions, hsent]
    simp [Sent.andThen, anthropicActions]
  refine ⟨by rw [hall], by rw [hall]; exact hkept, fun channel => ?_⟩
  rw [hall, hsame]
  simp [saidBy]

theorem follow_start (index : Nat) (type : BlockType) (name : List UInt8) :
    follow (.idle index) [.contentBlockStart index type name] = some (.inside index) := by
  simp [follow, lifecycle]

theorem follow_delta (index : Nat) (delta : AnthropicDelta) :
    follow (.inside index) [.contentBlockDelta index delta] = some (.inside index) := by
  simp [follow, lifecycle]

theorem follow_stop (index : Nat) :
    follow (.inside index) [.contentBlockStop index] = some (.idle (index + 1)) := by
  simp [follow, lifecycle]

/-- The block the text of a channel goes to, and the delta that carries it. -/
def Channel.block : Channel → BlockType
  | .reasoning => .thinking
  | .content => .text

def Channel.delta : Channel → List UInt8 → AnthropicDelta
  | .reasoning, text => .thinking text
  | .content, text => .text text

theorem anthropicAction_delta (blocks : AnthropicBlocks) (channel : Channel) (pos : Nat) (text : List UInt8) :
    anthropicAction blocks (.delta channel pos text) =
      (anthropicSseOpenBlock blocks channel.block []).andThen
        (anthropicSseDeltaLive · (channel.delta text) text.length) := by
  cases channel
  · rfl
  · rfl

theorem said_delta (channel said : Channel) (index pos : Nat) (text : List UInt8) :
    (AnthropicEvent.contentBlockDelta index (channel.delta text)).said said =
      (Action.delta channel pos text).said said := by
  cases channel
  · rfl
  · rfl

theorem deltaLive_kept (type : BlockType) (index : Nat) (channel : Channel) (pos : Nat) (text : List UInt8) :
    (anthropicSseDeltaLive ⟨some type, index⟩ (channel.delta text) text.length).2 = some ⟨some type, index⟩ ∧
      follow (.inside index) (anthropicSseDeltaLive ⟨some type, index⟩ (channel.delta text) text.length).1 =
        some (.inside index) ∧
      ∀ said, saidBy (AnthropicEvent.said said)
        (anthropicSseDeltaLive ⟨some type, index⟩ (channel.delta text) text.length).1 =
          (Action.delta channel pos text).said said := by
  cases text with
  | nil => exact ⟨rfl, rfl, fun said => by simp [anthropicSseDeltaLive, Action.said]⟩
  | cons b text =>
    refine ⟨rfl, follow_delta index _, fun said => ?_⟩
    rw [← said_delta channel said index pos]
    simp [anthropicSseDeltaLive, saidBy]

/-- Text goes to the block of its channel, which is opened where none is. -/
theorem tells_delta {channel : Channel} {open_ : Option BlockType} (index : Nat)
    (hopen : open_ = none ∨ open_ = some channel.block) (pos : Nat) (text : List UInt8) :
    Tells ⟨open_, index⟩ [.delta channel pos text] ⟨some channel.block, index⟩ := by
  obtain ⟨hopened, hkept, hsame⟩ := deltaLive_kept channel.block index channel pos text
  rcases hopen with rfl | rfl
  · refine Tells.of_action (.contentBlockStart index channel.block [] ::
      (anthropicSseDeltaLive ⟨some channel.block, index⟩ (channel.delta text) text.length).1) ?_ ?_ ?_
    · rw [anthropicAction_delta, ← hopened]
      rfl
    · exact follow_append (follow_start index channel.block []) hkept
    · exact hsame
  · refine Tells.of_action _ ?_ hkept hsame
    rw [anthropicAction_delta, ← hopened, anthropicSseOpenBlock, if_pos rfl]
    rfl

/-- The blocks once none is open. -/
def AnthropicBlocks.closed (blocks : AnthropicBlocks) : AnthropicBlocks :=
  ⟨none, if blocks.openBlock.isSome then blocks.nextIndex + 1 else blocks.nextIndex⟩

theorem follow_close (blocks : AnthropicBlocks) :
    (anthropicSseCloseBlockLive blocks).2 = some blocks.closed ∧
      follow blocks.state (anthropicSseCloseBlockLive blocks).1 = some blocks.closed.state ∧
      ∀ channel, saidBy (AnthropicEvent.said channel) (anthropicSseCloseBlockLive blocks).1 = [] := by
  obtain ⟨open_, index⟩ := blocks
  cases open_ with
  | none => exact ⟨rfl, rfl, fun _ => rfl⟩
  | some type =>
    refine ⟨rfl, ?_, fun channel => ?_⟩
    · show follow (.inside index) ((if type = .thinking then _ else []) ++ _) = _
      split
      · exact follow_append (follow_delta index .signature) (follow_stop index)
      · exact follow_stop index
    · show saidBy _ ((if type = .thinking then _ else []) ++ _) = _
      split
      · rfl
      · rfl

theorem tells_closeBlock (blocks : AnthropicBlocks) : Tells blocks [.closeBlock] blocks.closed := by
  obtain ⟨hopened, hkept, hsame⟩ := follow_close blocks
  exact Tells.of_action _ (Prod.ext rfl hopened) hkept hsame

theorem tells_toolEnd (blocks : AnthropicBlocks) (index reach : Nat) :
    Tells blocks [.toolEnd index reach] blocks.closed := by
  obtain ⟨hopened, hkept, hsame⟩ := follow_close blocks
  exact Tells.of_action _ (Prod.ext rfl hopened) hkept hsame

theorem tells_toolStart (next index : Nat) (name : List UInt8) (reach : Nat) :
    Tells ⟨none, next⟩ [.toolStart index name reach] ⟨some .tool, next⟩ :=
  Tells.of_action _ rfl (follow_start next .tool name) fun _ => rfl

theorem tells_toolArgs (next index : Nat) (fragment : List UInt8) (reach : Nat) :
    Tells ⟨some .tool, next⟩ [.toolArgs index fragment reach] ⟨some .tool, next⟩ := by
  cases fragment with
  | nil => exact Tells.of_action _ rfl rfl fun _ => rfl
  | cons b fragment => exact Tells.of_action _ rfl (follow_delta next _) fun _ => rfl

/-! ## The tool block -/

/-- The block a tool stream has open. -/
def ToolStream.openBlock (ts : ToolStream) : Option BlockType := if ts.argsOpen then some .tool else none

/-- Arguments are open inside a call and nowhere else. -/
def ToolStream.Tidy (ts : ToolStream) : Prop :=
  ts.active = true →
    (ts.state = .betweenInvokes ∧ ts.argsOpen = false) ∨
      ((ts.state = .betweenParams ∨ ts.state = .paramValue) ∧ ts.argsOpen = true)

variable {ts : ToolStream} {syn : DsmlSyntax} {text : List UInt8}

theorem tells_emitValue (next : Nat) (ts : ToolStream) (text : List UInt8) (limit : Nat) :
    Tells ⟨some .tool, next⟩ (ts.emitValue text limit) ⟨some .tool, next⟩ := by
  rw [ToolStream.emitValue]
  split
  · exact tells_toolArgs next _ _ _
  · exact Tells.nil _

/-- One turn of the loop tells what it does and leaves the arguments open where the block is. -/
structure TurnTells (ts : ToolStream) (next : Nat) (turn : ToolStream × List Action) : Prop where
  told : ∃ next', Tells ⟨ts.openBlock, next⟩ turn.2 ⟨turn.1.openBlock, next'⟩
  tidy : turn.1.Tidy

theorem TurnTells.quiet {ts' : ToolStream} (next : Nat) (hopen : ts'.argsOpen = ts.argsOpen)
    (htidy : ts'.Tidy) : TurnTells ts next (ts', []) := by
  refine ⟨⟨next, ?_⟩, htidy⟩
  rw [ToolStream.openBlock, ToolStream.openBlock, hopen]
  exact Tells.nil _

theorem tidy_fail (ts : ToolStream) : ts.fail.Tidy := nofun

theorem toolStartInvoke_tells (ts : ToolStream) (text : List UInt8) (next : Nat) (hstate : ts.state = .betweenInvokes)
    (hopen : ts.argsOpen = false) : TurnTells ts next (toolStartInvoke ts text) := by
  unfold toolStartInvoke
  split
  · exact .quiet next rfl fun _ => .inl ⟨hstate, hopen⟩
  split
  · exact .quiet next rfl (tidy_fail _)
  · refine ⟨⟨next, ?_⟩, fun _ => .inr ⟨.inl rfl, rfl⟩⟩
    rw [ToolStream.openBlock, ToolStream.openBlock, hopen]
    exact (tells_toolStart next _ _ _).append (tells_toolArgs next _ _ _)

theorem toolStartParam_tells (ts : ToolStream) (text : List UInt8) (next : Nat) (hstate : ts.state = .betweenParams)
    (hopen : ts.argsOpen = true) : TurnTells ts next (toolStartParam ts text) := by
  unfold toolStartParam
  split
  · exact .quiet next rfl fun _ => .inr ⟨.inl hstate, hopen⟩
  split
  · refine ⟨⟨next, ?_⟩, fun _ => .inr ⟨.inr rfl, hopen⟩⟩
    simp only [ToolStream.openBlock, hopen, if_true]
    exact tells_toolArgs next _ _ _
  · exact .quiet next rfl (tidy_fail _)

/-- White space in front changes nothing of this. -/
theorem TurnTells.of_skipWs {next : Nat} {turn : ToolStream × List Action}
    (h : TurnTells (ts.skipWs text) next turn) : TurnTells ts next turn :=
  ⟨h.told, h.tidy⟩

theorem toolBetweenInvokes_tells (next : Nat) (hstate : ts.state = .betweenInvokes)
    (hopen : ts.argsOpen = false) : TurnTells ts next (toolBetweenInvokes syn ts text).1 := by
  have htidy : (ts.skipWs text).Tidy := fun _ => .inl ⟨hstate, hopen⟩
  unfold toolBetweenInvokes
  simp only
  split
  · exact .quiet next rfl htidy
  split
  · exact .quiet next rfl nofun
  split
  · exact .quiet next rfl htidy
  split
  · exact (toolStartInvoke_tells (ts.skipWs text) text next hstate hopen).of_skipWs
  · exact .quiet next rfl (tidy_fail _)

theorem toolBetweenParams_tells (next : Nat) (hstate : ts.state = .betweenParams)
    (hopen : ts.argsOpen = true) : TurnTells ts next (toolBetweenParams syn ts text).1 := by
  have htidy : (ts.skipWs text).Tidy := fun _ => .inr ⟨.inl hstate, hopen⟩
  unfold toolBetweenParams
  simp only
  split
  · exact .quiet next rfl htidy
  split
  · refine ⟨⟨next + 1, ?_⟩, fun _ => .inl ⟨rfl, rfl⟩⟩
    simp only [ToolStream.openBlock, show (ts.skipWs text).argsOpen = true from hopen, hopen, if_true]
    exact (tells_toolArgs next _ _ _).append (tells_toolEnd _ _ _)
  split
  · exact .quiet next rfl htidy
  split
  · exact (toolStartParam_tells (ts.skipWs text) text next hstate hopen).of_skipWs
  · exact .quiet next rfl (tidy_fail _)

theorem toolParamValue_tells (next : Nat) (hstate : ts.state = .paramValue) (hopen : ts.argsOpen = true) :
    TurnTells ts next (toolParamValue syn ts text).1 := by
  unfold toolParamValue
  split
  · refine ⟨⟨next, ?_⟩, fun _ => .inr ⟨.inl rfl, hopen⟩⟩
    rw [ToolStream.openBlock, ToolStream.openBlock, toolFinishParam]
    simp only [hopen, if_true]
    refine (tells_emitValue next _ _ _).append ?_
    split
    · exact tells_toolArgs next _ _ _
    · exact Tells.nil _
  · refine ⟨⟨next, ?_⟩, fun _ => .inr ⟨.inr hstate, hopen⟩⟩
    rw [ToolStream.openBlock, ToolStream.openBlock]
    simp only [hopen, if_true]
    exact tells_emitValue next _ _ _

theorem toolTurn_tells (text : List UInt8) (next : Nat) (hactive : ts.active = true) (htidy : ts.Tidy) :
    TurnTells ts next (toolTurn ts text).1 := by
  unfold toolTurn
  cases htidy hactive with
  | inl houtside =>
    split
    case h_1 => exact toolBetweenInvokes_tells next houtside.1 houtside.2
    case h_2 _ _ hstate => exact absurd (houtside.1.symm.trans hstate) nofun
    case h_3 _ _ hstate => exact absurd (houtside.1.symm.trans hstate) nofun
    case h_4 => exact .quiet next rfl htidy
  | inr hinside =>
    split
    case h_1 _ _ hstate =>
      rcases hinside.1 with h | h
      · exact absurd (h.symm.trans hstate) nofun
      · exact absurd (h.symm.trans hstate) nofun
    case h_2 _ _ hstate => exact toolBetweenParams_tells next hstate hinside.2
    case h_3 _ _ hstate => exact toolParamValue_tells next hstate hinside.2
    case h_4 => exact .quiet next rfl htidy

theorem toolLoop_tells (text : List UInt8) (fuel : Nat) (next : Nat) (htidy : ts.Tidy) :
    TurnTells ts next (toolLoop fuel ts text) := by
  induction fuel generalizing ts next with
  | zero => exact .quiet next rfl htidy
  | succ fuel ih =>
    rw [toolLoop]
    split
    case isFalse => exact .quiet next rfl htidy
    case isTrue hgo =>
      have hturn := toolTurn_tells text next hgo.1 htidy
      simp only
      split
      case isFalse => exact hturn
      case isTrue =>
        obtain ⟨next', htold⟩ := hturn.told
        obtain ⟨⟨last, hrest⟩, hlast⟩ := ih next' hturn.tidy
        exact ⟨⟨last, htold.append hrest⟩, hlast⟩

/-! ## The reply -/

/-- The block that can be open, by what the stream is at. -/
def Fits (st : ReplyStream) (open_ : Option BlockType) : Prop :=
  match st.mode with
  | .thinking => (open_ = none ∨ open_ = some .thinking) ∧ st.tool = ToolStream.zero
  | .text =>
    (open_ = none ∨ (open_ = some .text ∧ st.guardSecondReasoning = false)) ∧ st.tool = ToolStream.zero
  | .tool => open_ = st.tool.openBlock ∧ st.tool.Tidy
  | .suppress => open_ = st.tool.openBlock

/-- Part of an update tells what it does, and the block that is open then fits. -/
structure PartTells (open_ : Option BlockType) (next : Nat) (done : ReplyStream × List Action) :
    Prop where
  told : ∃ after : AnthropicBlocks, Tells ⟨open_, next⟩ done.2 after ∧ Fits done.1 after.openBlock

variable {st : ReplyStream} {raw : List UInt8} {open_ : Option BlockType}

/-- Sending leaves nothing open that its channel does not own. -/
theorem send_tells (st : ReplyStream) (channel : Channel) (raw : List UInt8) (next limit : Nat)
    (hopen : open_ = none ∨ open_ = some channel.block) :
    ∃ open_' : Option BlockType, (open_' = none ∨ open_' = some channel.block) ∧
      Tells ⟨open_, next⟩ (st.send channel raw limit).2 ⟨open_', next⟩ := by
  unfold ReplyStream.send
  split
  · exact ⟨_, .inr rfl, tells_delta next hopen _ _⟩
  · exact ⟨_, hopen, Tells.nil _⟩

/-- A part that sends and then closes its block leaves none open. -/
theorem send_closed_tells {channel : Channel} (next limit : Nat) {st' : ReplyStream}
    (hopen : open_ = none ∨ open_ = some channel.block) (hfits : Fits st' none) :
    PartTells open_ next (st', (st.send channel raw limit).2 ++ [.closeBlock]) := by
  obtain ⟨open_', -, htells⟩ := send_tells st channel raw next limit hopen
  exact ⟨_, htells.append (tells_closeBlock _), hfits⟩

theorem openBlock_zero : ToolStream.zero.openBlock = none := rfl

/-- Behind the content, all that can be open is the block of the call that is being read. -/
theorem fits_behind {reads : Bool} (hmode : st.mode = if reads then .tool else .suppress)
    (hopen : open_ = st.tool.openBlock) (htidy : st.tool.Tidy) : Fits st open_ := by
  cases reads with
  | true =>
    rw [Fits, show st.mode = .tool from hmode]
    exact ⟨hopen, htidy⟩
  | false =>
    rw [Fits, show st.mode = .suppress from hmode]
    exact hopen

theorem thinkingUpdate_tells (hasTools : Bool) (rawLen : Nat) (final : Bool) (next : Nat)
    (hmode : st.mode = .thinking) (hfits : Fits st open_) :
    PartTells open_ next (thinkingUpdate hasTools st raw rawLen final) := by
  rw [Fits, hmode] at hfits
  obtain ⟨hopen, hzero⟩ := hfits
  have hsend : ∀ limit, PartTells open_ next (st.send .reasoning raw limit) := by
    intro limit
    obtain ⟨htool, hmode', -⟩ := send_frame st .reasoning raw limit
    obtain ⟨open_', hopen', htells⟩ :=
      send_tells st .reasoning raw next limit hopen
    refine ⟨_, htells, ?_⟩
    rw [Fits, hmode', hmode]
    exact ⟨hopen', htool.trans hzero⟩
  unfold thinkingUpdate
  split
  · simp only
    split
    · refine send_closed_tells next _ hopen ?_
      show none = (st.send _ _ _).1.tool.openBlock
      rw [(send_frame st _ raw _).1, hzero, openBlock_zero]
    · exact hsend _
  · exact send_closed_tells next _ hopen ⟨.inl rfl, (send_frame st _ raw _).1.trans hzero⟩
  · split
    · refine send_closed_tells next _ hopen ?_
      show none = (st.send _ _ _).1.tool.openBlock
      rw [(send_frame st _ raw _).1, hzero, openBlock_zero]
    · exact hsend _

theorem guardUpdate_tells (raw : List UInt8) (hasTools final : Bool) (next : Nat) (hmode : st.mode = .text)
    (hfits : Fits st open_) : PartTells open_ next (guardUpdate hasTools st raw final).1 := by
  have hquiet : PartTells open_ next (st, []) := ⟨_, Tells.nil _, hfits⟩
  rw [Fits, hmode] at hfits
  unfold guardUpdate
  split
  case isFalse hguard => exact hquiet
  case isTrue hguard =>
    have hopen : open_ = none := by
      rcases hfits.1 with h | h
      · exact h
      · exact absurd (hguard.symm.trans h.2) nofun
    subst hopen
    have hoff : PartTells none next ({ st with guardSecondReasoning := false }, []) := by
      refine ⟨_, Tells.nil _, ?_⟩
      simp only [Fits, hmode]
      exact ⟨.inl trivial, hfits.2⟩
    split
    · refine send_closed_tells next _ (.inl rfl) ?_
      have hframe := send_frame st .reasoning raw
      simp only [Fits, (hframe _).2.1, hmode]
      exact ⟨.inl trivial, (hframe _).1.trans hfits.2⟩
    · exact hoff
    · split
      · exact hoff
      · exact hquiet

theorem init_tidy (text : List UInt8) (pos : Nat) :
    (ToolStream.init text pos).Tidy ∧ (ToolStream.init text pos).openBlock = none := by
  unfold ToolStream.init
  split
  · exact ⟨fun _ => .inl ⟨rfl, rfl⟩, rfl⟩
  · exact ⟨nofun, rfl⟩

theorem contentUpdate_tells (t : Translator) (raw : List UInt8) (rawLen : Nat) (final : Bool) (next : Nat)
    (hmode : st.mode = .text) (hguard : st.guardSecondReasoning = false) (hfits : Fits st open_) :
    PartTells open_ next (contentUpdate t st raw rawLen final) := by
  simp only [Fits, hmode, hguard, and_true] at hfits
  obtain ⟨hopen, hzero⟩ := hfits
  have hframe := send_frame st .content raw
  unfold contentUpdate
  simp only
  split
  · refine send_closed_tells next _ hopen (fits_behind rfl ?_ ?_)
    · show none = ToolStream.openBlock (if _ then _ else _)
      split
      · exact (init_tidy _ _).2.symm
      · rw [hzero, openBlock_zero]
    · show ToolStream.Tidy (if _ then _ else _)
      split
      · exact (init_tidy _ _).1
      · rw [hzero]
        exact nofun
  · split
    · refine send_closed_tells next _ hopen ?_
      show none = (st.send _ _ _).1.tool.openBlock
      rw [(hframe _).1, hzero, openBlock_zero]
    · obtain ⟨open_', hopen', htells⟩ := send_tells st .content raw next
        (textStreamSafeLimit raw st.emitPos rawLen t.hasTools final) hopen
      refine ⟨_, htells, ?_⟩
      simp only [Fits, (hframe _).2.1, hmode, (hframe _).2.2, hguard, and_true]
      exact ⟨hopen', (hframe _).1.trans hzero⟩

theorem textUpdate_tells (t : Translator) (rawLen : Nat) (final : Bool) (next : Nat)
    (hmode : st.mode = .text) (hfits : Fits st open_) :
    PartTells open_ next (textUpdate t st raw rawLen final) := by
  obtain ⟨middle, htells, hfits'⟩ := guardUpdate_tells raw t.hasTools final next hmode hfits
  obtain ⟨hmode', hguard⟩ := guardUpdate_mode t.hasTools raw final hmode
  unfold textUpdate
  simp only
  split
  case isTrue hgo =>
    obtain ⟨after, htells', hfits''⟩ :=
      contentUpdate_tells t raw rawLen final middle.nextIndex hmode' (hguard hgo) hfits'
    exact ⟨after, htells.append htells', hfits''⟩
  case isFalse => exact ⟨middle, htells, hfits'⟩

theorem toolUpdate_tells (rawLen : Nat) (next : Nat) (hmode : st.mode = .tool) (hfits : Fits st open_) :
    PartTells open_ next (toolUpdate st raw rawLen) := by
  simp only [Fits, hmode] at hfits
  obtain ⟨rfl, htidy⟩ := hfits
  have hloop := toolLoop_tells (raw.take rawLen) ((raw.take rawLen).length + 1) next htidy
  obtain ⟨next', htold⟩ := hloop.told
  exact ⟨_, htold, fits_behind rfl rfl hloop.tidy⟩

theorem andIn_tells {mode : StreamMode} {part : ReplyStream → ReplyStream × List Action} {next : Nat}
    {done : ReplyStream × List Action} (hdone : PartTells open_ next done)
    (hpart : ∀ st open_ next, st.mode = mode → Fits st open_ → PartTells open_ next (part st)) :
    PartTells open_ next (andIn mode part done) := by
  unfold andIn
  split
  case isTrue hmode =>
    obtain ⟨middle, htells, hfits⟩ := hdone.told
    obtain ⟨after, htells', hfits'⟩ := (hpart done.1 middle.openBlock middle.nextIndex hmode hfits).told
    exact ⟨after, htells.append htells', hfits'⟩
  case isFalse => exact hdone

/-- Every update opens the blocks it needs and keeps to the lifecycle. -/
theorem streamUpdate_tells (t : Translator) (raw : List UInt8) (rawLen : Nat) (final : Bool) (next : Nat)
    (hfits : Fits st open_) : PartTells open_ next (streamUpdate t st raw rawLen final) := by
  unfold streamUpdate
  split
  · exact ⟨_, Tells.nil _, hfits⟩
  · refine andIn_tells (andIn_tells (andIn_tells ⟨_, Tells.nil _, hfits⟩ ?_) ?_) ?_
    · intro st open_ next hmode hfits
      unfold readThinking
      split
      · exact ⟨_, Tells.nil _, hfits⟩
      case h_2 st' hcheck =>
        obtain ⟨hmode', htool, -⟩ := checkThinkPrefix_frame hcheck
        refine thinkingUpdate_tells t.hasTools rawLen final next (hmode'.trans hmode) ?_
        simp only [Fits, hmode', hmode, htool] at hfits ⊢
        exact hfits
    · exact fun st open_ next hmode hfits => textUpdate_tells t rawLen final next hmode hfits
    · exact fun st open_ next hmode hfits => toolUpdate_tells rawLen next hmode hfits

end Spark.Server
