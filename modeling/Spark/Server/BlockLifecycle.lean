import Spark.Server.ReplyText
import Spark.Server.ToolBlock

/-!
# When an Anthropic stream is balanced

The events of a whole Anthropic reply, from `message_start` to the end. Updates keep to the lifecycle by
themselves; what may be missing is the stop of the block that is open when the last update is over.

* **`CallsEnd`** — every call that is begun in a tool block is ended, as far as the stream reads it.
* **`toolTurn_closes`** — reading a part of the block changes nothing of that.
* **`balanced_iff`** — a reply is balanced unless it ends in a call, or in reasoning with a marker in it.
-/

namespace Spark.Server

open Spark.Search

/-! ## A reply as events -/

/-- The state an Anthropic stream is in before the last update. -/
def streamBefore (thinkEnabled hasTools : Bool) (updates : List Update) : ReplyStream :=
  (grow (fun st raw rawLen => streamUpdate (anthropicTranslator hasTools) st raw rawLen false) [] updates
    (ReplyStream.start thinkEnabled hasTools)).1

/-- All events of a reply: `message_start`, what the updates send and what `anthropic_sse_finish_live`
sends. -/
def anthropicEvents (thinkEnabled hasTools : Bool) (text : List UInt8) (updates : List Update)
    (calls : List ToolCall) : List AnthropicEvent :=
  let grown := grow (anthropicStep hasTools false) [] updates (anthropicStart thinkEnabled hasTools)
  .messageStart :: grown.2 ++
    match grown.1.2 with
    | none => []
    | some blocks => (anthropicSseFinishLive hasTools grown.1.1 blocks text calls).1

/-- Starts count up from nought, a block is stopped before the next one starts and before the message
ends, and the message ends once. -/
def Balanced (events : List AnthropicEvent) : Prop := follow .begin events = some .finished

instance (events : List AnthropicEvent) : Decidable (Balanced events) := inferInstanceAs (Decidable (_ = _))

/-! ## Calls that end -/

/-- The tag behind white space that opens with `start`, and what follows it. -/
def openedTag (start s : List UInt8) : Option (List UInt8 × List UInt8) :=
  if start.isPrefixOf (skipAsciiWs s) then dsmlTag (skipAsciiWs s) else none

/-- Every call that is begun has an end; the flag says that one is begun already. -/
inductive CallsEnd (syn : DsmlSyntax) : Bool → List UInt8 → Prop where
  /-- No call with a name is begun. -/
  | none {s} (hnone : ∀ opened, openedTag syn.invokeStart s = some opened →
      dsmlAttr opened.1 (bytes "name") = Option.none) : CallsEnd syn false s
  | call {s opened} (hopened : openedTag syn.invokeStart s = some opened)
      (hname : dsmlAttr opened.1 (bytes "name") ≠ Option.none) (h : CallsEnd syn true opened.2) :
      CallsEnd syn false s
  /-- Only a parameter that says whether it is a string is read. -/
  | param {s opened i} (hopened : openedTag syn.paramStart s = some opened)
      (hname : dsmlAttr opened.1 (bytes "name") ≠ Option.none)
      (htype : dsmlAttr opened.1 (bytes "string") ≠ Option.none)
      (hvalue : searchString syn.paramEnd opened.2 = some i)
      (h : CallsEnd syn true (opened.2.drop (i + syn.paramEnd.length))) : CallsEnd syn true s
  | close {s} (hclose : syn.invokeEnd.isPrefixOf (skipAsciiWs s) = true)
      (h : CallsEnd syn false ((skipAsciiWs s).drop syn.invokeEnd.length)) : CallsEnd syn true s

/-- What is left of the text ends every call, by the state its reader is in. -/
def ToolStream.Closes (ts : ToolStream) (text : List UInt8) : Prop :=
  match ts.syn, ts.state with
  | some syn, .betweenInvokes => CallsEnd syn false (text.drop ts.parsePos)
  | some syn, .betweenParams => CallsEnd syn true (text.drop ts.parsePos)
  | some syn, .paramValue =>
    ∃ i, searchString syn.paramEnd (text.drop ts.parsePos) = some i ∧
      CallsEnd syn true (text.drop (ts.parsePos + i + syn.paramEnd.length))
  | _, _ => ts.argsOpen = false

/-- The text behind a state leaves no block open. -/
structure EndsClosed (hasTools : Bool) (text : List UInt8) (st : ReplyStream) : Prop where
  /-- A tool marker in reasoning is one of a whole block, unless no reasoning is sent. -/
  reasoning : st.mode = .thinking → ∀ st', st.checkThinkPrefix text text.length true = some st' →
    ∀ tool, thinkEnd hasTools text st'.emitPos = .tool tool →
      (findAnyToolEnd (text.drop tool)).isSome = true ∨
        (st.sentReasoning = false ∧ trimToolSeparatorWs text st'.emitPos tool ≤ st'.emitPos)
  /-- Every call of the block that is being read has an end. -/
  calls : ∀ syn, st.tool.syn = some syn →
    CallsEnd syn false (text.drop (st.emitPos + syn.toolCallsStart.length))

/-! ## Reading a part of a text -/

variable {syn : DsmlSyntax} {text lit tag rest : List UInt8} {n pos : Nat} {ts : ToolStream}

/-- The rest of a part and what is behind it are the rest of the text. -/
theorem drop_take_append (text : List UInt8) (hpos : pos ≤ n) :
    (text.take n).drop pos ++ text.drop n = text.drop pos := by
  rw [List.drop_take]
  calc (text.drop pos).take (n - pos) ++ text.drop n
      = (text.drop pos).take (n - pos) ++ (text.drop pos).drop (n - pos) := by
        rw [List.drop_drop, Nat.add_sub_cancel' hpos]
    _ = text.drop pos := List.take_append_drop _ _

/-- A literal that is there as a whole is there. -/
theorem isPrefixOf_of_take (hpos : pos ≤ n) (h : rawFullLit (text.take n) pos lit = true) :
    lit.isPrefixOf (text.drop pos) = true := by
  rw [List.isPrefixOf_iff_prefix, ← drop_take_append text hpos]
  exact (rawFullLit_iff.mp h).2.trans (List.prefix_append _ _)

/-- A literal of which not even the front is there is not there. -/
theorem not_isPrefixOf_of_take (hpos : pos ≤ n) (hn : n ≤ text.length)
    (hfull : ¬ rawFullLit (text.take n) pos lit = true)
    (hpart : ¬ rawPartialLit (text.take n) pos lit = true) : lit.isPrefixOf (text.drop pos) = false := by
  have hlength : (text.take n).length = n := by rw [List.length_take, min_eq_left hn]
  rw [Bool.eq_false_iff]
  intro hprefix
  obtain ⟨later, hlater⟩ := List.isPrefixOf_iff_prefix.mp hprefix
  by_cases hlong : lit.length ≤ n - pos
  · refine hfull (rawFullLit_iff.mpr ⟨by omega, ?_⟩)
    rw [List.drop_take, ← hlater, List.prefix_take_iff]
    exact ⟨List.prefix_append _ _, hlong⟩
  · refine hpart ?_
    rw [rawPartialLit, hlength, List.drop_take, ← hlater, List.take_append_of_le_length (by omega)]
    simp only [Bool.and_eq_true, decide_eq_true_iff, List.isPrefixOf_iff_prefix]
    exact ⟨⟨hpos, by omega⟩, List.take_prefix _ _⟩

theorem dsmlTag_append {p : List UInt8} (h : dsmlTag p = some (tag, rest)) (back : List UInt8) :
    dsmlTag (p ++ back) = some (tag, rest ++ back) := by
  obtain ⟨rfl, body, rfl, hbody⟩ := dsmlTag_spec h
  have hne : ∀ b ∈ body, decide (b ≠ 0x3e) = true := fun b hb =>
    decide_eq_true (ne_of_mem_of_not_mem hb hbody)
  have hmem : (0x3e : UInt8) ∈ body ++ [0x3e] ++ rest ++ back := by simp
  rw [dsmlTag, if_pos hmem, List.append_assoc, List.append_assoc, List.takeWhile_append_of_pos hne,
    List.dropWhile_append_of_pos hne]
  simp

/-- A tag that is there as a whole is the tag of the text. -/
theorem dsmlTag_of_take (hpos : pos ≤ n) (h : dsmlTag ((text.take n).drop pos) = some (tag, rest)) :
    dsmlTag (text.drop pos) = some (tag, text.drop (pos + tag.length)) := by
  have hwhole := dsmlTag_append h (text.drop n)
  rw [drop_take_append text hpos] at hwhole
  rw [hwhole, ← List.drop_drop, (dsmlTag_spec hwhole).1, List.drop_left]

/-- White space is skipped no further than the part goes, and from there the rest of it is. -/
theorem skipWs_spec (hpos : ts.parsePos ≤ n) (hn : n ≤ text.length) :
    (ts.skipWs (text.take n)).parsePos ≤ n ∧
      skipAsciiWs (text.drop (ts.skipWs (text.take n)).parsePos) = skipAsciiWs (text.drop ts.parsePos) ∧
      ((ts.skipWs (text.take n)).parsePos < n →
        skipAsciiWs (text.drop ts.parsePos) = text.drop (ts.skipWs (text.take n)).parsePos) := by
  have hlength : (text.take n).length = n := by rw [List.length_take, min_eq_left hn]
  have hle := @skipWs_le ts (text.take n) (by omega)
  rw [hlength] at hle
  have hparse : (ts.skipWs (text.take n)).parsePos =
      ts.parsePos + (((text.take n).drop ts.parsePos).takeWhile isspace).length := rfl
  have hall : ∀ b ∈ ((text.take n).drop ts.parsePos).takeWhile isspace, isspace b = true :=
    fun b hb => List.mem_takeWhile_imp hb
  have hback : ((text.take n).drop ts.parsePos).takeWhile isspace ++
      (((text.take n).drop ts.parsePos).dropWhile isspace ++ text.drop n) = text.drop ts.parsePos := by
    rw [← List.append_assoc, List.takeWhile_append_dropWhile, drop_take_append text hpos]
  have hdrop : text.drop (ts.skipWs (text.take n)).parsePos =
      ((text.take n).drop ts.parsePos).dropWhile isspace ++ text.drop n := by
    rw [hparse, ← List.drop_drop, ← hback, List.drop_left]
  have hskip : skipAsciiWs (text.drop ts.parsePos) =
      skipAsciiWs (((text.take n).drop ts.parsePos).dropWhile isspace ++ text.drop n) := by
    rw [← hback]
    exact List.dropWhile_append_of_pos hall
  refine ⟨hle, by rw [hdrop, hskip], fun hlt => ?_⟩
  rw [hskip, hdrop]
  -- something that is no white space stands in the part
  cases hrest : ((text.take n).drop ts.parsePos).dropWhile isspace with
  | nil =>
    have hsame := congrArg List.length hback
    rw [hrest] at hsame
    simp only [List.length_append, List.length_drop, List.length_nil] at hsame
    omega
  | cons b rest =>
    have hb : isspace b = false := by
      have hhead := List.head?_dropWhile_not isspace ((text.take n).drop ts.parsePos)
      rw [hrest] at hhead
      simpa using hhead
    exact List.dropWhile_cons_of_neg (by simp [hb])

/-! ## Where a call ends -/

variable {s s' : List UInt8} {inCall : Bool}

theorem openedTag_congr (start : List UInt8) (h : skipAsciiWs s = skipAsciiWs s') :
    openedTag start s = openedTag start s' := by
  rw [openedTag, openedTag, h]

/-- White space in front of what is left makes no difference. -/
theorem callsEnd_congr (h : skipAsciiWs s = skipAsciiWs s') : CallsEnd syn inCall s ↔ CallsEnd syn inCall s' := by
  have hmove : ∀ {s s' : List UInt8}, skipAsciiWs s = skipAsciiWs s' → CallsEnd syn inCall s →
      CallsEnd syn inCall s' := by
    intro s s' hsame hends
    cases hends with
    | none hnone => exact .none (openedTag_congr _ hsame ▸ hnone)
    | call hopened hname hrest => exact .call (openedTag_congr _ hsame ▸ hopened) hname hrest
    | param hopened hname htype hvalue hrest =>
      exact .param (openedTag_congr _ hsame ▸ hopened) hname htype hvalue hrest
    | close hclose hrest => exact .close (hsame ▸ hclose) (hsame ▸ hrest)
  exact ⟨hmove h, hmove h.symm⟩

/-- Behind the tag of a call with a name, the call is begun. -/
theorem callsEnd_call {opened : List UInt8 × List UInt8} (hopened : openedTag syn.invokeStart s = some opened)
    (hname : dsmlAttr opened.1 (bytes "name") ≠ none) : CallsEnd syn false s ↔ CallsEnd syn true opened.2 := by
  constructor
  · intro h
    cases h with
    | none hnone => exact absurd (hnone opened hopened) hname
    | call hopened' _ hrest =>
      obtain rfl := Option.some.inj (hopened.symm.trans hopened')
      exact hrest
  · exact .call hopened hname

/-- The end of a call is no parameter. -/
theorem openedTag_of_close (hsyn : syn ∈ dsmlSyntaxes) (hclose : syn.invokeEnd.isPrefixOf (skipAsciiWs s) = true) :
    openedTag syn.paramStart s = none := by
  obtain ⟨rest, hrest⟩ := List.isPrefixOf_iff_prefix.mp hclose
  obtain ⟨-, hopening, hlength⟩ := opening_marker syn hsyn syn.paramStart (by simp)
  have hclosing := closing_marker syn hsyn syn.invokeEnd (by simp)
  rw [openedTag, if_neg]
  intro hopen
  obtain ⟨rest', hrest'⟩ := List.isPrefixOf_iff_prefix.mp hopen
  have hnot := not_closing hopening hlength hclosing rest'
  rw [hrest', hclose] at hnot
  cases hnot

/-- Behind the end of a call, none is begun. -/
theorem callsEnd_close (hsyn : syn ∈ dsmlSyntaxes) (hclose : syn.invokeEnd.isPrefixOf (skipAsciiWs s) = true) :
    CallsEnd syn true s ↔ CallsEnd syn false ((skipAsciiWs s).drop syn.invokeEnd.length) := by
  constructor
  · intro h
    cases h with
    | param hopened =>
      rw [openedTag_of_close hsyn hclose] at hopened
      cases hopened
    | close _ hrest => exact hrest
  · exact .close hclose

/-- Where the end of a call is not, a parameter is. -/
theorem callsEnd_param {opened : List UInt8 × List UInt8}
    (hclose : syn.invokeEnd.isPrefixOf (skipAsciiWs s) = false)
    (hopened : openedTag syn.paramStart s = some opened) :
    CallsEnd syn true s ↔ dsmlAttr opened.1 (bytes "name") ≠ none ∧ dsmlAttr opened.1 (bytes "string") ≠ none ∧
      ∃ i, searchString syn.paramEnd opened.2 = some i ∧
        CallsEnd syn true (opened.2.drop (i + syn.paramEnd.length)) := by
  constructor
  · intro h
    cases h with
    | param hopened' hname htype hvalue hrest =>
      obtain rfl := Option.some.inj (hopened.symm.trans hopened')
      exact ⟨hname, htype, _, hvalue, hrest⟩
    | close hclose' =>
      rw [hclose] at hclose'
      cases hclose'
  · rintro ⟨hname, htype, i, hvalue, hrest⟩
    exact .param hopened hname htype hvalue hrest

/-- Where neither an end nor a whole parameter stands, the call does not end. -/
theorem not_callsEnd (hclose : syn.invokeEnd.isPrefixOf (skipAsciiWs s) = false)
    (hnone : openedTag syn.paramStart s = none) : ¬ CallsEnd syn true s := by
  intro h
  cases h with
  | param hopened =>
    rw [hnone] at hopened
    cases hopened
  | close hclose' =>
    rw [hclose] at hclose'
    cases hclose'

/-! ## One turn -/

theorem closes_betweenInvokes (hsome : ts.syn = some syn) (hstate : ts.state = .betweenInvokes) :
    ts.Closes text ↔ CallsEnd syn false (text.drop ts.parsePos) := by
  simp only [ToolStream.Closes, hsome, hstate]

theorem closes_betweenParams (hsome : ts.syn = some syn) (hstate : ts.state = .betweenParams) :
    ts.Closes text ↔ CallsEnd syn true (text.drop ts.parsePos) := by
  simp only [ToolStream.Closes, hsome, hstate]

theorem closes_paramValue (hsome : ts.syn = some syn) (hstate : ts.state = .paramValue) :
    ts.Closes text ↔ ∃ i, searchString syn.paramEnd (text.drop ts.parsePos) = some i ∧
      CallsEnd syn true (text.drop (ts.parsePos + i + syn.paramEnd.length)) := by
  simp only [ToolStream.Closes, hsome, hstate]

/-- A stream that fails leaves the block of a begun call open. -/
theorem closes_fail (ts : ToolStream) (text : List UInt8) : ts.fail.Closes text ↔ ts.argsOpen = false := by
  unfold ToolStream.Closes
  cases hsome : ts.fail.syn with
  | none => exact Iff.rfl
  | some syn => exact Iff.rfl

/-- The white space that is skipped makes no difference. -/
theorem closes_skipWs (hpos : ts.parsePos ≤ n) (hn : n ≤ text.length)
    (hstate : ts.state ≠ .paramValue) : (ts.skipWs (text.take n)).Closes text ↔ ts.Closes text := by
  obtain ⟨-, hskip, -⟩ := skipWs_spec hpos hn
  have hsame : ∀ syn inCall, CallsEnd syn inCall (text.drop (ts.skipWs (text.take n)).parsePos) ↔
      CallsEnd syn inCall (text.drop ts.parsePos) := fun syn inCall => callsEnd_congr hskip
  have hfields : (ts.skipWs (text.take n)).syn = ts.syn ∧ (ts.skipWs (text.take n)).state = ts.state ∧
      (ts.skipWs (text.take n)).argsOpen = ts.argsOpen := ⟨rfl, rfl, rfl⟩
  unfold ToolStream.Closes
  rw [hfields.1, hfields.2.1, hfields.2.2]
  split
  · exact hsame _ _
  · exact hsame _ _
  case h_3 _ _ heq => exact absurd heq hstate
  · exact Iff.rfl

theorem openedTag_here (start : List UInt8) (hhere : skipAsciiWs s = s) :
    openedTag start s = if start.isPrefixOf s then dsmlTag s else none := by
  rw [openedTag, hhere]

theorem callsEnd_of_not_opened (hnone : openedTag syn.invokeStart s = none) : CallsEnd syn false s :=
  .none fun opened hopened => by
    rw [hnone] at hopened
    cases hopened

/-- Where the end of the block stands, no call is begun. -/
theorem openedTag_of_blockEnd (hsyn : syn ∈ dsmlSyntaxes) (hhere : skipAsciiWs s = s)
    (hclose : syn.toolCallsEnd.isPrefixOf s = true) : openedTag syn.invokeStart s = none := by
  obtain ⟨rest, hrest⟩ := List.isPrefixOf_iff_prefix.mp hclose
  obtain ⟨-, hopening, hlength⟩ := opening_marker syn hsyn syn.invokeStart (by simp)
  have hclosing := closing_marker syn hsyn syn.toolCallsEnd (by simp)
  rw [openedTag_here _ hhere, if_neg]
  intro hopen
  obtain ⟨rest', hrest'⟩ := List.isPrefixOf_iff_prefix.mp hopen
  have hnot := not_closing hopening hlength hclosing rest'
  rw [hrest', hclose] at hnot
  cases hnot

section Turn

variable (hsyn : syn ∈ dsmlSyntaxes) (hsome : ts.syn = some syn) (hpos : ts.parsePos ≤ n)
  (hn : n ≤ text.length)

include hsome hpos in
theorem toolStartInvoke_closes (hstate : ts.state = .betweenInvokes) (hopen : ts.argsOpen = false)
    (hhere : skipAsciiWs (text.drop ts.parsePos) = text.drop ts.parsePos)
    (hstart : syn.invokeStart.isPrefixOf (text.drop ts.parsePos) = true) :
    (toolStartInvoke ts (text.take n)).1.Closes text ↔ ts.Closes text := by
  unfold toolStartInvoke
  split
  · exact Iff.rfl
  case h_2 tag rest htag =>
    have hwhole := dsmlTag_of_take hpos htag
    have hopened : openedTag syn.invokeStart (text.drop ts.parsePos) =
        some (tag, text.drop (ts.parsePos + tag.length)) := by
      rw [openedTag_here _ hhere, if_pos hstart, hwhole]
    rw [closes_betweenInvokes hsome hstate]
    split
    case h_1 hname =>
      refine (closes_fail ts text).trans (iff_of_true hopen (.none fun opened hopened' => ?_))
      obtain rfl := Option.some.inj (hopened.symm.trans hopened')
      exact hname
    case h_2 name hname =>
      rw [callsEnd_call hopened (by simp [hname])]
      exact closes_betweenParams hsome rfl

include hsyn hsome hpos hn in
theorem toolBetweenInvokes_closes (hstate : ts.state = .betweenInvokes) (hopen : ts.argsOpen = false) :
    (toolBetweenInvokes syn ts (text.take n)).1.1.Closes text ↔ ts.Closes text := by
  have hlength : (text.take n).length = n := by rw [List.length_take, min_eq_left hn]
  rw [← closes_skipWs hpos hn (by simp [hstate])]
  obtain ⟨hle, hskip, hstop⟩ := skipWs_spec hpos hn
  have hsome' : (ts.skipWs (text.take n)).syn = some syn := hsome
  have hstate' : (ts.skipWs (text.take n)).state = .betweenInvokes := hstate
  have hopen' : (ts.skipWs (text.take n)).argsOpen = false := hopen
  have hhere : (ts.skipWs (text.take n)).parsePos < n →
      skipAsciiWs (text.drop (ts.skipWs (text.take n)).parsePos) =
        text.drop (ts.skipWs (text.take n)).parsePos := fun hlt => hskip.trans (hstop hlt)
  unfold toolBetweenInvokes
  revert hle hhere hsome' hstate' hopen'
  clear hskip hstop
  generalize ts.skipWs (text.take n) = ts'
  intro hle hsome' hstate' hopen' hhere
  simp only [hlength]
  split
  case isTrue => exact Iff.rfl
  case isFalse hlt =>
    have hhere := hhere (not_le.mp hlt)
    split
    case isTrue hclose =>
      have hclose' := isPrefixOf_of_take hle hclose
      rw [closes_betweenInvokes hsome' hstate']
      refine iff_of_true ?_ (callsEnd_of_not_opened (openedTag_of_blockEnd hsyn hhere hclose'))
      simp only [ToolStream.Closes, hsome', hopen']
    split
    case isTrue => exact Iff.rfl
    case isFalse hpart =>
      split
      case isTrue hstart =>
        exact toolStartInvoke_closes hsome' hle hstate' hopen' hhere (isPrefixOf_of_take hle hstart)
      case isFalse hstart =>
        have hnone : openedTag syn.invokeStart (text.drop ts'.parsePos) = none := by
          have hnot := not_isPrefixOf_of_take hle hn hstart fun h => hpart (by simp [rawPartialAny, h])
          rw [openedTag_here _ hhere, if_neg (by simp [hnot])]
        rw [closes_fail, closes_betweenInvokes hsome' hstate']
        exact iff_of_true hopen' (callsEnd_of_not_opened hnone)

include hsome hpos in
theorem toolStartParam_closes (hstate : ts.state = .betweenParams) (hopen : ts.argsOpen = true)
    (hhere : skipAsciiWs (text.drop ts.parsePos) = text.drop ts.parsePos)
    (hclose : syn.invokeEnd.isPrefixOf (text.drop ts.parsePos) = false)
    (hstart : syn.paramStart.isPrefixOf (text.drop ts.parsePos) = true) :
    (toolStartParam ts (text.take n)).1.Closes text ↔ ts.Closes text := by
  unfold toolStartParam
  split
  · exact Iff.rfl
  case h_2 tag rest htag =>
    have hwhole := dsmlTag_of_take hpos htag
    have hopened : openedTag syn.paramStart (text.drop ts.parsePos) =
        some (tag, text.drop (ts.parsePos + tag.length)) := by
      rw [openedTag_here _ hhere, if_pos hstart, hwhole]
    rw [closes_betweenParams hsome hstate, callsEnd_param (by rw [hhere, hclose]) hopened]
    split
    case h_1 name isString hname htype =>
      simp only [ToolStream.Closes, hsome, hname, htype, ne_eq, reduceCtorEq, not_false_eq_true, true_and,
        List.drop_drop, Nat.add_assoc]
    case h_2 hmissing =>
      refine (closes_fail ts text).trans (iff_of_false (by simp [hopen]) ?_)
      rintro ⟨hname, htype, -⟩
      obtain ⟨name, hname⟩ := Option.ne_none_iff_exists'.mp hname
      obtain ⟨type, htype⟩ := Option.ne_none_iff_exists'.mp htype
      exact hmissing name type hname htype

include hsyn hsome hpos hn in
theorem toolBetweenParams_closes (hstate : ts.state = .betweenParams) (hopen : ts.argsOpen = true) :
    (toolBetweenParams syn ts (text.take n)).1.1.Closes text ↔ ts.Closes text := by
  have hlength : (text.take n).length = n := by rw [List.length_take, min_eq_left hn]
  rw [← closes_skipWs hpos hn (by simp [hstate])]
  obtain ⟨hle, hskip, hstop⟩ := skipWs_spec hpos hn
  have hsome' : (ts.skipWs (text.take n)).syn = some syn := hsome
  have hstate' : (ts.skipWs (text.take n)).state = .betweenParams := hstate
  have hopen' : (ts.skipWs (text.take n)).argsOpen = true := hopen
  have hhere : (ts.skipWs (text.take n)).parsePos < n →
      skipAsciiWs (text.drop (ts.skipWs (text.take n)).parsePos) =
        text.drop (ts.skipWs (text.take n)).parsePos := fun hlt => hskip.trans (hstop hlt)
  unfold toolBetweenParams
  revert hle hhere hsome' hstate' hopen'
  clear hskip hstop
  generalize ts.skipWs (text.take n) = ts'
  intro hle hsome' hstate' hopen' hhere
  simp only [hlength]
  split
  case isTrue => exact Iff.rfl
  case isFalse hlt =>
    have hhere := hhere (not_le.mp hlt)
    split
    case isTrue hclose =>
      have hclose' := isPrefixOf_of_take hle hclose
      rw [closes_betweenParams hsome' hstate', callsEnd_close hsyn (by rw [hhere, hclose']), hhere,
        List.drop_drop]
      exact closes_betweenInvokes hsome' rfl
    case isFalse hclose =>
      split
      case isTrue => exact Iff.rfl
      case isFalse hpart =>
        have hclose' := not_isPrefixOf_of_take hle hn hclose fun h => hpart (by simp [rawPartialAny, h])
        split
        case isTrue hstart =>
          exact toolStartParam_closes hsome' hle hstate' hopen' hhere hclose' (isPrefixOf_of_take hle hstart)
        case isFalse hstart =>
          have hnone : openedTag syn.paramStart (text.drop ts'.parsePos) = none := by
            have hnot := not_isPrefixOf_of_take hle hn hstart fun h => hpart (by simp [rawPartialAny, h])
            rw [openedTag_here _ hhere, if_neg (by simp [hnot])]
          rw [closes_fail, closes_betweenParams hsome' hstate']
          exact iff_of_false (by simp [hopen']) (not_callsEnd (by rw [hhere, hclose']) hnone)

/-- A word that is found in a part of a text is found in all of it. -/
theorem searchString_of_take {word : List UInt8} {m i : Nat} (hword : word ≠ [])
    (h : searchString word (s.take m) = some i) : searchString word s = some i := by
  have hpart := searchString_first hword (s.take m)
  rw [h] at hpart
  obtain ⟨hat, hfits⟩ := (occurs_take hword).mp hpart.1
  have hfirst : First (Occurs word s) (some i) := by
    refine ⟨hat, fun j hj hat' => hpart.2 j hj ((occurs_take hword).mpr ⟨hat', by omega⟩)⟩
  exact (searchString_first hword s).unique hfirst

/-- A search may begin further on, as long as that is in front of every place of the word. -/
theorem searchString_advance {word : List UInt8} {q : Nat} (hword : word ≠ []) (hq : pos ≤ q)
    (hbefore : ∀ k, pos ≤ k → Occurs word text k → q ≤ k) :
    (searchString word (text.drop q)).map (q + ·) = (searchString word (text.drop pos)).map (pos + ·) := by
  have hfirst := fun pos => ((searchString_first hword (text.drop pos)).congr
    fun i => occurs_drop pos i).shift
  refine (hfirst q).unique ((hfirst pos).congr fun i => ?_)
  constructor
  · rintro ⟨hge, hat⟩
    exact ⟨hbefore i hge hat, hat⟩
  · rintro ⟨hge, hat⟩
    exact ⟨hq.trans hge, hat⟩

/-- The same of a value's end, said of places in the text. -/
theorem closes_paramValue_iff (hsome : ts.syn = some syn) (hstate : ts.state = .paramValue) :
    ts.Closes text ↔ ∃ k, (searchString syn.paramEnd (text.drop ts.parsePos)).map (ts.parsePos + ·) = some k ∧
      CallsEnd syn true (text.drop (k + syn.paramEnd.length)) := by
  rw [closes_paramValue hsome hstate]
  constructor
  · rintro ⟨i, hi, h⟩
    exact ⟨_, by rw [hi]; rfl, h⟩
  · rintro ⟨k, hk, h⟩
    obtain ⟨i, hi, rfl⟩ := Option.map_eq_some_iff.mp hk
    exact ⟨i, hi, h⟩

include hsyn hsome hn in
omit hpos in
theorem toolParamValue_closes (hstate : ts.state = .paramValue) :
    (toolParamValue syn ts (text.take n)).1.1.Closes text ↔ ts.Closes text := by
  have hne := (distinct_paramEnd hsyn).ne_nil (List.mem_singleton_self _)
  unfold toolParamValue
  split
  case h_1 offset hoffset =>
    have hwhole : searchString syn.paramEnd (text.drop ts.parsePos) = some offset := by
      rw [List.drop_take] at hoffset
      exact searchString_of_take hne hoffset
    rw [closes_paramValue hsome hstate, hwhole]
    simp only [toolFinishParam, ToolStream.Closes, hsome, Option.some.injEq, exists_eq_left']
  case h_2 hnone =>
    have hbound := (toolParamValueStreamSafeLen_le (text.take n) ts.parsePos syn.paramEnd ts.paramIsString)
    have hbefore : ∀ k, ts.parsePos ≤ k → Occurs syn.paramEnd text k →
        max ts.parsePos (toolParamValueStreamSafeLen (text.take n) ts.parsePos syn.paramEnd ts.paramIsString) ≤
          k := fun k hk hat =>
      max_le hk (hbound.trans (valueLimit_before_end hsyn hn hnone hk hat))
    rw [closes_paramValue_iff hsome hstate, ← searchString_advance hne (le_max_left _ _) hbefore]
    exact closes_paramValue_iff hsome hstate

end Turn

/-- Reading a part of the block changes nothing of whether its calls end. -/
theorem toolTurn_closes (hknown : ts.Known) (htidy : ts.Tidy) (hactive : ts.active = true)
    (hpos : ts.parsePos ≤ n) (hn : n ≤ text.length) :
    (toolTurn ts (text.take n)).1.1.Closes text ↔ ts.Closes text := by
  have htidy := htidy hactive
  unfold toolTurn
  split
  case h_1 syn hsome hstate =>
    have hopen : ts.argsOpen = false := by
      simpa [hstate] using htidy
    exact toolBetweenInvokes_closes (hknown syn hsome) hsome hpos hn hstate hopen
  case h_2 syn hsome hstate =>
    have hopen : ts.argsOpen = true := by
      simpa [hstate] using htidy
    exact toolBetweenParams_closes (hknown syn hsome) hsome hpos hn hstate hopen
  case h_3 syn hsome hstate => exact toolParamValue_closes (hknown syn hsome) hsome hn hstate
  case h_4 => exact Iff.rfl

/-! ## The end of the loop -/

/-- How far a turn reads: behind one that another one follows, the stream is further on or at its end. -/
structure Advances (ts : ToolStream) (bound : Nat) (turn : (ToolStream × List Action) × Bool) : Prop where
  bounded : turn.1.1.parsePos ≤ bound
  further : turn.2 = true → turn.1.1.active = true → ts.parsePos < turn.1.1.parsePos
  ended : turn.1.1.active = false → turn.1.1.state = .done ∨ turn.1.1.state = .error

theorem Advances.stay {bound : Nat} {ts' : ToolStream} (hpos : ts'.parsePos ≤ bound) (hactive : ts'.active = true)
    (actions : List Action) : Advances ts bound ((ts', actions), false) :=
  ⟨hpos, nofun, fun h => absurd (hactive.symm.trans h) nofun⟩

theorem Advances.fail {bound : Nat} {ts' : ToolStream} (hpos : ts'.parsePos ≤ bound) (actions : List Action)
    (more : Bool) : Advances ts bound ((ts'.fail, actions), more) :=
  ⟨hpos, fun _ h => absurd h nofun, fun _ => .inr rfl⟩

theorem skipWs_ge (ts : ToolStream) (text : List UInt8) : ts.parsePos ≤ (ts.skipWs text).parsePos :=
  Nat.le_add_right _ _

/-- What the start of a call or of a parameter comes to: nothing, a failure, or a tag that is read. -/
def Starts (ts : ToolStream) (bound : Nat) (next : ToolStream) : Prop :=
  next = ts ∨ next = ts.fail ∨
    (next.active = true ∧ ts.parsePos < next.parsePos ∧ next.parsePos ≤ bound)

/-- A tag that is read as a whole takes the stream behind it. -/
theorem starts_of_tag {text tag rest : List UInt8} {next : ToolStream}
    (htag : dsmlTag (text.drop ts.parsePos) = some (tag, rest)) (hactive : next.active = true)
    (hpos : next.parsePos = ts.parsePos + tag.length) : Starts ts text.length next := by
  have hle := dsmlTag_le htag
  obtain ⟨-, body, rfl, -⟩ := dsmlTag_spec htag
  rw [List.length_append, List.length_singleton] at hle hpos
  exact .inr (.inr ⟨hactive, by omega, by omega⟩)

theorem toolStartInvoke_starts (hactive : ts.active = true) (text : List UInt8) :
    Starts ts text.length (toolStartInvoke ts text).1 := by
  unfold toolStartInvoke
  split
  · exact .inl rfl
  case h_2 tag rest htag =>
    split
    · exact .inr (.inl rfl)
    · exact starts_of_tag htag hactive rfl

theorem toolStartParam_starts (hactive : ts.active = true) (text : List UInt8) :
    Starts ts text.length (toolStartParam ts text).1 := by
  unfold toolStartParam
  split
  · exact .inl rfl
  case h_2 tag rest htag =>
    split
    · exact starts_of_tag htag hactive rfl
    · exact .inr (.inl rfl)

theorem Advances.of_starts {bound : Nat} {next : ToolStream × List Action} (hactive : ts.active = true)
    (hpos : ts.parsePos ≤ bound) (h : Starts ts bound next.1) :
    Advances ts bound (next, !(next.1.parsePos = ts.parsePos && next.1.state = ts.state)) := by
  rcases h with h | h | ⟨hactive', hlt, hle⟩
  · refine ⟨h ▸ hpos, fun hmore => ?_, fun hstop => ?_⟩
    · simp [h] at hmore
    · rw [h, hactive] at hstop
      cases hstop
  · refine ⟨h ▸ hpos, fun _ hgoes => ?_, fun _ => .inr (by rw [h]; rfl)⟩
    rw [h] at hgoes
    cases hgoes
  · refine ⟨hle, fun _ _ => hlt, fun hstop => ?_⟩
    rw [hactive'] at hstop
    cases hstop

theorem Advances.of_skipWs {bound : Nat} {turn : (ToolStream × List Action) × Bool}
    (h : Advances (ts.skipWs s) bound turn) : Advances ts bound turn :=
  ⟨h.bounded, fun hmore hactive => (skipWs_ge ts s).trans_lt (h.further hmore hactive), h.ended⟩

theorem marker_pos (hsyn : syn ∈ dsmlSyntaxes) : 0 < syn.invokeEnd.length ∧ 0 < syn.paramEnd.length ∧
    0 < syn.invokeStart.length ∧ 0 < syn.paramStart.length := by
  have hall : ∀ syn ∈ dsmlSyntaxes, 0 < syn.invokeEnd.length ∧ 0 < syn.paramEnd.length ∧
      0 < syn.invokeStart.length ∧ 0 < syn.paramStart.length := by decide
  exact hall syn hsyn

/-- No turn reads behind the text, and one that asks for another has read something. -/
theorem toolTurn_advances (hknown : ts.Known) (hactive : ts.active = true) (hpos : ts.parsePos ≤ text.length) :
    Advances ts text.length (toolTurn ts text) := by
  have hle := skipWs_le hpos
  have hactive' : (ts.skipWs text).active = true := hactive
  unfold toolTurn
  split
  case h_1 syn hsome _ =>
    refine Advances.of_skipWs (s := text) ?_
    unfold toolBetweenInvokes
    simp only
    split
    · exact .stay hle hactive _
    split
    case isTrue hend => exact ⟨rawFullLit_le hend, nofun, fun _ => .inl rfl⟩
    split
    · exact .stay hle hactive _
    split
    · exact .of_starts hactive' hle (toolStartInvoke_starts hactive' text)
    · exact .fail hle _ _
  case h_2 syn hsome _ =>
    have hlong := (marker_pos (hknown syn hsome)).1
    refine Advances.of_skipWs (s := text) ?_
    unfold toolBetweenParams
    simp only
    split
    · exact .stay hle hactive _
    split
    case isTrue hend =>
      refine ⟨rawFullLit_le hend, fun _ _ => ?_, fun h => absurd (hactive.symm.trans h) nofun⟩
      show (ts.skipWs text).parsePos < (ts.skipWs text).parsePos + syn.invokeEnd.length
      omega
    split
    · exact .stay hle hactive _
    split
    · exact .of_starts hactive' hle (toolStartParam_starts hactive' text)
    · exact .fail hle _ _
  case h_3 syn hsome _ =>
    have hlong := (marker_pos (hknown syn hsome)).2.1
    unfold toolParamValue
    split
    case h_1 offset hoffset =>
      have hfound := searchString_le (List.ne_nil_of_length_pos hlong) hoffset
      refine ⟨hfound, fun _ _ => ?_, fun h => absurd (hactive.symm.trans h) nofun⟩
      show ts.parsePos < ts.parsePos + offset + syn.paramEnd.length
      omega
    case h_2 =>
      have hlimit := (toolParamValueStreamSafeLen_le text ts.parsePos syn.paramEnd ts.paramIsString).trans
        (valueLimit_le _ _ _)
      exact ⟨max_le hpos hlimit, nofun, fun h => absurd (hactive.symm.trans h) nofun⟩
  case h_4 => exact .stay hpos hactive _

/-- A stream that reads no further has its block open unless what is left ends every call. -/
def Settled (ts : ToolStream) (text : List UInt8) : Prop := ts.argsOpen = false ↔ ts.Closes text

/-- A stream at its end keeps what it has open. -/
theorem settled_of_ended (h : ts.state = .done ∨ ts.state = .error) : Settled ts text := by
  unfold Settled ToolStream.Closes
  rcases h with h | h
  · cases hsome : ts.syn with
    | none => exact Iff.rfl
    | some syn => simp only [h]
  · cases hsome : ts.syn with
    | none => exact Iff.rfl
    | some syn => simp only [h]

/-- Between two calls with none begun, and inside a call whose rest does not end it. -/
theorem settled_betweenInvokes (hsome : ts.syn = some syn) (hstate : ts.state = .betweenInvokes)
    (hopen : ts.argsOpen = false) (hnone : openedTag syn.invokeStart (text.drop ts.parsePos) = none) :
    Settled ts text := by
  rw [Settled, closes_betweenInvokes hsome hstate]
  exact iff_of_true hopen (callsEnd_of_not_opened hnone)

theorem settled_betweenParams (hsome : ts.syn = some syn) (hstate : ts.state = .betweenParams)
    (hopen : ts.argsOpen = true) (hclose : syn.invokeEnd.isPrefixOf (skipAsciiWs (text.drop ts.parsePos)) = false)
    (hnone : openedTag syn.paramStart (text.drop ts.parsePos) = none) : Settled ts text := by
  rw [Settled, closes_betweenParams hsome hstate]
  exact iff_of_false (by simp [hopen]) (not_callsEnd hclose hnone)

theorem isPrefixOf_nil (hlit : 0 < lit.length) : lit.isPrefixOf [] = false := by
  cases lit with
  | nil => cases hlit
  | cons b lit => rfl

/-- At the end of the text. -/
theorem settled_at_end (hknown : ts.Known) (htidy : ts.Tidy) (hactive : ts.active = true)
    (hend : text.length ≤ ts.parsePos) : Settled ts text := by
  have hnil : text.drop ts.parsePos = [] := List.drop_of_length_le hend
  have htidy := htidy hactive
  cases hsome : ts.syn with
  | none => simp [Settled, ToolStream.Closes, hsome]
  | some syn =>
    obtain ⟨hclose, hvalue, hinvoke, hparam⟩ := marker_pos (hknown syn hsome)
    have hopened : ∀ start : List UInt8, 0 < start.length → openedTag start (text.drop ts.parsePos) = none := by
      intro start hstart
      rw [hnil, openedTag, if_neg]
      simp [skipAsciiWs, isPrefixOf_nil hstart]
    cases hstate : ts.state with
    | betweenInvokes =>
      exact settled_betweenInvokes hsome hstate (by simpa [hstate] using htidy) (hopened _ hinvoke)
    | betweenParams =>
      refine settled_betweenParams hsome hstate (by simpa [hstate] using htidy) ?_ (hopened _ hparam)
      rw [hnil]
      exact isPrefixOf_nil hclose
    | paramValue =>
      have hopen : ts.argsOpen = true := by simpa [hstate] using htidy
      rw [Settled, closes_paramValue hsome hstate, hnil]
      refine iff_of_false (by simp [hopen]) ?_
      rintro ⟨i, hi, -⟩
      rw [searchString, if_neg (List.ne_nil_of_length_pos hvalue)] at hi
      cases hi
    | done => exact settled_of_ended (.inl hstate)
    | error => exact settled_of_ended (.inr hstate)

/-- A literal that breaks off is not there, and neither is one of the other kind. -/
theorem isPrefixOf_of_broken {a b : List UInt8} (hlength : 2 ≤ a.length) (hne : a.take 2 ≠ b.take 2)
    (hpart : rawPartialAny text pos a b = true) (hb : 2 ≤ b.length) :
    a.isPrefixOf (text.drop pos) = false ∧ b.isPrefixOf (text.drop pos) = false := by
  have hcross : ∀ {a b : List UInt8}, 2 ≤ a.length → 2 ≤ b.length → a.take 2 ≠ b.take 2 →
      rawPartialLit text pos b = true →
      a.isPrefixOf (text.drop pos) = false ∧ b.isPrefixOf (text.drop pos) = false := by
    intro a b ha hb hne hpart
    rw [rawPartialLit, Bool.and_eq_true, Bool.and_eq_true, decide_eq_true_iff, decide_eq_true_iff,
      List.isPrefixOf_iff_prefix] at hpart
    refine ⟨Bool.eq_false_iff.mpr fun h => hne ?_, Bool.eq_false_iff.mpr fun h => ?_⟩
    · obtain ⟨rest, hrest⟩ := (List.isPrefixOf_iff_prefix.mp h).trans hpart.2
      rw [← hrest, List.take_append_of_le_length ha]
    · have hlength := (List.isPrefixOf_iff_prefix.mp h).length_le
      rw [List.length_drop] at hlength
      omega
  rw [rawPartialAny, Bool.or_eq_true] at hpart
  rcases hpart with h | h
  · exact (hcross hb hlength (Ne.symm hne) h).symm
  · exact hcross hlength hb hne h

/-- Behind white space the text begins with what is looked for. -/
theorem skipWs_here (hpos : ts.parsePos ≤ text.length) (hlt : (ts.skipWs text).parsePos < text.length) :
    skipAsciiWs (text.drop (ts.skipWs text).parsePos) = text.drop (ts.skipWs text).parsePos := by
  obtain ⟨-, hskip, hstop⟩ := skipWs_spec hpos (le_refl text.length)
  rw [List.take_length] at hskip hstop
  exact hskip.trans (hstop hlt)

/-- The markers that are told apart where a text breaks off differ in their second byte at the latest. -/
theorem markers_differ (hsyn : syn ∈ dsmlSyntaxes) :
    (2 ≤ syn.toolCallsEnd.length ∧ syn.toolCallsEnd.take 2 ≠ syn.invokeStart.take 2 ∧
      2 ≤ syn.invokeStart.length) ∧
      2 ≤ syn.invokeEnd.length ∧ syn.invokeEnd.take 2 ≠ syn.paramStart.take 2 ∧ 2 ≤ syn.paramStart.length := by
  have hall : ∀ syn ∈ dsmlSyntaxes, (2 ≤ syn.toolCallsEnd.length ∧
      syn.toolCallsEnd.take 2 ≠ syn.invokeStart.take 2 ∧ 2 ≤ syn.invokeStart.length) ∧
      2 ≤ syn.invokeEnd.length ∧ syn.invokeEnd.take 2 ≠ syn.paramStart.take 2 ∧
      2 ≤ syn.paramStart.length := by decide
  exact hall syn hsyn

/-- A call's tag is missing or has no name, where its start is the last turn. -/
theorem toolStartInvoke_settles (hsome : ts.syn = some syn) (hstate : ts.state = .betweenInvokes)
    (hopen : ts.argsOpen = false) (hhere : skipAsciiWs (text.drop ts.parsePos) = text.drop ts.parsePos)
    (hlast : (!((toolStartInvoke ts text).1.parsePos = ts.parsePos &&
      (toolStartInvoke ts text).1.state = ts.state)) = false) :
    Settled (toolStartInvoke ts text).1 text := by
  unfold toolStartInvoke at hlast ⊢
  cases htag : dsmlTag (text.drop ts.parsePos) with
  | none =>
    refine settled_betweenInvokes hsome hstate hopen ?_
    rw [openedTag_here _ hhere]
    split
    · exact htag
    · rfl
  | some found =>
    obtain ⟨tag, rest⟩ := found
    obtain ⟨-, body, rfl, -⟩ := dsmlTag_spec htag
    simp only [htag] at hlast ⊢
    cases hname : dsmlAttr (body ++ [0x3e]) (bytes "name") with
    | none => exact settled_of_ended (.inr rfl)
    | some name => simp [hname, hstate] at hlast

/-- The same of a parameter. -/
theorem toolStartParam_settles (hsome : ts.syn = some syn) (hstate : ts.state = .betweenParams)
    (hopen : ts.argsOpen = true) (hhere : skipAsciiWs (text.drop ts.parsePos) = text.drop ts.parsePos)
    (hclose : syn.invokeEnd.isPrefixOf (text.drop ts.parsePos) = false)
    (hlast : (!((toolStartParam ts text).1.parsePos = ts.parsePos &&
      (toolStartParam ts text).1.state = ts.state)) = false) :
    Settled (toolStartParam ts text).1 text := by
  unfold toolStartParam at hlast ⊢
  cases htag : dsmlTag (text.drop ts.parsePos) with
  | none =>
    refine settled_betweenParams hsome hstate hopen (by rw [hhere, hclose]) ?_
    rw [openedTag_here _ hhere]
    split
    · exact htag
    · rfl
  | some found =>
    obtain ⟨tag, rest⟩ := found
    obtain ⟨-, body, rfl, -⟩ := dsmlTag_spec htag
    simp only [htag] at hlast ⊢
    cases hname : dsmlAttr (body ++ [0x3e]) (bytes "name") with
    | none => exact settled_of_ended (.inr rfl)
    | some name =>
      cases htype : dsmlAttr (body ++ [0x3e]) (bytes "string") with
      | none => exact settled_of_ended (.inr rfl)
      | some type => simp [hname, htype, hstate] at hlast

/-- Behind a turn that no other one follows, all of the text is read that can be. -/
theorem toolTurn_settles (hknown : ts.Known) (htidy : ts.Tidy) (hactive : ts.active = true)
    (hpos : ts.parsePos ≤ text.length) (hlast : (toolTurn ts text).2 = false) :
    Settled (toolTurn ts text).1.1 text := by
  have htidy' := htidy hactive
  unfold toolTurn at hlast ⊢
  split
  case h_1 syn hsome hstate =>
    obtain ⟨⟨hcloseLen, hdiffer, hopenLen⟩, -⟩ := markers_differ (hknown syn hsome)
    have hopen : (ts.skipWs text).argsOpen = false := by
      show ts.argsOpen = false
      simpa [hstate] using htidy'
    simp only [hsome, hstate] at hlast
    unfold toolBetweenInvokes at hlast ⊢
    simp only at hlast ⊢
    split
    case isTrue hend =>
      have hend' : Settled (ts.skipWs text) text := settled_at_end hknown htidy hactive hend
      exact hend'
    case isFalse hlt =>
      have hhere := skipWs_here hpos (not_le.mp hlt)
      rw [if_neg hlt] at hlast
      split
      · exact settled_of_ended (.inl rfl)
      case isFalse hfull =>
        rw [if_neg hfull] at hlast
        split
        case isTrue hpart =>
          refine settled_betweenInvokes hsome hstate hopen ?_
          have hnot := (isPrefixOf_of_broken hcloseLen hdiffer hpart hopenLen).2
          rw [openedTag_here _ hhere, if_neg (by simp [hnot])]
        case isFalse hpart =>
          rw [if_neg hpart] at hlast
          split
          case isTrue hstart =>
            rw [if_pos hstart] at hlast
            exact toolStartInvoke_settles hsome hstate hopen hhere hlast
          · exact settled_of_ended (.inr rfl)
  case h_2 syn hsome hstate =>
    obtain ⟨-, hcloseLen, hdiffer, hopenLen⟩ := markers_differ (hknown syn hsome)
    have hopen : (ts.skipWs text).argsOpen = true := by
      show ts.argsOpen = true
      simpa [hstate] using htidy'
    simp only [hsome, hstate] at hlast
    unfold toolBetweenParams at hlast ⊢
    simp only at hlast ⊢
    split
    case isTrue hend =>
      have hend' : Settled (ts.skipWs text) text := settled_at_end hknown htidy hactive hend
      exact hend'
    case isFalse hlt =>
      have hhere := skipWs_here hpos (not_le.mp hlt)
      rw [if_neg hlt] at hlast
      split
      case isTrue hfull =>
        rw [if_pos hfull] at hlast
        cases hlast
      case isFalse hfull =>
        rw [if_neg hfull] at hlast
        split
        case isTrue hpart =>
          have hnot := isPrefixOf_of_broken hcloseLen hdiffer hpart hopenLen
          refine settled_betweenParams hsome hstate hopen (by rw [hhere, hnot.1]) ?_
          rw [openedTag_here _ hhere, if_neg (by simp [hnot.2])]
        case isFalse hpart =>
          rw [if_neg hpart] at hlast
          split
          case isTrue hstart =>
            rw [if_pos hstart] at hlast
            refine toolStartParam_settles hsome hstate hopen hhere ?_ hlast
            refine Bool.eq_false_iff.mpr fun h => hfull ?_
            exact rawFullLit_iff.mpr ⟨(not_le.mp hlt).le, List.isPrefixOf_iff_prefix.mp h⟩
          · exact settled_of_ended (.inr rfl)
  case h_3 syn hsome hstate =>
    have hopen : ts.argsOpen = true := by simpa [hstate] using htidy'
    have hcloses := toolParamValue_closes (hknown syn hsome) hsome (le_refl text.length) hstate
    rw [List.take_length] at hcloses
    simp only [hsome, hstate] at hlast
    rw [Settled, hcloses, closes_paramValue hsome hstate]
    unfold toolParamValue at hlast ⊢
    split
    case h_1 offset hoffset => simp [hoffset] at hlast
    case h_2 hnone => simp [hopen, hnone]
  case h_4 hinvokes hparams hvalue =>
    cases hsome : ts.syn with
    | none => simp [Settled, ToolStream.Closes, hsome]
    | some syn =>
      cases hstate : ts.state with
      | betweenInvokes => exact absurd hstate (hinvokes syn hsome)
      | betweenParams => exact absurd hstate (hparams syn hsome)
      | paramValue => exact absurd hstate (hvalue syn hsome)
      | done => exact settled_of_ended (.inl hstate)
      | error => exact settled_of_ended (.inr hstate)

theorem toolTurn_tidy (text : List UInt8) (htidy : ts.Tidy) (hactive : ts.active = true) :
    (toolTurn ts text).1.1.Tidy :=
  (toolTurn_tells text 0 hactive htidy).tidy

theorem toolTurn_known (text : List UInt8) (hknown : ts.Known) : (toolTurn ts text).1.1.Known := by
  rw [ToolStream.Known, toolTurn_syn]
  exact hknown

theorem toolLoop_syn (fuel : Nat) (ts : ToolStream) (text : List UInt8) : (toolLoop fuel ts text).1.syn = ts.syn := by
  induction fuel generalizing ts with
  | zero => rfl
  | succ fuel ih =>
    rw [toolLoop]
    split
    · simp only
      split
      · exact (ih _).trans (toolTurn_syn ts text)
      · exact toolTurn_syn ts text
    · rfl

/-- And so does the loop, for any number of turns. -/
theorem toolLoop_closes (fuel : Nat) (hknown : ts.Known) (htidy : ts.Tidy) (hn : n ≤ text.length) :
    (toolLoop fuel ts (text.take n)).1.Closes text ↔ ts.Closes text := by
  have hlength : (text.take n).length = n := by rw [List.length_take, min_eq_left hn]
  induction fuel generalizing ts with
  | zero => exact Iff.rfl
  | succ fuel ih =>
    rw [toolLoop]
    split
    case isFalse => exact Iff.rfl
    case isTrue hgo =>
      have hturn := toolTurn_closes hknown htidy hgo.1 (by omega) hn
      simp only
      split
      · exact (ih (toolTurn_known _ hknown) (toolTurn_tidy _ htidy hgo.1)).trans hturn
      · exact hturn

/-- With bytes enough to count, the loop reads all of the text that can be read. -/
theorem toolLoop_settles (fuel : Nat) (hknown : ts.Known) (htidy : ts.Tidy)
    (hsettled : ts.active = false → Settled ts text)
    (hfuel : ts.active = true → text.length - ts.parsePos < fuel) :
    Settled (toolLoop fuel ts text).1 text := by
  induction fuel generalizing ts with
  | zero =>
    refine hsettled (Bool.eq_false_iff.mpr fun hactive => ?_)
    exact Nat.not_lt_zero _ (hfuel hactive)
  | succ fuel ih =>
    rw [toolLoop]
    split
    case isFalse hstop =>
      cases hactive : ts.active with
      | false => exact hsettled hactive
      | true =>
        refine settled_at_end hknown htidy hactive ?_
        by_contra hlt
        exact hstop ⟨hactive, not_le.mp hlt⟩
    case isTrue hgo =>
      have hturn := toolTurn_advances hknown hgo.1 hgo.2.le
      simp only
      split
      case isTrue hmore =>
        refine ih (toolTurn_known _ hknown) (toolTurn_tidy _ htidy hgo.1)
          (fun hstop => settled_of_ended (hturn.ended hstop)) ?_
        intro hactive
        have hlt := hturn.further hmore hactive
        have hfuel := hfuel hgo.1
        omega
      case isFalse hlast => exact toolTurn_settles hknown htidy hgo.1 hgo.2.le (Bool.eq_false_iff.mpr hlast)

/-- A loop that cannot go on has read what can be read. -/
theorem toolLoop_ended (fuel : Nat) (hknown : ts.Known) (hsettled : ts.active = false → Settled ts s) :
    (toolLoop fuel ts text).1.active = false → Settled (toolLoop fuel ts text).1 s := by
  induction fuel generalizing ts with
  | zero => exact hsettled
  | succ fuel ih =>
    rw [toolLoop]
    split
    case isFalse => exact hsettled
    case isTrue hgo =>
      have hturn := toolTurn_advances hknown hgo.1 hgo.2.le
      have hended : (toolTurn ts text).1.1.active = false → Settled (toolTurn ts text).1.1 s :=
        fun hstop => settled_of_ended (hturn.ended hstop)
      simp only
      split
      · exact ih (toolTurn_known _ hknown) hended
      · exact hended

/-! ## The block in a reply -/

variable {st st' : ReplyStream} {raw : List UInt8} {rawLen : Nat} {final hasTools : Bool} {t : Translator}

/-- What is kept of the block a reply reads: whether its calls end is what the text behind its marker
says. -/
structure Projected (text : List UInt8) (st : ReplyStream) : Prop where
  known : st.tool.Known
  tidy : st.tool.Tidy
  settled : st.tool.active = false → Settled st.tool text
  running : st.tool.active = true → st.mode = .tool
  shut : st.tool.syn = none → st.tool.argsOpen = false
  behind : ∀ syn, st.tool.syn = some syn → (st.mode = .tool ∨ st.mode = .suppress) ∧
    (st.tool.Closes text ↔ CallsEnd syn false (text.drop (st.emitPos + syn.toolCallsStart.length)))

/-- Before the first update nothing is read. -/
theorem projected_start (thinkEnabled hasTools : Bool) (text : List UInt8) :
    Projected text (ReplyStream.start thinkEnabled hasTools) :=
  ⟨known_zero, nofun, fun _ => Iff.rfl, nofun, fun _ => rfl, nofun⟩

/-- No block is read before the answer's end. -/
theorem Projected.no_block (h : Projected text st) (hmode : st.mode = .thinking ∨ st.mode = .text) :
    st.tool.syn = none ∧ st.tool.active = false := by
  constructor
  · cases hsome : st.tool.syn with
    | none => rfl
    | some syn =>
      have hbehind := (h.behind syn hsome).1
      rcases hmode with hmode | hmode
      · simp [hmode] at hbehind
      · simp [hmode] at hbehind
  · refine Bool.eq_false_iff.mpr fun hactive => ?_
    have htool := h.running hactive
    rcases hmode with hmode | hmode
    · exact absurd (hmode.symm.trans htool) nofun
    · exact absurd (hmode.symm.trans htool) nofun

/-- Up to there a part of an update leaves the block alone. -/
theorem Projected.keep (h : Projected text st) (hmode : st.mode = .thinking ∨ st.mode = .text)
    (htool : st'.tool = st.tool) : Projected text st' := by
  obtain ⟨hnone, hidle⟩ := h.no_block hmode
  refine ⟨htool ▸ h.known, htool ▸ h.tidy, htool ▸ h.settled, ?_, htool ▸ h.shut, ?_⟩
  · rw [htool, hidle]
    exact nofun
  · rw [htool, hnone]
    exact nofun

theorem thinkingUpdate_tool (hasTools : Bool) (st : ReplyStream) (raw : List UInt8) (rawLen : Nat) (final : Bool) :
    (thinkingUpdate hasTools st raw rawLen final).1.tool = st.tool := by
  have hsend := fun limit => (send_frame st .reasoning raw limit).1
  unfold thinkingUpdate
  split
  · simp only
    split
    · exact hsend _
    · exact hsend _
  · exact hsend _
  · split
    · exact hsend _
    · exact hsend _

theorem guardUpdate_tool (hasTools : Bool) (st : ReplyStream) (raw : List UInt8) (final : Bool) :
    (guardUpdate hasTools st raw final).1.1.tool = st.tool := by
  unfold guardUpdate
  split
  · split
    · exact (send_frame st .reasoning raw _).1
    · rfl
    · split
      · rfl
      · rfl
  · rfl

/-- A block that begins to be read is read from behind its marker. -/
theorem projected_init {pos : Nat} (raw : List UInt8) (htool : st.tool = ToolStream.init raw pos)
    (hpos : st.emitPos = pos)
    (hmode : st.mode = if (ToolStream.init raw pos).active then .tool else .suppress) : Projected text st := by
  have htidy := init_tidy raw pos
  have hknown := known_init raw pos
  revert htidy hknown htool hmode
  unfold ToolStream.init
  split
  case h_1 syn hfind =>
    intro htool hmode htidy hknown
    refine ⟨htool ▸ hknown, htool ▸ htidy.1, ?_, fun _ => hmode, ?_, ?_⟩
    · rw [htool]
      exact nofun
    · rw [htool]
      exact nofun
    · intro syn' hsyn'
      rw [htool] at hsyn'
      obtain rfl := Option.some.inj hsyn'
      refine ⟨.inl hmode, ?_⟩
      rw [htool, hpos]
      exact Iff.rfl
  case h_2 =>
    intro htool hmode htidy hknown
    refine ⟨htool ▸ hknown, htool ▸ htidy.1, fun _ => ?_, ?_, fun _ => ?_, ?_⟩
    · rw [htool]
      exact settled_of_ended (.inr rfl)
    · rw [htool]
      exact nofun
    · rw [htool]
      rfl
    · rw [htool]
      exact nofun

/-- The content goes over into the block at its marker. -/
theorem projected_contentUpdate (t : Translator) (raw : List UInt8) (rawLen : Nat) (final : Bool)
    (hmode : st.mode = .text) (h : Projected text st) :
    Projected text (contentUpdate t st raw rawLen final).1 := by
  have hsend := fun limit => (send_frame st .content raw limit).1
  unfold contentUpdate
  simp only
  split
  case h_1 tool hfind =>
    cases hprojects : (t.projectsOnFinal || !final) with
    | true =>
      simp only [if_true, Bool.true_and]
      exact projected_init (raw.take rawLen) rfl rfl rfl
    | false =>
      simp only [Bool.false_eq_true, if_false, Bool.false_and]
      exact h.keep (.inr hmode) rfl
  case h_2 =>
    split
    · exact h.keep (.inr hmode) (hsend _)
    · exact h.keep (.inr hmode) (hsend _)

theorem projected_textUpdate (t : Translator) (raw : List UInt8) (rawLen : Nat) (final : Bool)
    (hmode : st.mode = .text) (h : Projected text st) :
    Projected text (textUpdate t st raw rawLen final).1 := by
  have hguarded := h.keep (.inr hmode) (guardUpdate_tool t.hasTools st raw final)
  have hmode' := (guardUpdate_mode t.hasTools raw final hmode).1
  unfold textUpdate
  simp only
  split
  · exact projected_contentUpdate t raw rawLen final hmode' hguarded
  · exact hguarded

/-- Behind the content, a block is read or nothing more is said. -/
theorem behind_mode (reads : Bool) : (if reads then StreamMode.tool else .suppress) = .tool ∨
    (if reads then StreamMode.tool else .suppress) = .suppress := by
  cases reads with
  | true => exact .inl rfl
  | false => exact .inr rfl

/-- A stream without a dialect reads nothing. -/
theorem toolLoop_none (fuel : Nat) (text : List UInt8) (hnone : ts.syn = none) : (toolLoop fuel ts text).1 = ts := by
  have hturn : toolTurn ts text = ((ts, []), false) := by
    unfold toolTurn
    rw [hnone]
  cases fuel with
  | zero => rfl
  | succ fuel =>
    rw [toolLoop]
    split
    · simp [hturn]
    · rfl

/-- The block is read as far as the update goes. -/
theorem projected_toolUpdate (hn : n ≤ text.length) (hrawLen : rawLen ≤ n) (h : Projected text st) :
    Projected text (toolUpdate st (text.take n) rawLen).1 := by
  have htake : (text.take n).take rawLen = text.take rawLen := by rw [List.take_take, min_eq_left hrawLen]
  simp only [toolUpdate, toolStreamUpdate, htake]
  generalize (text.take rawLen).length + 1 = fuel
  have hsyn := toolLoop_syn fuel st.tool (text.take rawLen)
  have hcloses : (toolLoop fuel st.tool (text.take rawLen)).1.Closes text ↔ st.tool.Closes text :=
    toolLoop_closes fuel h.known h.tidy (by omega)
  have hended : (toolLoop fuel st.tool (text.take rawLen)).1.active = false →
      Settled (toolLoop fuel st.tool (text.take rawLen)).1 text := toolLoop_ended fuel h.known h.settled
  have hnone : st.tool.syn = none → (toolLoop fuel st.tool (text.take rawLen)).1 = st.tool :=
    toolLoop_none fuel (text.take rawLen)
  have hknown := (toolLoop_ofTool (text.take rawLen) fuel h.known).2
  have htidy := (toolLoop_tells (text.take rawLen) fuel 0 h.tidy).tidy
  revert hsyn hcloses hended hnone hknown htidy
  generalize (toolLoop fuel st.tool (text.take rawLen)).1 = read
  intro hsyn hcloses hended hnone hknown htidy
  refine ⟨hknown, htidy, hended, fun hactive => if_pos hactive, fun hsome => ?_, fun syn hsome => ?_⟩
  · have hsame := hnone (hsyn.symm.trans hsome)
    show read.argsOpen = false
    rw [hsame]
    exact h.shut (hsyn.symm.trans hsome)
  · refine ⟨?_, hcloses.trans (h.behind syn (hsyn.symm.trans hsome)).2⟩
    exact behind_mode read.active

theorem projected_andIn {mode : StreamMode} {part : ReplyStream → ReplyStream × List Action}
    {done : ReplyStream × List Action} (hdone : Projected text done.1)
    (hpart : ∀ st, st.mode = mode → Projected text st → Projected text (part st).1) :
    Projected text (andIn mode part done).1 := by
  unfold andIn
  split
  case isTrue hmode => exact hpart _ hmode hdone
  case isFalse => exact hdone

/-- One update keeps it, part by part. -/
theorem projected_streamUpdate (t : Translator) (final : Bool) (hn : n ≤ text.length) (hrawLen : rawLen ≤ n)
    (h : Projected text st) : Projected text (streamUpdate t st (text.take n) rawLen final).1 := by
  unfold streamUpdate
  split
  · exact h
  · refine projected_andIn (projected_andIn (projected_andIn h ?_) ?_) ?_
    · intro st hmode h
      unfold readThinking
      split
      · exact h
      case h_2 st' hcheck =>
        obtain ⟨hmode', htool, -⟩ := checkThinkPrefix_frame hcheck
        exact (h.keep (.inl hmode) htool).keep (.inl (hmode'.trans hmode)) (thinkingUpdate_tool _ _ _ _ _)
    · exact fun st hmode h => projected_textUpdate t _ rawLen final hmode h
    · exact fun st _ h => projected_toolUpdate hn hrawLen h

/-! ## The last update -/

/-- A block that is read stays the last part of the reply. -/
theorem toolUpdate_mode (st : ReplyStream) (raw : List UInt8) (rawLen : Nat) :
    (toolUpdate st raw rawLen).1.mode = .tool ∨ (toolUpdate st raw rawLen).1.mode = .suppress := by
  exact behind_mode (toolStreamUpdate st.tool (raw.take rawLen)).1.active

theorem textUpdate_mode (t : Translator) (raw : List UInt8) (rawLen : Nat) (final : Bool) (hmode : st.mode = .text) :
    (textUpdate t st raw rawLen final).1.mode ≠ .thinking := by
  obtain ⟨hmode', -⟩ := guardUpdate_mode t.hasTools raw final hmode
  have hcontent : ∀ st : ReplyStream, st.mode = .text → (contentUpdate t st raw rawLen final).1.mode ≠ .thinking := by
    intro st hmode
    unfold contentUpdate
    simp only
    split
    · refine fun hthinking => ?_
      rcases behind_mode _ with h | h
      · exact absurd (h.symm.trans hthinking) nofun
      · exact absurd (h.symm.trans hthinking) nofun
    · split
      · exact nofun
      · rw [(send_frame st .content raw _).2.1, hmode]
        exact nofun
  unfold textUpdate
  simp only
  split
  · exact hcontent _ hmode'
  · rw [hmode']
    exact nofun

theorem andIn_first {mode : StreamMode} (part : ReplyStream → ReplyStream × List Action) (hmode : st.mode = mode) :
    andIn mode part (st, []) = part st :=
  (andIn_of part hmode).trans (Prod.ext rfl (List.nil_append _))

theorem andIn_stays {mode left : StreamMode} {part : ReplyStream → ReplyStream × List Action}
    {done : ReplyStream × List Action} (hpart : ∀ st, st.mode = mode → (part st).1.mode ≠ left)
    (hstays : (andIn mode part done).1.mode = left) : andIn mode part done = done := by
  by_cases hmode : done.1.mode = mode
  · rw [andIn_of part hmode] at hstays
    exact absurd hstays (hpart _ hmode)
  · exact andIn_of_ne part hmode

/-- A stream that is still in reasoning has done nothing but that. -/
theorem streamUpdate_stays (hactive : st.active = true)
    (hmode : (streamUpdate t st raw rawLen final).1.mode = .thinking) :
    st.mode = .thinking ∧ streamUpdate t st raw rawLen final = readThinking t st raw rawLen final := by
  rw [streamUpdate, if_neg (by simp [hactive])] at hmode ⊢
  have htool : ∀ st : ReplyStream, st.mode = .tool → (toolUpdate st raw rawLen).1.mode ≠ .thinking := by
    intro st _
    rcases toolUpdate_mode st raw rawLen with h | h
    · simp [h]
    · simp [h]
  have houter := andIn_stays htool hmode
  rw [houter] at hmode ⊢
  have hinner := andIn_stays (fun st => textUpdate_mode t raw rawLen final) hmode
  rw [hinner] at hmode ⊢
  by_cases hthinking : st.mode = .thinking
  · exact ⟨hthinking, andIn_first (readThinking t · raw rawLen final) hthinking⟩
  · rw [andIn_of_ne (readThinking t · raw rawLen final) hthinking] at hmode
    exact absurd hmode hthinking

/-- A part of an update that leaves reasoning open sends some of it. -/
theorem thinkingUpdate_stays (hmode : (thinkingUpdate hasTools st raw rawLen final).1.mode = .thinking) :
    ∃ limit, thinkingUpdate hasTools st raw rawLen final = st.send .reasoning raw limit := by
  unfold thinkingUpdate at hmode ⊢
  split
  case h_1 tool hend =>
    simp only [hend] at hmode ⊢
    split
    case isTrue hblock =>
      rw [if_pos hblock] at hmode
      cases hmode
    case isFalse => exact ⟨_, rfl⟩
  case h_2 close hend =>
    simp only [hend] at hmode
    cases hmode
  case h_3 hend =>
    simp only [hend] at hmode
    split
    case isTrue hfinal =>
      rw [if_pos hfinal] at hmode
      cases hmode
    case isFalse => exact ⟨_, rfl⟩

/-- The thinking block is open once reasoning is sent. -/
def Reasons (st : ReplyStream) (open_ : Option BlockType) : Prop :=
  st.mode = .thinking → (open_ = some .thinking ↔ st.sentReasoning = true)

variable {blocks after : AnthropicBlocks}

theorem checkThinkPrefix_sent (h : st.checkThinkPrefix raw rawLen final = some st') :
    st'.sentReasoning = st.sentReasoning := by
  unfold ReplyStream.checkThinkPrefix at h
  split at h
  · cases h
    rfl
  · split at h
    · cases h
    · cases h
      rfl

theorem reasons_send (limit : Nat) (hfits : Fits st blocks.openBlock) (hmode : st.mode = .thinking)
    (h : Reasons st blocks.openBlock) (htells : Tells blocks (st.send .reasoning raw limit).2 after) :
    Reasons (st.send .reasoning raw limit).1 after.openBlock := by
  rw [Fits, hmode] at hfits
  unfold ReplyStream.send at htells ⊢
  split
  case isTrue hlt =>
    rw [if_pos hlt] at htells
    obtain ⟨open_, next⟩ := blocks
    have hsent : Tells ⟨open_, next⟩ [.delta .reasoning st.emitPos
        ((raw.drop st.emitPos).take (limit - st.emitPos))] ⟨some .thinking, next⟩ :=
      tells_delta next hfits.1 _ _
    obtain rfl := Option.some.inj (htells.opened.symm.trans hsent.opened)
    exact fun _ => iff_of_true rfl (by simp)
  case isFalse hge =>
    rw [if_neg hge] at htells
    obtain rfl := Option.some.inj (htells.opened.symm.trans (Tells.nil blocks).opened)
    exact h

theorem reasons_streamUpdate (t : Translator) (raw : List UInt8) (rawLen : Nat) (final : Bool)
    (hactive : st.active = true) (hfits : Fits st blocks.openBlock) (h : Reasons st blocks.openBlock)
    (htells : Tells blocks (streamUpdate t st raw rawLen final).2 after) :
    Reasons (streamUpdate t st raw rawLen final).1 after.openBlock := by
  intro hstays
  obtain ⟨hmode, heq⟩ := streamUpdate_stays hactive hstays
  rw [heq] at hstays htells ⊢
  unfold readThinking at hstays htells ⊢
  cases hcheck : st.checkThinkPrefix raw rawLen final with
  | none =>
    simp only [hcheck] at htells
    obtain rfl := Option.some.inj (htells.opened.symm.trans (Tells.nil blocks).opened)
    exact h hmode
  | some st' =>
    simp only [hcheck] at hstays htells ⊢
    obtain ⟨hmode', htool, -⟩ := checkThinkPrefix_frame hcheck
    obtain ⟨limit, hsend⟩ := thinkingUpdate_stays hstays
    have hfits' : Fits st' blocks.openBlock := by
      rw [Fits, hmode', hmode, htool]
      rw [Fits, hmode] at hfits
      exact hfits
    have h' : Reasons st' blocks.openBlock := fun _ => by
      rw [checkThinkPrefix_sent hcheck]
      exact h hmode
    rw [hsend] at hstays htells ⊢
    exact reasons_send limit hfits' (hmode'.trans hmode) h' htells hstays

theorem contentUpdate_final (hasTools : Bool) (st : ReplyStream) (raw : List UInt8) (rawLen : Nat) :
    (contentUpdate (anthropicTranslator hasTools) st raw rawLen true).1.tool = st.tool ∧
      (contentUpdate (anthropicTranslator hasTools) st raw rawLen true).1.mode = .suppress := by
  unfold contentUpdate
  simp only [anthropicTranslator]
  split
  · exact ⟨rfl, rfl⟩
  · exact ⟨(send_frame st .content raw _).1, rfl⟩

theorem textUpdate_final (hasTools : Bool) (st : ReplyStream) (raw : List UInt8) (rawLen : Nat) :
    (textUpdate (anthropicTranslator hasTools) st raw rawLen true).1.tool = st.tool ∧
      (textUpdate (anthropicTranslator hasTools) st raw rawLen true).1.mode = .suppress := by
  have hgo : (guardUpdate hasTools st raw true).2 = true := by
    unfold guardUpdate
    split
    · split
      · rfl
      · rfl
      · rfl
    · rfl
  obtain ⟨htool, hmode⟩ := contentUpdate_final hasTools (guardUpdate hasTools st raw true).1.1 raw rawLen
  unfold textUpdate
  simp only
  split
  case isTrue => exact ⟨htool.trans (guardUpdate_tool hasTools st raw true), hmode⟩
  case isFalse hstop => exact absurd hgo hstop

/-- Reasoning never goes over into a tool block. -/
theorem readThinking_mode (t : Translator) (raw : List UInt8) (rawLen : Nat) (final : Bool)
    (hmode : st.mode = .thinking) : (readThinking t st raw rawLen final).1.mode ≠ .tool := by
  unfold readThinking
  split
  · simp [hmode]
  case h_2 st' hcheck =>
    have hsend : ∀ limit, (st'.send .reasoning raw limit).1.mode = .thinking := fun limit =>
      (send_frame st' .reasoning raw limit).2.1.trans ((checkThinkPrefix_frame hcheck).1.trans hmode)
    unfold thinkingUpdate
    split
    · simp only
      split
      · simp
      · simp [hsend]
    · simp
    · split
      · simp
      · simp [hsend]

theorem readThinking_tool (t : Translator) (st : ReplyStream) (raw : List UInt8) (rawLen : Nat) (final : Bool) :
    (readThinking t st raw rawLen final).1.tool = st.tool := by
  unfold readThinking
  split
  · rfl
  case h_2 st' hcheck => exact (thinkingUpdate_tool _ _ _ _ _).trans (checkThinkPrefix_frame hcheck).2.1

/-- What the last update of an Anthropic stream leaves of a block, by what it has found. -/
structure AtEnd (hasTools : Bool) (text : List UInt8) (st st' : ReplyStream) : Prop where
  no_text : st'.mode ≠ .text
  syn_eq : st'.tool.syn = st.tool.syn
  pos_eq : st.tool.syn ≠ none → st'.emitPos = st.emitPos
  settled : Settled st'.tool text

theorem atEnd_quiet (h : Projected text st) (hmode : st.mode = .thinking ∨ st.mode = .text)
    (htool : st'.tool = st.tool) (hmode' : st'.mode ≠ .text) : AtEnd hasTools text st st' := by
  obtain ⟨hnone, hidle⟩ := h.no_block hmode
  exact ⟨hmode', by rw [htool], fun hsome => absurd hnone hsome, htool ▸ h.settled hidle⟩

/-- The last update runs through all parts, whichever it begins with. -/
theorem streamUpdate_atEnd (hactive : st.active = true) (h : Projected text st) :
    AtEnd hasTools text st (streamUpdate (anthropicTranslator hasTools) st text text.length true).1 := by
  rw [streamUpdate, if_neg (by simp [hactive])]
  have hbehind : ∀ done : ReplyStream × List Action, done.1.mode = .text →
      (andIn .tool (toolUpdate · text text.length)
        (andIn .text (textUpdate (anthropicTranslator hasTools) · text text.length true) done)).1.tool =
          done.1.tool ∧
      (andIn .tool (toolUpdate · text text.length)
        (andIn .text (textUpdate (anthropicTranslator hasTools) · text text.length true) done)).1.mode =
          .suppress := by
    intro done hmode
    have hfinal := textUpdate_final hasTools done.1 text text.length
    rw [andIn_of (textUpdate (anthropicTranslator hasTools) · text text.length true) hmode,
      andIn_of_ne (toolUpdate · text text.length) (by simp [hfinal.2])]
    exact hfinal
  cases hmode : st.mode with
  | thinking =>
    rw [andIn_first (readThinking (anthropicTranslator hasTools) · text text.length true) hmode]
    have htool := readThinking_tool (anthropicTranslator hasTools) st text text.length true
    have hnotool := readThinking_mode (anthropicTranslator hasTools) text text.length true hmode
    by_cases htext : (readThinking (anthropicTranslator hasTools) st text text.length true).1.mode = .text
    · obtain ⟨htool', hmode'⟩ := hbehind _ htext
      refine atEnd_quiet h (.inl hmode) (htool'.trans htool) ?_
      rw [hmode']
      exact fun h => by cases h
    · rw [andIn_of_ne (textUpdate (anthropicTranslator hasTools) · text text.length true) htext,
        andIn_of_ne (toolUpdate · text text.length) hnotool]
      exact atEnd_quiet h (.inl hmode) htool htext
  | text =>
    rw [andIn_of_ne (readThinking (anthropicTranslator hasTools) · text text.length true) (by simp [hmode])]
    obtain ⟨htool, hmode'⟩ := hbehind (st, []) hmode
    exact atEnd_quiet h (.inr hmode) htool (by simp [hmode'])
  | tool =>
    rw [andIn_of_ne (readThinking (anthropicTranslator hasTools) · text text.length true) (by simp [hmode]),
      andIn_of_ne (textUpdate (anthropicTranslator hasTools) · text text.length true) (by simp [hmode]),
      andIn_of (toolUpdate · text text.length) hmode]
    have hread : Settled (toolLoop (text.length + 1) st.tool text).1 text :=
      toolLoop_settles (text.length + 1) h.known h.tidy h.settled (by omega)
    refine ⟨?_, ?_, fun _ => rfl, ?_⟩
    · rcases toolUpdate_mode st text text.length with h | h
      · simp [h]
      · simp [h]
    · show (toolLoop _ st.tool (text.take text.length)).1.syn = _
      exact toolLoop_syn _ _ _
    · show Settled (toolLoop _ st.tool (text.take text.length)).1 text
      rw [List.take_length]
      exact hread
  | suppress =>
    rw [andIn_of_ne (readThinking (anthropicTranslator hasTools) · text text.length true) (by simp [hmode]),
      andIn_of_ne (textUpdate (anthropicTranslator hasTools) · text text.length true) (by simp [hmode]),
      andIn_of_ne (toolUpdate · text text.length) (by simp [hmode])]
    refine ⟨by simp [hmode], rfl, fun _ => rfl, h.settled ?_⟩
    refine Bool.eq_false_iff.mpr fun hrunning => ?_
    exact absurd (hmode.symm.trans (h.running hrunning)) (by simp)

/-- A marker without a block behind it leaves the last update in reasoning. -/
theorem streamUpdate_marker {tool : Nat} (hactive : st.active = true) (hmode : st.mode = .thinking)
    (hcheck : st.checkThinkPrefix raw rawLen final = some st') (hend : thinkEnd t.hasTools raw st'.emitPos = .tool tool)
    (hopen : (findAnyToolEnd (raw.drop tool)).isSome = false) :
    streamUpdate t st raw rawLen final =
      st'.send .reasoning raw (trimToolSeparatorWs raw st'.emitPos tool) := by
  have hpart : thinkingUpdate t.hasTools st' raw rawLen final =
      st'.send .reasoning raw (trimToolSeparatorWs raw st'.emitPos tool) := by
    simp only [thinkingUpdate, hend, hopen, Bool.false_eq_true, if_false]
  rw [← hpart]
  refine streamUpdate_thinking hactive hmode hcheck (.inl ?_)
  rw [hpart]
  exact (send_frame st' _ _ _).2.1.trans ((checkThinkPrefix_frame hcheck).1.trans hmode)

theorem send_sentReasoning (st : ReplyStream) (raw : List UInt8) (limit : Nat) :
    (st.send .reasoning raw limit).1.sentReasoning = false ↔ st.sentReasoning = false ∧ limit ≤ st.emitPos := by
  unfold ReplyStream.send
  split
  case isTrue hlt => simp [not_le.mpr hlt]
  case isFalse hge => simp [not_lt.mp hge]

/-- A block is open as long as the arguments of a call are. -/
theorem openBlock_none_iff (ts : ToolStream) : ts.openBlock = none ↔ ts.argsOpen = false := by
  unfold ToolStream.openBlock
  cases ts.argsOpen with
  | true => simp
  | false => simp

theorem openBlock_ne_text (ts : ToolStream) : ts.openBlock ≠ some .text := by
  unfold ToolStream.openBlock
  cases ts.argsOpen with
  | true => simp
  | false => simp

/-- Behind reasoning and content, the block that is open is that of a call which does not end. -/
theorem argsOpen_at_end_iff {last : ReplyStream} (hactive : st.active = true)
    (hlast : last = (streamUpdate (anthropicTranslator hasTools) st text text.length true).1)
    (hmode : last.mode ≠ .thinking) (hend : AtEnd hasTools text st last) (hprojected : Projected text last) :
    last.tool.argsOpen = false ↔ EndsClosed hasTools text st := by
  constructor
  · refine fun hshut => ⟨fun hthinking st' hcheck tool htool => .inl ?_, fun syn hsome => ?_⟩
    · by_contra hopen
      have hmarker := streamUpdate_marker (t := anthropicTranslator hasTools) hactive hthinking hcheck htool
        (Bool.eq_false_iff.mpr hopen)
      refine hmode ?_
      rw [hlast, hmarker]
      exact (send_frame st' _ _ _).2.1.trans ((checkThinkPrefix_frame hcheck).1.trans hthinking)
    · have hcalls := (hprojected.behind syn (hend.syn_eq.trans hsome)).2
      rw [hend.pos_eq (by simp [hsome])] at hcalls
      exact hcalls.mp (hend.settled.mp hshut)
  · intro hclosed
    cases hsome : last.tool.syn with
    | none => exact hprojected.shut hsome
    | some syn =>
      have hsome' := hend.syn_eq.symm.trans hsome
      have hcalls := (hprojected.behind syn hsome).2
      rw [hend.pos_eq (by simp [hsome'])] at hcalls
      exact hend.settled.mpr (hcalls.mpr (hclosed.calls syn hsome'))

/-- In reasoning, the block that is open is that of the reasoning in front of a marker. -/
theorem thinking_at_end_iff (hactive : st.active = true)
    (hmode' : (streamUpdate (anthropicTranslator hasTools) st text text.length true).1.mode = .thinking)
    (hprojected : Projected text st) :
    (streamUpdate (anthropicTranslator hasTools) st text text.length true).1.sentReasoning = false ↔
      EndsClosed hasTools text st := by
  obtain ⟨hmode, heq⟩ := streamUpdate_stays hactive hmode'
  have hnone := (hprojected.no_block (.inl hmode)).1
  rw [heq, readThinking] at hmode'
  cases hcheck : st.checkThinkPrefix text text.length true with
  | none => exact absurd hcheck (checkThinkPrefix_final st text text.length)
  | some st' =>
    rw [hcheck] at hmode'
    simp only [thinkingUpdate] at hmode'
    cases htool : thinkEnd hasTools text st'.emitPos with
    | close close => simp [anthropicTranslator, htool] at hmode'
    | none => simp [anthropicTranslator, htool] at hmode'
    | tool tool =>
      cases hblock : (findAnyToolEnd (text.drop tool)).isSome with
      | true => simp [anthropicTranslator, htool, hblock] at hmode'
      | false =>
        rw [streamUpdate_marker (t := anthropicTranslator hasTools) hactive hmode hcheck htool hblock,
          send_sentReasoning, checkThinkPrefix_sent hcheck]
        constructor
        · refine fun hquiet => ⟨fun _ st'' hcheck' tool' htool' => .inr ?_, ?_⟩
          · obtain rfl := Option.some.inj (hcheck.symm.trans hcheck')
            obtain rfl := ThinkEnd.tool.inj (htool.symm.trans htool')
            exact hquiet
          · rw [hnone]
            exact fun _ h => by cases h
        · intro hclosed
          rcases hclosed.reasoning hmode st' hcheck tool htool with h | h
          · rw [hblock] at h
            cases h
          · exact h

/-- When the last update leaves no block open. -/
theorem closed_at_end_iff (hactive : st.active = true) (hfits : Fits st blocks.openBlock)
    (hreasons : Reasons st blocks.openBlock) (hprojected : Projected text st)
    (htells : Tells blocks (streamUpdate (anthropicTranslator hasTools) st text text.length true).2 after)
    (hfits' : Fits (streamUpdate (anthropicTranslator hasTools) st text text.length true).1 after.openBlock) :
    (after.openBlock = none ↔ EndsClosed hasTools text st) ∧ after.openBlock ≠ some .text := by
  have hreasons' := reasons_streamUpdate (anthropicTranslator hasTools) text text.length true hactive hfits
    hreasons htells
  have hend : AtEnd hasTools text st _ := streamUpdate_atEnd hactive hprojected
  have hprojected' := projected_streamUpdate (anthropicTranslator hasTools) true (le_refl text.length)
    (le_refl text.length) hprojected
  rw [List.take_length] at hprojected'
  have hbehind : (streamUpdate (anthropicTranslator hasTools) st text text.length true).1.mode ≠ .thinking →
      after.openBlock = (streamUpdate (anthropicTranslator hasTools) st text text.length true).1.tool.openBlock →
      (after.openBlock = none ↔ EndsClosed hasTools text st) ∧ after.openBlock ≠ some .text := by
    intro hmode hopen
    rw [hopen, openBlock_none_iff]
    exact ⟨argsOpen_at_end_iff hactive rfl hmode hend hprojected', openBlock_ne_text _⟩
  cases hmode' : (streamUpdate (anthropicTranslator hasTools) st text text.length true).1.mode with
  | thinking =>
    rw [Fits, hmode'] at hfits'
    rw [← thinking_at_end_iff hactive hmode' hprojected]
    have hopen := hreasons' hmode'
    rcases hfits'.1 with h | h
    · rw [h] at hopen ⊢
      simpa using hopen
    · rw [h] at hopen ⊢
      simpa using hopen
  | text => exact absurd hmode' hend.no_text
  | tool =>
    rw [Fits, hmode'] at hfits'
    exact hbehind (by simp [hmode']) hfits'.1
  | suppress =>
    rw [Fits, hmode'] at hfits'
    exact hbehind (by simp [hmode']) hfits'

/-! ## The end of the message -/

/-- Events are followed one part after the other. -/
theorem follow_after {a b : WireState} {front : List AnthropicEvent} (hfront : follow a front = some b)
    (back : List AnthropicEvent) : follow a (front ++ back) = follow b back := by
  rw [follow, List.foldlM_append]
  rw [follow] at hfront
  rw [hfront]
  rfl

/-- The calls that are sent as a whole, each in a block of its own. -/
theorem follow_toolBlocks (calls : List ToolCall) (next : Nat) :
    follow (.idle next) ((calls.zipIdx next).flatMap fun call => anthropicToolBlock call.2 call.1) =
      some (.idle (next + calls.length)) := by
  induction calls generalizing next with
  | nil => rfl
  | cons call calls ih =>
    have hone : follow (.idle next) (anthropicToolBlock next call) = some (.idle (next + 1)) :=
      follow_append (follow_start next .tool call.name)
        (follow_append (follow_delta next (.inputJson (appendJsonObjectOrEmpty call.arguments))) (follow_stop next))
    rw [List.zipIdx_cons, List.flatMap_cons, follow_after hone, ih, List.length_cons, Nat.add_assoc,
      Nat.add_comm 1]

/-- What `anthropic_sse_finish_live` sends behind the last update. -/
def finishTail (st : ReplyStream) (blocks : AnthropicBlocks) (calls : List ToolCall) : Sent :=
  ((if st.sentReasoning && !st.sentContent && calls.isEmpty then
      (anthropicSseOpenBlock blocks .text []).andThen anthropicSseCloseBlockLive
    else ([], some blocks)).andThen
    (anthropicSseToolBlocksLive st · calls)).andThen anthropicSseStopLive

theorem andThen_assoc (first : Sent) (f g : AnthropicBlocks → Sent) :
    (first.andThen f).andThen g = first.andThen fun blocks => (f blocks).andThen g := by
  unfold Sent.andThen
  cases hfirst : first.2 with
  | none => simp only [hfirst]
  | some blocks =>
    cases hsecond : (f blocks).2 with
    | none => simp only [hsecond]
    | some later => simp only [hsecond, List.append_assoc]

/-- The end of the message, in its three parts. -/
theorem finishLive_eq (htells : Tells blocks (streamUpdate (anthropicTranslator hasTools) st text text.length true).2
    after) (calls : List ToolCall) :
    (anthropicSseFinishLive hasTools st blocks text calls).1 =
      (anthropicActions blocks (streamUpdate (anthropicTranslator hasTools) st text text.length true).2).1 ++
        (finishTail (streamUpdate (anthropicTranslator hasTools) st text text.length true).1 after calls).1 := by
  have hgo : ∀ next : AnthropicBlocks → Sent, ((anthropicActions blocks
      (streamUpdate (anthropicTranslator hasTools) st text text.length true).2).andThen next).1 =
      (anthropicActions blocks (streamUpdate (anthropicTranslator hasTools) st text text.length true).2).1 ++
        (next after).1 := by
    intro next
    rw [Sent.andThen, htells.opened]
  unfold anthropicSseFinishLive finishTail
  simp only [anthropicSseStreamUpdate, andThen_assoc, hgo]
  rfl

/-- With no block open the message ends as it should. -/
theorem finishTail_closed (st : ReplyStream) (next : Nat) (calls : List ToolCall) :
    follow (.idle next) (finishTail st ⟨none, next⟩ calls).1 = some .finished := by
  have hrest : ∀ next, follow (.idle next)
      ((anthropicSseToolBlocksLive st ⟨none, next⟩ calls).andThen anthropicSseStopLive).1 = some .finished := by
    intro next
    refine (follow_after (follow_toolBlocks _ next) _).trans ?_
    simp [anthropicSseStopLive, follow, lifecycle]
  unfold finishTail
  rw [andThen_assoc]
  split
  · have hblock : (anthropicSseOpenBlock ⟨none, next⟩ .text []).andThen anthropicSseCloseBlockLive =
        ([.contentBlockStart next .text [], .contentBlockStop next], some ⟨none, next + 1⟩) := rfl
    rw [hblock]
    refine (follow_after (follow_append (follow_start next .text []) (follow_stop next)) _).trans ?_
    exact hrest (next + 1)
  · exact hrest next

/-- With a block open that is not one of text, it does not. -/
theorem finishTail_open (st : ReplyStream) (type : BlockType) (next : Nat) (calls : List ToolCall)
    (htype : type ≠ .text) : follow (.inside next) (finishTail st ⟨some type, next⟩ calls).1 ≠ some .finished := by
  unfold finishTail
  rw [andThen_assoc]
  split
  · have hblock : (anthropicSseOpenBlock ⟨some type, next⟩ .text []).andThen anthropicSseCloseBlockLive =
        ([], none) := by
      rw [anthropicSseOpenBlock, if_neg (by simpa using htype), if_pos (by simp)]
      rfl
    rw [hblock]
    exact fun h => by cases h
  · have hrest : ∀ (tail : List ToolCall) (later : AnthropicBlocks), follow (.inside next)
        (((tail.zipIdx next).flatMap fun call => anthropicToolBlock call.2 call.1) ++
          (anthropicSseStopLive later).1) ≠ some .finished := by
      intro tail later
      cases tail with
      | nil => simp [anthropicSseStopLive, follow, lifecycle]
      | cons call tail => simp [anthropicToolBlock, follow, lifecycle]
    exact hrest _ _

/-! ## A run -/

/-- What the updates keep. -/
structure Ready (text : List UInt8) (st : ReplyStream) (blocks : AnthropicBlocks) : Prop where
  sound : Sound st
  fits : Fits st blocks.openBlock
  reasons : Reasons st blocks.openBlock
  projected : Projected text st

/-- The start of a reply is such a state. -/
theorem ready_start (thinkEnabled hasTools : Bool) (text : List UInt8) :
    Ready text (ReplyStream.start thinkEnabled hasTools) ⟨none, 0⟩ :=
  ⟨sound_start _ _, fits_start _ _, fun _ => iff_of_false nofun nofun, projected_start _ _ _⟩

/-- The updates open every block they need, and the state they leave is one the last update may meet. -/
theorem ready_grow (hasTools : Bool) (updates : List Update) (front : List UInt8)
    (hspells : front ++ (updates.map Update.piece).flatten <+: text) (h : Ready text st blocks) :
    ∃ after, Ready text (grow (fun st raw rawLen => streamUpdate (anthropicTranslator hasTools) st raw rawLen false)
        front updates st).1 after ∧
      Tells blocks (grow (fun st raw rawLen => streamUpdate (anthropicTranslator hasTools) st raw rawLen false)
        front updates st).2 after := by
  induction updates generalizing front st blocks with
  | nil => exact ⟨blocks, h, Tells.nil blocks⟩
  | cons u updates ih =>
    rw [List.map_cons, List.flatten_cons, ← List.append_assoc] at hspells
    have hfront : front ++ u.piece <+: text := (List.prefix_append _ _).trans hspells
    have htake : front ++ u.piece = text.take (front ++ u.piece).length := List.prefix_iff_eq_take.mp hfront
    obtain ⟨middle, htells, hfits⟩ := (streamUpdate_tells (anthropicTranslator hasTools) (front ++ u.piece)
      ((front ++ u.piece).length - u.held) false blocks.nextIndex h.fits).told
    have hprojected := projected_streamUpdate (anthropicTranslator hasTools) false hfront.length_le
      (Nat.sub_le (front ++ u.piece).length u.held) h.projected
    rw [← htake] at hprojected
    have hready : Ready text (streamUpdate (anthropicTranslator hasTools) st (front ++ u.piece)
        ((front ++ u.piece).length - u.held) false).1 middle :=
      ⟨sound_streamUpdate _ _ _ _ h.sound, hfits,
        reasons_streamUpdate _ _ _ _ h.sound.active h.fits h.reasons htells, hprojected⟩
    obtain ⟨after, hlast, htells'⟩ := ih (front ++ u.piece) hspells hready
    exact ⟨after, hlast, htells.append htells'⟩

/-- The events of an Anthropic reply are balanced if and only if its last update leaves no block open: all
calls of the block that is being read end, and reasoning breaks off at no marker without a block. -/
theorem balanced_iff (thinkEnabled hasTools : Bool) (text : List UInt8) (updates : List Update)
    (calls : List ToolCall) (hspells : (updates.map Update.piece).flatten <+: text) :
    Balanced (anthropicEvents thinkEnabled hasTools text updates calls) ↔
      EndsClosed hasTools text (streamBefore thinkEnabled hasTools updates) := by
  obtain ⟨blocks, hready, htells⟩ := ready_grow hasTools updates [] hspells (ready_start thinkEnabled hasTools text)
  obtain ⟨blocks', -, hstate, htells', hevents⟩ :=
    grow_anthropic hasTools updates [] ⟨none, 0⟩ (fits_start thinkEnabled hasTools)
  obtain rfl := Option.some.inj (htells.opened.symm.trans htells'.opened)
  obtain ⟨after, hlast, hfits⟩ := (streamUpdate_tells (anthropicTranslator hasTools) text text.length true
    blocks.nextIndex hready.fits).told
  obtain ⟨hclosed, hnotext⟩ := closed_at_end_iff hready.sound.active hready.fits hready.reasons hready.projected
    hlast hfits
  have hbegin : follow .begin [.messageStart] = some (AnthropicBlocks.state ⟨none, 0⟩) := by decide
  rw [streamBefore, ← hclosed]
  -- the updates and the last one keep to the lifecycle, so the end of the message decides
  have hwhole : Balanced (anthropicEvents thinkEnabled hasTools text updates calls) ↔
      follow after.state (finishTail (streamUpdate (anthropicTranslator hasTools)
        (grow (fun st raw rawLen => streamUpdate (anthropicTranslator hasTools) st raw rawLen false) [] updates
          (ReplyStream.start thinkEnabled hasTools)).1 text text.length true).1 after calls).1 =
        some .finished := by
    unfold Balanced anthropicEvents anthropicStart
    simp only [hstate, hevents]
    rw [← List.singleton_append, List.append_assoc, follow_after hbegin, follow_after htells.kept,
      finishLive_eq hlast, follow_after hlast.kept]
  rw [hwhole]
  obtain ⟨open_, next⟩ := after
  cases open_ with
  | none => exact iff_of_true (finishTail_closed _ next calls) rfl
  | some type =>
    refine iff_of_false (finishTail_open _ type next calls ?_) nofun
    rintro rfl
    exact hnotext rfl

/-- A call as a whole, and one that breaks off. -/
def wholeCall : List UInt8 := bytes "<tool_calls><invoke name=\"f\"></invoke></tool_calls>"
def brokenCall : List UInt8 := bytes "<tool_calls><invoke name=\"f\">"

theorem balanced_iff_sample :
    Balanced (anthropicEvents false true wholeCall [⟨wholeCall, 0⟩] [⟨bytes "f", bytes "{}"⟩]) ↔
      EndsClosed true wholeCall (streamBefore false true [⟨wholeCall, 0⟩]) :=
  balanced_iff false true wholeCall [⟨wholeCall, 0⟩] [⟨bytes "f", bytes "{}"⟩] (by decide)

/-- The block of a call that breaks off is still open when the message ends. -/
theorem broken_call_unbalanced : ¬ Balanced (anthropicEvents false true brokenCall [⟨brokenCall, 0⟩] []) := by
  decide

end Spark.Server
