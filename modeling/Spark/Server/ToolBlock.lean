import Spark.Server.Dsml
import Spark.Server.JsonArgs

/-!
# What a tool block says

The grammar of a tool block, apart from the parser that reads it.

* **`parseInvokes_of_invokes`** — a block of the grammar is parsed to the calls it holds.
-/

namespace Spark.Server

/-! ## The grammar -/

/-- A parameter with a value of its own. The value stands as it is written, and the type is what the
`string` attribute says. -/
structure Leaf where
  name : List UInt8
  type : Option (List UInt8)
  value : List UInt8
  deriving DecidableEq, Repr

inductive Param where
  | leaf (leaf : Leaf)
  | nested (name : List UInt8) (members : List Leaf)
  deriving DecidableEq, Repr

structure Invoke where
  name : List UInt8
  params : List Param
  deriving DecidableEq, Repr

/-- White space, as C has it. -/
def Spaces (ws : List UInt8) : Prop := ∀ b ∈ ws, isspace b = true

/-- A whole tag that opens with `start` and has a name. -/
structure Tagged (start tag name : List UInt8) : Prop where
  shape : ∃ body, tag = start ++ body ++ [0x3e] ∧ 0x3e ∉ start ++ body
  named : dsmlAttr tag (bytes "name") = some name

/-- A parameter tag, its value and the closing tag, which stands nowhere before. -/
structure LeafText (syn : DsmlSyntax) (leaf : Leaf) (tag text rest : List UInt8) : Prop where
  tagged : Tagged syn.paramStart tag leaf.name
  typed : dsmlAttr tag (bytes "string") = leaf.type
  ends : searchString syn.paramEnd (leaf.value ++ syn.paramEnd ++ rest) = some leaf.value.length
  text_eq : text = tag ++ (leaf.value ++ syn.paramEnd ++ rest)

/-- The parameters inside a parameter, up to where no further one stands. -/
inductive Leaves (syn : DsmlSyntax) : List UInt8 → List Leaf → List UInt8 → Prop where
  | stop {ws rest} (hws : Spaces ws) (hrest : ∀ b ∈ rest.head?, isspace b = false)
      (hstop : syn.paramStart.isPrefixOf rest = false) : Leaves syn (ws ++ rest) [] rest
  | leaf {ws leaf tag text later leaves rest} (hws : Spaces ws)
      (htext : LeafText syn leaf tag text later) (h : Leaves syn later leaves rest) :
      Leaves syn (ws ++ text) (leaf :: leaves) rest

/-- The parameters of a call, up to the end of its closing tag. -/
inductive Params (syn : DsmlSyntax) : List UInt8 → List Param → List UInt8 → Prop where
  | close {ws rest} (hws : Spaces ws) : Params syn (ws ++ (syn.invokeEnd ++ rest)) [] rest
  /-- A value that opens another parameter is one only with the attribute. -/
  | leaf {ws leaf tag text later params rest} (hws : Spaces ws)
      (htext : LeafText syn leaf tag text later)
      (hflat : leaf.type = none →
        syn.paramStart.isPrefixOf (skipAsciiWs (leaf.value ++ syn.paramEnd ++ later)) = false)
      (h : Params syn later params rest) : Params syn (ws ++ text) (.leaf leaf :: params) rest
  | nested {ws tag name inner members later params rest} (hws : Spaces ws)
      (htag : Tagged syn.paramStart tag name) (huntyped : dsmlAttr tag (bytes "string") = none)
      (hopen : syn.paramStart.isPrefixOf (skipAsciiWs inner) = true)
      (hmembers : Leaves syn inner members later)
      (h : Params syn
        (if syn.paramEnd.isPrefixOf later then later.drop syn.paramEnd.length else later) params rest) :
      Params syn (ws ++ (tag ++ inner)) (.nested name members :: params) rest

/-- The calls of a block, up to the end of its closing tag. -/
inductive Invokes (syn : DsmlSyntax) : List UInt8 → List Invoke → List UInt8 → Prop where
  | close {ws rest} (hws : Spaces ws) : Invokes syn (ws ++ (syn.toolCallsEnd ++ rest)) [] rest
  | invoke {ws tag name inner params later invokes rest} (hws : Spaces ws)
      (htag : Tagged syn.invokeStart tag name) (hparams : Params syn inner params later)
      (h : Invokes syn later invokes rest) :
      Invokes syn (ws ++ (tag ++ inner)) (⟨name, params⟩ :: invokes) rest

/-! ## The calls it means -/

def Leaf.isString (leaf : Leaf) : Prop := leaf.type.getD (bytes "true") = bytes "true"

instance (leaf : Leaf) : Decidable leaf.isString := inferInstanceAs (Decidable (_ = _))

def Leaf.addTo (args : List UInt8) (leaf : Leaf) : List UInt8 :=
  toolCallJsonArgsAdd args leaf.name
    (if leaf.isString then dsmlUnescapeText leaf.value else leaf.value) (leaf.type.getD (bytes "true"))

def Param.addTo (args : List UInt8) : Param → List UInt8
  | .leaf arg => arg.addTo args
  | .nested name members =>
    toolCallJsonArgsAdd args name (0x7b :: members.foldl Leaf.addTo [] ++ [0x7d]) (bytes "false")

def Invoke.call (invoke : Invoke) : ToolCall :=
  ⟨invoke.name, 0x7b :: invoke.params.foldl Param.addTo [] ++ [0x7d]⟩

/-! ## Reading markers -/

variable {syn : DsmlSyntax} {ws p rest : List UInt8}

theorem closing_marker : ∀ syn ∈ dsmlSyntaxes,
    ∀ marker ∈ [syn.toolCallsEnd, syn.invokeEnd, syn.paramEnd], marker.take 2 = [0x3c, 0x2f] := by
  decide

theorem opening_marker : ∀ syn ∈ dsmlSyntaxes,
    ∀ marker ∈ [syn.toolCallsStart, syn.invokeStart, syn.paramStart],
      marker.take 1 = [0x3c] ∧ marker.take 2 ≠ [0x3c, 0x2f] ∧ 2 ≤ marker.length := by
  decide

/-- White space before a marker is skipped. -/
theorem skipAsciiWs_spaces (hws : Spaces ws) (hp : ∀ b ∈ p.head?, isspace b = false) :
    skipAsciiWs (ws ++ p) = p := by
  induction ws with
  | nil =>
    cases p with
    | nil => rfl
    | cons b p => exact List.dropWhile_cons_of_neg (by simp [hp b rfl])
  | cons b ws ih =>
    rw [List.cons_append, skipAsciiWs, List.dropWhile_cons_of_pos (hws b List.mem_cons_self)]
    exact ih fun b hb => hws b (List.mem_cons_of_mem _ hb)

theorem isPrefixOf_self_append (front back : List UInt8) :
    front.isPrefixOf (front ++ back) = true :=
  List.isPrefixOf_iff_prefix.mpr (List.prefix_append front back)

/-- No closing marker stands where an opening one does. -/
theorem not_closing {opening closing : List UInt8} (hopening : opening.take 2 ≠ [0x3c, 0x2f])
    (hlength : 2 ≤ opening.length) (hclosing : closing.take 2 = [0x3c, 0x2f]) (back : List UInt8) :
    closing.isPrefixOf (opening ++ back) = false := by
  rw [Bool.eq_false_iff]
  intro hprefix
  obtain ⟨tail, htail⟩ := List.isPrefixOf_iff_prefix.mp hprefix
  have hlength' : 2 ≤ closing.length := by
    have := congrArg List.length hclosing
    simp at this
    omega
  have htake := congrArg (List.take 2) htail
  rw [List.take_append_of_le_length hlength', List.take_append_of_le_length hlength, hclosing] at htake
  exact hopening htake.symm

/-- A tag is a front of the text. -/
theorem dsmlTag_spec {tag : List UInt8} (h : dsmlTag p = some (tag, rest)) :
    p = tag ++ rest ∧ ∃ body, tag = body ++ [0x3e] ∧ 0x3e ∉ body := by
  unfold dsmlTag at h
  split at h
  case isFalse => cases h
  case isTrue hmem =>
    obtain ⟨rfl, rfl⟩ := Prod.mk.inj (Option.some.inj h)
    have hnone : (0x3e : UInt8) ∉ p.takeWhile (· ≠ 0x3e) := fun hin => by
      simpa using List.mem_takeWhile_imp hin
    refine ⟨?_, _, rfl, hnone⟩
    have hsplit := List.takeWhile_append_dropWhile (p := (· ≠ (0x3e : UInt8))) (l := p)
    cases hdrop : p.dropWhile (· ≠ 0x3e) with
    | nil =>
      rw [hdrop, List.append_nil] at hsplit
      rw [hsplit] at hnone
      exact absurd hmem hnone
    | cons b later =>
      have hb : b = 0x3e := by
        have hhead := List.head?_dropWhile_not (· ≠ (0x3e : UInt8)) p
        rw [hdrop] at hhead
        simpa using hhead
      subst hb
      rw [hdrop] at hsplit
      rw [List.drop_one, List.tail_cons, List.append_assoc]
      exact hsplit.symm

theorem dsmlTag_of_tagged {start tag name : List UInt8} (h : Tagged start tag name) (back : List UInt8) :
    dsmlTag (tag ++ back) = some (tag, back) := by
  obtain ⟨body, rfl, hbody⟩ := h.shape
  have hne : ∀ b ∈ start ++ body, decide (b ≠ 0x3e) = true := fun b hb =>
    decide_eq_true (ne_of_mem_of_not_mem hb hbody)
  have hmem : (0x3e : UInt8) ∈ start ++ body ++ [0x3e] ++ back := by simp
  rw [dsmlTag, if_pos hmem, List.append_assoc, List.takeWhile_append_of_pos hne,
    List.dropWhile_append_of_pos hne]
  simp

theorem head_of_take {marker : List UInt8} (h : marker.take 1 = [0x3c]) (back : List UInt8) :
    ∀ b ∈ (marker ++ back).head?, isspace b = false := by
  cases marker with
  | nil => cases h
  | cons c marker =>
    cases h
    simp [isspace]

theorem Tagged.head {start tag name : List UInt8} (h : Tagged start tag name) (hstart : start.take 1 = [0x3c])
    (back : List UInt8) : ∀ b ∈ (tag ++ back).head?, isspace b = false := by
  obtain ⟨body, rfl, -⟩ := h.shape
  rw [List.append_assoc, List.append_assoc]
  exact head_of_take hstart _

theorem Tagged.opens {start tag name : List UInt8} (h : Tagged start tag name) (back : List UInt8) :
    start.isPrefixOf (tag ++ back) = true := by
  obtain ⟨body, rfl, -⟩ := h.shape
  rw [List.append_assoc, List.append_assoc]
  exact isPrefixOf_self_append _ _

theorem Tagged.not_closing {start tag name closing : List UInt8} (h : Tagged start tag name)
    (hopening : start.take 2 ≠ [0x3c, 0x2f]) (hlength : 2 ≤ start.length)
    (hclosing : closing.take 2 = [0x3c, 0x2f]) (back : List UInt8) :
    closing.isPrefixOf (tag ++ back) = false := by
  obtain ⟨body, rfl, -⟩ := h.shape
  rw [List.append_assoc, List.append_assoc]
  exact Server.not_closing hopening hlength hclosing _

/-! ## The parser reads the grammar -/

theorem strstr_eq {p : List UInt8} (h : 0 ∉ p) (needle : List UInt8) :
    strstr p needle = searchString needle p := by
  rw [strstr, cString_eq h]

theorem addLeafArg_of_text {leaf : Leaf} {tag text later args : List UInt8}
    (h : LeafText syn leaf tag text later) (h0 : 0 ∉ text) :
    addLeafArg syn args leaf.name leaf.type (leaf.value ++ syn.paramEnd ++ later) =
      some (leaf.addTo args, later) := by
  have h0' : 0 ∉ leaf.value ++ syn.paramEnd ++ later := by
    rw [h.text_eq, List.mem_append, not_or] at h0
    exact h0.2
  have hdrop : (leaf.value ++ syn.paramEnd ++ later).drop (leaf.value.length + syn.paramEnd.length) =
      later := by
    rw [← List.length_append]
    exact List.drop_left
  simp only [addLeafArg, strstr_eq h0', h.ends, hdrop]
  rw [List.append_assoc, List.take_left]
  rfl

theorem dsmlNestedLoop_of_leaves (hsyn : syn ∈ dsmlSyntaxes) {leaves : List Leaf} (h : Leaves syn p leaves rest)
    (h0 : 0 ∉ p) {fuel : Nat} (hfuel : p.length < fuel) (members : List UInt8) (any : Bool) :
    dsmlNestedLoop syn fuel p members any =
      some ((leaves.foldl Leaf.addTo members, any || !leaves.isEmpty), rest) := by
  obtain ⟨hhead, -, -⟩ := opening_marker syn hsyn syn.paramStart (by simp)
  induction h generalizing fuel members any with
  | stop hws hrest hstop =>
    obtain ⟨fuel, rfl⟩ : ∃ k, fuel = k + 1 := ⟨fuel - 1, by omega⟩
    rw [dsmlNestedLoop, skipAsciiWs_spaces hws hrest, if_neg (by simp [hstop])]
    simp
  | @leaf ws leaf tag text later leaves rest hws htext _ ih =>
    obtain ⟨fuel, rfl⟩ : ∃ k, fuel = k + 1 := ⟨fuel - 1, by omega⟩
    have htextEq := htext.text_eq
    rw [List.mem_append, not_or] at h0
    have hskip : skipAsciiWs (ws ++ text) = text := by
      rw [htextEq]
      exact skipAsciiWs_spaces hws (htext.tagged.head hhead _)
    have hopens : syn.paramStart.isPrefixOf text = true := by
      rw [htextEq]
      exact htext.tagged.opens _
    have hleaf : dsmlParseLeafParamJson syn text members = some (leaf.addTo members, later) := by
      rw [dsmlParseLeafParamJson, if_pos hopens, htextEq, dsmlTag_of_tagged htext.tagged]
      simp only [htext.tagged.named, htext.typed]
      exact addLeafArg_of_text htext h0.2
    have hlater : 0 ∉ later ∧ later.length < fuel := by
      rw [htextEq] at h0 hfuel
      simp only [List.mem_append, not_or, List.length_append] at h0 hfuel
      obtain ⟨body, hbody, -⟩ := htext.tagged.shape
      have hlength := congrArg List.length hbody
      simp only [List.length_append, List.length_singleton] at hlength
      exact ⟨h0.2.2.2, by omega⟩
    rw [dsmlNestedLoop, hskip, if_pos hopens, hleaf]
    simp only [ih hlater.1 hlater.2]
    simp

theorem dsmlParseNestedParamsObject_of_leaves (hsyn : syn ∈ dsmlSyntaxes) {leaves : List Leaf}
    (h : Leaves syn p leaves rest) (h0 : 0 ∉ p)
    (hopen : syn.paramStart.isPrefixOf (skipAsciiWs p) = true) :
    dsmlParseNestedParamsObject syn p = some (0x7b :: leaves.foldl Leaf.addTo [] ++ [0x7d], rest) := by
  have hany : leaves.isEmpty = false := by
    cases h with
    | stop hws hrest hstop =>
      rw [skipAsciiWs_spaces hws hrest, hstop] at hopen
      cases hopen
    | leaf => rfl
  rw [dsmlParseNestedParamsObject, dsmlNestedLoop_of_leaves hsyn h h0 (Nat.lt_succ_self _), hany]
  rfl

theorem LeafText.suffix {leaf : Leaf} {tag text later : List UInt8} (h : LeafText syn leaf tag text later) :
    later <:+ text := by
  rw [h.text_eq, ← List.append_assoc]
  exact List.suffix_append _ _

theorem Leaves.suffix {leaves : List Leaf} (h : Leaves syn p leaves rest) : rest <:+ p := by
  induction h with
  | stop => exact List.suffix_append _ _
  | leaf hws htext _ ih => exact (ih.trans htext.suffix).trans (List.suffix_append _ _)

theorem Leaves.skipAsciiWs {leaves : List Leaf} (h : Leaves syn p leaves rest) :
    Server.skipAsciiWs rest = rest := by
  induction h with
  | stop hws hrest hstop => exact @skipAsciiWs_spaces [] _ (by simp [Spaces]) hrest
  | leaf hws htext _ ih => exact ih

theorem Params.suffix {params : List Param} (h : Params syn p params rest) : rest <:+ p := by
  induction h with
  | @close ws rest hws => exact (List.suffix_append _ rest).trans (List.suffix_append _ _)
  | leaf hws htext _ _ ih => exact (ih.trans htext.suffix).trans (List.suffix_append _ _)
  | nested hws htag huntyped hopen hmembers _ ih =>
    refine (ih.trans ?_).trans ((hmembers.suffix.trans (List.suffix_append _ _)).trans (List.suffix_append _ _))
    split
    · exact List.drop_suffix _ _
    · exact List.suffix_rfl

theorem Tagged.length_pos {start tag name : List UInt8} (h : Tagged start tag name) : 0 < tag.length := by
  obtain ⟨body, rfl, -⟩ := h.shape
  simp only [List.length_append, List.length_singleton]
  omega

theorem parseParams_of_params (hsyn : syn ∈ dsmlSyntaxes) {params : List Param}
    (h : Params syn p params rest) (h0 : 0 ∉ p) {fuel : Nat} (hfuel : p.length < fuel) (args : List UInt8) :
    parseParams syn fuel p args = some (params.foldl Param.addTo args, rest) := by
  obtain ⟨hhead, hopening, hlength⟩ := opening_marker syn hsyn syn.paramStart (by simp)
  have hclosing := closing_marker syn hsyn syn.invokeEnd (by simp)
  have hcloseHead : syn.invokeEnd.take 1 = [0x3c] := by
    have := congrArg (List.take 1) hclosing
    rwa [List.take_take] at this
  induction h generalizing fuel args with
  | @close ws rest hws =>
    obtain ⟨fuel, rfl⟩ : ∃ k, fuel = k + 1 := ⟨fuel - 1, by omega⟩
    rw [parseParams, skipAsciiWs_spaces hws (head_of_take hcloseHead rest),
      if_pos (isPrefixOf_self_append _ _), List.drop_left]
    rfl
  | @leaf ws leaf tag text later params rest hws htext hflat _ ih =>
    obtain ⟨fuel, rfl⟩ : ∃ k, fuel = k + 1 := ⟨fuel - 1, by omega⟩
    have htextEq := htext.text_eq
    rw [List.mem_append, not_or] at h0
    have hlater : 0 ∉ later ∧ later.length < fuel := by
      have hpos := htext.tagged.length_pos
      rw [htextEq] at h0 hfuel
      simp only [List.mem_append, not_or, List.length_append] at h0 hfuel
      exact ⟨h0.2.2.2, by omega⟩
    have hskip : skipAsciiWs (ws ++ text) = text := by
      rw [htextEq]
      exact skipAsciiWs_spaces hws (htext.tagged.head hhead _)
    have hclose : syn.invokeEnd.isPrefixOf text = false := by
      rw [htextEq]
      exact htext.tagged.not_closing hopening hlength hclosing _
    have hopens : syn.paramStart.isPrefixOf text = true := by
      rw [htextEq]
      exact htext.tagged.opens _
    have hvalue := @addLeafArg_of_text syn leaf tag text later args htext h0.2
    have hnext := ih hlater.1 hlater.2 (leaf.addTo args)
    rw [parseParams, hskip, if_neg (by simp [hclose]), if_pos hopens]
    rw [htextEq, dsmlTag_of_tagged htext.tagged]
    simp only [htext.tagged.named, htext.typed]
    cases htype : leaf.type with
    | none =>
      rw [htype] at hvalue
      simp only [hflat htype, Bool.false_eq_true, if_false, hvalue, hnext]
      rfl
    | some type =>
      rw [htype] at hvalue
      simp only [hvalue, hnext]
      rfl
  | @nested ws tag name inner members later params rest hws htag huntyped hopen hmembers _ ih =>
    obtain ⟨fuel, rfl⟩ : ∃ k, fuel = k + 1 := ⟨fuel - 1, by omega⟩
    have hpos := htag.length_pos
    simp only [List.mem_append, not_or, List.length_append] at h0 hfuel
    have hlater0 : 0 ∉ later := fun hmem => h0.2.2 (hmembers.suffix.mem hmem)
    have hlaterLength := hmembers.suffix.length_le
    have hskip : skipAsciiWs (ws ++ (tag ++ inner)) = tag ++ inner :=
      skipAsciiWs_spaces hws (htag.head hhead _)
    have hlater : skipAsciiWs later = later := hmembers.skipAsciiWs
    rw [parseParams, hskip, if_neg (by simp [htag.not_closing hopening hlength hclosing]),
      if_pos (htag.opens _), dsmlTag_of_tagged htag]
    simp only [htag.named, huntyped, hopen, if_true,
      dsmlParseNestedParamsObject_of_leaves hsyn hmembers h0.2.2 hopen, hlater]
    refine (ih ?_ ?_ _).trans ?_
    · split
      · exact fun hmem => hlater0 (List.mem_of_mem_drop hmem)
      · exact hlater0
    · split
      · rw [List.length_drop]
        omega
      · omega
    · rfl

/-- A block of the grammar is parsed to the calls it holds. -/
theorem parseInvokes_of_invokes (hsyn : syn ∈ dsmlSyntaxes) {invokes : List Invoke}
    (h : Invokes syn p invokes rest) (h0 : 0 ∉ p) {fuel : Nat} (hfuel : p.length < fuel)
    (calls : List ToolCall) :
    parseInvokes syn fuel p calls = some (calls ++ invokes.map Invoke.call, rest) := by
  obtain ⟨hhead, hopening, hlength⟩ := opening_marker syn hsyn syn.invokeStart (by simp)
  have hclosing := closing_marker syn hsyn syn.toolCallsEnd (by simp)
  have hcloseHead : syn.toolCallsEnd.take 1 = [0x3c] := by
    have := congrArg (List.take 1) hclosing
    rwa [List.take_take] at this
  induction h generalizing fuel calls with
  | @close ws rest hws =>
    obtain ⟨fuel, rfl⟩ : ∃ k, fuel = k + 1 := ⟨fuel - 1, by omega⟩
    rw [parseInvokes, skipAsciiWs_spaces hws (head_of_take hcloseHead rest),
      if_pos (isPrefixOf_self_append _ _), List.drop_left]
    simp
  | @invoke ws tag name inner params later invokes rest hws htag hparams _ ih =>
    obtain ⟨fuel, rfl⟩ : ∃ k, fuel = k + 1 := ⟨fuel - 1, by omega⟩
    have hpos := htag.length_pos
    simp only [List.mem_append, not_or, List.length_append] at h0 hfuel
    have hlaterLength := hparams.suffix.length_le
    have hskip : skipAsciiWs (ws ++ (tag ++ inner)) = tag ++ inner :=
      skipAsciiWs_spaces hws (htag.head hhead _)
    rw [parseInvokes, hskip, if_neg (by simp [htag.not_closing hopening hlength hclosing]),
      if_pos (htag.opens _), dsmlTag_of_tagged htag]
    simp only [htag.named, parseParams_of_params hsyn hparams h0.2.2 (Nat.lt_succ_self _)]
    refine (ih (fun hmem => h0.2.2 (hparams.suffix.mem hmem)) (by omega) _).trans ?_
    simp [Invoke.call]

end Spark.Server
