import Spark.Server.ToolBlock

/-!
# The arguments of a parsed call are JSON

* **`read_arguments`** — the arguments of a call read as the object its parameters mean.
* **`read_rewritten`** — so do they once the server has taken them apart and written them again.
-/

namespace Spark.Server

open Json

/-! ## What parameters mean -/

/-- The member a parameter with a value of its own is, where its value is a string or one JSON value
with at most `limit` brackets open at once. -/
def Leaf.Means (limit : Nat) (leaf : Leaf) (member : List UInt8 × Value) : Prop :=
  member.1 = leaf.name ∧
    if leaf.isString then member.2 = .string (dsmlUnescapeText leaf.value)
    else read limit leaf.value = some member.2

/-- The member a parameter is. The server's own JSON goes `jsonMaxNesting` levels deep, and a string
that is written as JSON holds no `\u0000`. -/
inductive Param.Means : Param → List UInt8 × Value → Prop where
  | leaf {leaf member} (h : leaf.Means jsonMaxNesting member) (hplain : ¬ leaf.isString → Plain member.2) :
      Param.Means (.leaf leaf) member
  | nested {name members inner} (h : List.Forall₂ (Leaf.Means (jsonMaxNesting - 1)) members inner) :
      Param.Means (.nested name members) (name, .object inner)

/-- Every parameter of every call is a member. -/
def Meaningful (invokes : List Invoke) : Prop :=
  ∀ invoke ∈ invokes, ∃ members, List.Forall₂ Param.Means invoke.params members

/-! ## How they are written -/

/-- The text of a value in the arguments. -/
def argText (value type : List UInt8) : List UInt8 :=
  if type = bytes "true" then jsonEscape value
  else
    let min := jsonMinifyRawValue value
    if min = [] then bytes "null" else min

def Leaf.item (leaf : Leaf) : List UInt8 × List UInt8 :=
  (jsonEscape leaf.name, argText (if leaf.isString then dsmlUnescapeText leaf.value else leaf.value)
    (leaf.type.getD (bytes "true")))

def Param.item : Param → List UInt8 × List UInt8
  | .leaf arg => arg.item
  | .nested name members =>
    (jsonEscape name, argText (0x7b :: membersText spaced spaced (members.map Leaf.item) ++ [0x7d])
      (bytes "false"))

/-- One more member behind the ones there are. -/
def addItem (args : List UInt8) (item : List UInt8 × List UInt8) : List UInt8 :=
  args ++ (if args = [] then [] else 0x2c :: spaced) ++ memberText spaced item

theorem toolCallJsonArgsAdd_eq (args name value type : List UInt8) :
    toolCallJsonArgsAdd args name value type = addItem args (jsonEscape name, argText value type) := by
  have hcolon : bytes ": " = 0x3a :: spaced := rfl
  have hcomma : bytes ", " = 0x2c :: spaced := rfl
  simp only [toolCallJsonArgsAdd, addItem, memberText, argText, hcolon, hcomma, List.append_assoc]

theorem addItem_ne_nil (args : List UInt8) (item : List UInt8 × List UInt8) : addItem args item ≠ [] := by
  simp [addItem, memberText]

theorem foldl_addItem {args : List UInt8} (hargs : args ≠ []) (items : List (List UInt8 × List UInt8)) :
    items.foldl addItem args =
      args ++ items.flatMap fun item => 0x2c :: spaced ++ memberText spaced item := by
  induction items generalizing args with
  | nil => simp
  | cons item items ih =>
    rw [List.foldl_cons, ih (addItem_ne_nil _ _), addItem, if_neg hargs]
    simp

theorem foldl_addItem_nil (items : List (List UInt8 × List UInt8)) :
    items.foldl addItem [] = membersText spaced spaced items := by
  cases items with
  | nil => rfl
  | cons item items =>
    rw [List.foldl_cons, foldl_addItem (addItem_ne_nil _ _)]
    rfl

theorem foldl_leaves (members : List Leaf) :
    members.foldl Leaf.addTo [] = membersText spaced spaced (members.map Leaf.item) := by
  rw [← foldl_addItem_nil, List.foldl_map]
  congr 1
  funext args leaf
  exact toolCallJsonArgsAdd_eq _ _ _ _

theorem foldl_params (params : List Param) :
    params.foldl Param.addTo [] = membersText spaced spaced (params.map Param.item) := by
  rw [← foldl_addItem_nil, List.foldl_map]
  congr 1
  funext args param
  cases param with
  | leaf leaf => exact toolCallJsonArgsAdd_eq _ _ _ _
  | nested name members =>
    rw [Param.addTo, foldl_leaves]
    exact toolCallJsonArgsAdd_eq _ _ _ _

/-! ## What the text reads as -/

theorem read_argText {limit : Nat} {value type : List UInt8} {v : Value}
    (htype : type ≠ bytes "true") (h : read limit value = some v) :
    read limit (argText value type) = some v := by
  have hmin := read_jsonMinifyRawValue h
  have hne : jsonMinifyRawValue value ≠ [] := by
    intro hnil
    rw [hnil] at hmin
    cases hmin
  rw [argText, if_neg htype]
  simp only [if_neg hne]
  exact hmin

theorem Leaf.Means.reads {limit : Nat} {leaf : Leaf} {member : List UInt8 × Value} (h : leaf.Means limit member) :
    MemberReads limit leaf.item member := by
  obtain ⟨hname, hvalue⟩ := h
  refine ⟨by rw [hname]; exact quotes_jsonEscape _, ?_⟩
  by_cases hstring : leaf.isString
  · have hitem : leaf.item.2 = jsonEscape (dsmlUnescapeText leaf.value) := by
      simp only [Leaf.item, if_pos hstring]
      exact if_pos hstring
    rw [if_pos hstring] at hvalue
    rw [hitem, hvalue]
    exact read_quotes (quotes_jsonEscape _)
  · have hitem : leaf.item.2 = argText leaf.value (leaf.type.getD (bytes "true")) := by
      simp only [Leaf.item, if_neg hstring]
    rw [if_neg hstring] at hvalue
    rw [hitem]
    exact read_argText hstring hvalue

theorem Param.Means.reads {param : Param} {member : List UInt8 × Value} (h : param.Means member) :
    MemberReads jsonMaxNesting param.item member := by
  cases h with
  | leaf h => exact h.reads
  | @nested name members inner h =>
    have hreads := h.imp fun leaf member hleaf => hleaf.reads
    have hobject := @read_object _ spaced spaced (by simp [spaced, isWs])
      (by simp [spaced, isWs]) _ _ (List.forall₂_map_left_iff.mpr hreads)
    have htype : bytes "false" ≠ bytes "true" := by decide
    exact ⟨quotes_jsonEscape _, read_argText htype hobject⟩

/-- The arguments of a call read as the object its parameters mean. -/
theorem read_arguments {invoke : Invoke} {members : List (List UInt8 × Value)}
    (h : List.Forall₂ Param.Means invoke.params members) :
    read (jsonMaxNesting + 1) invoke.call.arguments = some (.object members) := by
  show read _ (0x7b :: invoke.params.foldl Param.addTo [] ++ [0x7d]) = _
  rw [foldl_params]
  have hreads := h.imp fun param member hparam => hparam.reads
  exact read_object (by simp [spaced, isWs]) (by simp [spaced, isWs]) (List.forall₂_map_left_iff.mpr hreads)

/-! ## C strings all through -/

theorem dsmlEntity_ne_zero {s : List UInt8} {decoded : UInt8} {skip : Nat}
    (h : dsmlEntity s = some (decoded, skip)) : decoded ≠ 0 := by
  unfold dsmlEntity at h
  split_ifs at h <;> cases h <;> decide

theorem not_mem_dsmlUnescapeLoop {s : List UInt8} (h0 : 0 ∉ s) (skip : Nat) : 0 ∉ dsmlUnescapeLoop skip s := by
  induction s generalizing skip with
  | nil => cases skip <;> simp [dsmlUnescapeLoop]
  | cons c s ih =>
    rw [List.mem_cons, not_or] at h0
    cases skip with
    | succ skip => exact ih h0.2 skip
    | zero =>
      rw [dsmlUnescapeLoop]
      split
      · next decoded skip hentity =>
        rw [List.mem_cons, not_or]
        exact ⟨(dsmlEntity_ne_zero hentity).symm, ih h0.2 skip⟩
      · rw [List.mem_cons, not_or]
        exact ⟨h0.1, ih h0.2 0⟩

theorem not_mem_dsmlAttr {tag name value : List UInt8} (h0 : 0 ∉ tag) (h : dsmlAttr tag name = some value) :
    0 ∉ value := by
  simp only [dsmlAttr] at h
  split at h
  · cases h
  · split at h
    · cases h
      refine not_mem_dsmlUnescapeLoop (fun hmem => h0 ?_) 0
      exact List.mem_of_mem_drop ((List.takeWhile_sublist _).mem hmem)
    · cases h

/-- A name without a zero byte, and a string without one. -/
def Param.Clean : Param → Prop
  | .leaf arg => 0 ∉ arg.name ∧ (arg.isString → 0 ∉ arg.value)
  | .nested name _ => 0 ∉ name

theorem Params.clean {syn : DsmlSyntax} {p rest : List UInt8} {params : List Param}
    (h : Params syn p params rest) (h0 : 0 ∉ p) : ∀ param ∈ params, param.Clean := by
  induction h with
  | close => simp
  | leaf hws htext hflat _ ih =>
    rw [List.mem_append, not_or] at h0
    have hlater := ih fun hmem => h0.2 (htext.suffix.mem hmem)
    rw [htext.text_eq] at h0
    simp only [List.mem_append, not_or] at h0
    have hname := not_mem_dsmlAttr h0.2.1 htext.tagged.named
    exact List.forall_mem_cons.mpr ⟨⟨hname, fun _ => h0.2.2.1.1⟩, hlater⟩
  | @nested ws tag name inner members later params rest hws htag huntyped hopen hmembers _ ih =>
    simp only [List.mem_append, not_or] at h0
    have hlater := ih (by
      intro hmem
      split at hmem
      · exact h0.2.2 (hmembers.suffix.mem (List.mem_of_mem_drop hmem))
      · exact h0.2.2 (hmembers.suffix.mem hmem))
    have hname := not_mem_dsmlAttr h0.2.1 htag.named
    exact List.forall_mem_cons.mpr ⟨hname, hlater⟩

theorem Invokes.clean {syn : DsmlSyntax} {p rest : List UInt8} {invokes : List Invoke}
    (h : Invokes syn p invokes rest) (h0 : 0 ∉ p) :
    ∀ invoke ∈ invokes, ∀ param ∈ invoke.params, param.Clean := by
  induction h with
  | close => simp
  | invoke hws htag hparams _ ih =>
    simp only [List.mem_append, not_or] at h0
    have hlater := ih fun hmem => h0.2.2 (hparams.suffix.mem hmem)
    exact List.forall_mem_cons.mpr ⟨hparams.clean h0.2.2, hlater⟩

theorem Param.Means.plainMember {param : Param} {member : List UInt8 × Value} (h : param.Means member)
    (hclean : param.Clean) : PlainMember param.item member := by
  refine ⟨h.reads, ?_⟩
  cases h with
  | @leaf leaf member h hplain =>
    refine ⟨by rw [h.1]; exact hclean.1, ?_⟩
    by_cases hstring : leaf.isString
    · have hvalue := h.2
      rw [if_pos hstring] at hvalue
      intro s hs
      rw [hvalue] at hs
      cases hs
      exact not_mem_dsmlUnescapeLoop (hclean.2 hstring) 0
    · exact hplain hstring
  | @nested name members inner h =>
    refine ⟨show 0 ∉ name from hclean, ?_⟩
    intro s hs
    cases hs

/-- Taking the arguments of a call apart and writing them again leaves the object its parameters mean. -/
theorem read_rewritten {invoke : Invoke} {members : List (List UInt8 × Value)}
    (h : List.Forall₂ Param.Means invoke.params members) (hclean : ∀ param ∈ invoke.params, param.Clean) :
    read (jsonMaxNesting + 1) (appendJsonObjectOrEmpty invoke.call.arguments) = some (.object members) := by
  have hmembers : List.Forall₂ PlainMember (invoke.params.map Param.item) members := by
    rw [List.forall₂_map_left_iff]
    have hboth := (List.forall₂_and_left _ _).mpr ⟨hclean, h⟩
    exact hboth.imp fun param member hparam => hparam.2.plainMember hparam.1
  show read _ (appendJsonObjectOrEmpty (0x7b :: invoke.params.foldl Param.addTo [] ++ [0x7d])) = _
  rw [foldl_params]
  exact read_appendJsonObjectOrEmpty hmembers

end Spark.Server
