import Spark.Server.Entities
import Spark.Server.GlmCalls
import Spark.Server.Markers

/-!
# GLM calls, written and read again

The renderer protects in a key and in a value only the tag that closes it; the parser takes the first
`</tool_call>` for the end of a call.

* **`glmCallsLoop_call`** — a call is read up to its closing tag, unless one stands in an argument.
* **`glmCallsLoop_calls`** — so are all of them.
-/

namespace Spark.Server

open Spark.Search

variable {arg : JsonArg} {rest p : List UInt8} {close fuel : Nat}

/-! ## One argument -/

theorem appendGlmArg_eq (arg : JsonArg) (rest : List UInt8) : appendGlmArg arg ++ rest =
    glmArgKeyStart ++ (appendGlmArgKeyText arg.key ++ (glmArgKeyEnd ++ (glmArgValueStart ++
      (appendGlmArgValueText arg.value ++ (glmArgValueEnd ++ rest))))) := by
  have hmiddle : bytes "</arg_key><arg_value>" = glmArgKeyEnd ++ glmArgValueStart := by decide
  rw [appendGlmArg, hmiddle]
  simp only [List.append_assoc]
  rfl

theorem skipAsciiWs_tag {tag : List UInt8} (htag : tag.head? = some 0x3c) (rest : List UInt8) :
    skipAsciiWs (tag ++ rest) = tag ++ rest := by
  cases tag with
  | nil => cases htag
  | cons b tag =>
    cases htag
    exact List.dropWhile_cons_of_neg (by decide)

theorem strstr_escaped {word : List UInt8} (hword : Protects 0x3c 0x26 word (bytes "&lt;")) (hfirst : 0x26 ∉ word)
    (text : List UInt8) (h0 : 0 ∉ escapeWord word (bytes "&lt;") text ++ (word ++ rest)) :
    strstr (escapeWord word (bytes "&lt;") text ++ (word ++ rest)) word =
      some (escapeWord word (bytes "&lt;") text).length := by
  have hne : word ≠ [] := by
    rintro rfl
    cases hword.head
  exact (strstr_first hne h0).unique (first_escapeWord hword hfirst text rest)

/-- What is read of an argument. -/
def glmAdd (args : List UInt8) (arg : JsonArg) : List UInt8 :=
  toolCallJsonArgsAdd args (dsmlUnescapeText (trimConstSpan (appendGlmArgKeyText arg.key)))
    (dsmlUnescapeText (appendGlmArgValueText arg.value)) (bytes "true")

/-- An argument is read, unless the call is taken to end in front of the argument's end. -/
theorem glmArgsLoop_arg (h0 : 0 ∉ appendGlmArg arg ++ rest) (args : List UInt8) :
    glmArgsLoop close (fuel + 1) (appendGlmArg arg ++ rest) args =
      if (glmArgValueEnd ++ rest).length < close then none else glmArgsLoop close fuel rest (glmAdd args arg) := by
  rw [appendGlmArg_eq] at h0 ⊢
  have h0key : 0 ∉ appendGlmArgKeyText arg.key ++ (glmArgKeyEnd ++ (glmArgValueStart ++
      (appendGlmArgValueText arg.value ++ (glmArgValueEnd ++ rest)))) := fun hmem => h0 (List.mem_append_right _ hmem)
  have h0value : 0 ∉ appendGlmArgValueText arg.value ++ (glmArgValueEnd ++ rest) := fun hmem =>
    h0key (List.mem_append_right _ (List.mem_append_right _ (List.mem_append_right _ hmem)))
  have hkey : strstr (appendGlmArgKeyText arg.key ++ (glmArgKeyEnd ++ (glmArgValueStart ++
      (appendGlmArgValueText arg.value ++ (glmArgValueEnd ++ rest))))) glmArgKeyEnd =
        some (appendGlmArgKeyText arg.key).length :=
    strstr_escaped (protects_entity rfl (by decide)) (by decide) arg.key h0key
  have hvalue : strstr (appendGlmArgValueText arg.value ++ (glmArgValueEnd ++ rest)) glmArgValueEnd =
      some (appendGlmArgValueText arg.value).length :=
    strstr_escaped (protects_entity rfl (by decide)) (by decide) arg.value h0value
  have hnotEnd (back : List UInt8) : ¬ glmToolEnd.isPrefixOf (glmArgKeyStart ++ back) = true := by
    rw [Bool.not_eq_true]
    rfl
  rw [glmArgsLoop, skipAsciiWs_tag rfl]
  simp only [if_neg (hnotEnd _), isPrefixOf_self_append, if_true, List.drop_left, hkey, List.take_left]
  have hdropKey (back : List UInt8) : (appendGlmArgKeyText arg.key ++ (glmArgKeyEnd ++ back)).drop
      ((appendGlmArgKeyText arg.key).length + glmArgKeyEnd.length) = back := by
    rw [← List.append_assoc, ← List.length_append, List.drop_left]
  have hdropValue (back : List UInt8) : (appendGlmArgValueText arg.value ++ (glmArgValueEnd ++ back)).drop
      ((appendGlmArgValueText arg.value).length + glmArgValueEnd.length) = back := by
    rw [← List.append_assoc, ← List.length_append, List.drop_left]
  simp only [hdropKey, @skipAsciiWs_tag glmArgValueStart rfl, isPrefixOf_self_append, if_true,
    List.drop_left, hvalue, List.take_left, hdropValue]
  rw [List.length_append, Nat.add_sub_cancel_left, @List.length_append _ (appendGlmArgValueText arg.value),
    Nat.add_sub_cancel_left]
  by_cases hclose : (glmArgValueEnd ++ rest).length < close
  · rw [if_pos hclose, if_pos hclose, ite_self]
  · rw [if_neg hclose, if_neg hclose, if_neg]
    · rfl
    · simp only [List.length_append] at hclose ⊢
      omega

/-! ## The closing tag of a call -/

/-- How much is left from the first `</tool_call>` on. -/
def closeLeft (p : List UInt8) : Option Nat := (searchString glmToolEnd p).map (p.length - ·)

/-- An argument that has a `</tool_call>` in it. -/
def Closing (arg : JsonArg) : Prop := glmToolEnd <:+: arg.key ∨ glmToolEnd <:+: arg.value

instance (arg : JsonArg) : Decidable (Closing arg) := inferInstanceAs (Decidable (_ ∨ _))

theorem glmToolEnd_ne_nil : glmToolEnd ≠ [] := by decide

/-- Where none begins, the first one is further on. -/
theorem closeLeft_append {front back : List UInt8}
    (h : ∀ i, i < front.length → ¬ Occurs glmToolEnd (front ++ back) i) :
    closeLeft (front ++ back) = closeLeft back := by
  have hback (i : Nat) : Occurs glmToolEnd (front ++ back) (front.length + i) ↔ Occurs glmToolEnd back i := by
    rw [← occurs_drop, List.drop_left]
  have hshift := ((searchString_first glmToolEnd_ne_nil back).congr fun i => (hback i).symm).shift
  have hfirst := hshift.congr fun i => ⟨And.right, fun hat => ⟨not_lt.mp fun hlt => h i hlt hat, hat⟩⟩
  rw [closeLeft, closeLeft, (searchString_first glmToolEnd_ne_nil _).unique hfirst, Option.map_map]
  congr 1
  funext i
  simp only [Function.comp_apply, List.length_append]
  omega

/-- Where one does, more than what is behind is left. -/
theorem closeLeft_of_occurs {front back : List UInt8} {i : Nat} (hi : i < front.length)
    (hat : Occurs glmToolEnd (front ++ back) i) : ∃ left, closeLeft (front ++ back) = some left ∧ back.length < left := by
  have hfirst := searchString_first glmToolEnd_ne_nil (front ++ back)
  cases hsearch : searchString glmToolEnd (front ++ back) with
  | none =>
    rw [hsearch] at hfirst
    exact absurd hat (hfirst i)
  | some k =>
    rw [hsearch] at hfirst
    have hle : k ≤ i := not_lt.mp fun hlt => hfirst.2 i hlt hat
    refine ⟨(front ++ back).length - k, by rw [closeLeft, hsearch]; rfl, ?_⟩
    rw [List.length_append]
    omega

/-- An argument up to the tag that closes its value. -/
def argFront (arg : JsonArg) : List UInt8 :=
  glmArgKeyStart ++ (appendGlmArgKeyText arg.key ++ (glmArgKeyEnd ++ (glmArgValueStart ++
    appendGlmArgValueText arg.value)))

theorem appendGlmArg_front (arg : JsonArg) (rest : List UInt8) :
    appendGlmArg arg ++ rest = argFront arg ++ (glmArgValueEnd ++ rest) := by
  rw [appendGlmArg_eq, argFront]
  simp only [List.append_assoc]

theorem infix_key (key : List UInt8) : glmToolEnd <:+: appendGlmArgKeyText key ↔ glmToolEnd <:+: key :=
  infix_escapeWord (protects_entity rfl (by decide)) rfl (by decide) (by decide) (by decide) (by decide)

theorem infix_value (value : List UInt8) : glmToolEnd <:+: appendGlmArgValueText value ↔ glmToolEnd <:+: value :=
  infix_escapeWord (protects_entity rfl (by decide)) rfl (by decide) (by decide) (by decide) (by decide)

theorem infix_argFront (arg : JsonArg) : glmToolEnd <:+: argFront arg ↔ Closing arg := by
  rw [argFront, infix_tag rfl rfl (by decide) (not_prefix_append (by decide) (by decide)),
    show glmToolEnd = 0x3c :: glmToolEnd.tail from rfl, infix_append_of_head rfl (by decide)]
  refine or_congr (infix_key arg.key) ?_
  rw [← infix_value, infix_tag rfl rfl (by decide) (not_prefix_append (by decide) (by decide)),
    infix_tag rfl rfl (by decide) (not_prefix_append (by decide) (by decide))]
  rfl

theorem occurs_argFront (arg : JsonArg) (rest : List UInt8) {i : Nat} (hi : i < (argFront arg).length) :
    Occurs glmToolEnd (argFront arg ++ (glmArgValueEnd ++ rest)) i ↔ Occurs glmToolEnd (argFront arg) i :=
  occurs_append_of_head (by decide) rfl hi

theorem closeLeft_arg (harg : ¬ Closing arg) (rest : List UInt8) :
    closeLeft (appendGlmArg arg ++ rest) = closeLeft rest := by
  have hend : ¬ glmToolEnd <+: glmArgValueEnd ++ rest := not_prefix_append (by decide) (by decide)
  rw [appendGlmArg_front, closeLeft_append, closeLeft_append]
  · exact fun i hi => not_occurs_tag rfl (by decide) hend hi
  · intro i hi hat
    rw [occurs_argFront arg rest hi] at hat
    exact harg ((infix_argFront arg).mp (infix_iff_occurs.mpr ⟨i, hat⟩))

theorem closeLeft_closing (harg : Closing arg) (rest : List UInt8) :
    ∃ left, closeLeft (appendGlmArg arg ++ rest) = some left ∧ (glmArgValueEnd ++ rest).length < left := by
  obtain ⟨i, hat⟩ := infix_iff_occurs.mp ((infix_argFront arg).mpr harg)
  have hi : i < (argFront arg).length := by
    have hle := hat.le glmToolEnd_ne_nil
    have hpos := List.length_pos_of_ne_nil glmToolEnd_ne_nil
    omega
  rw [appendGlmArg_front]
  exact closeLeft_of_occurs hi ((occurs_argFront arg rest hi).mpr hat)

/-! ## All arguments -/

theorem closeLeft_le {left : Nat} (h : closeLeft p = some left) : left ≤ p.length := by
  obtain ⟨k, -, rfl⟩ := Option.map_eq_some_iff.mp h
  exact Nat.sub_le _ _

/-- The arguments are read up to the closing tag, unless one stands in an argument. -/
theorem glmArgsLoop_args {args : List JsonArg} (h0 : 0 ∉ args.flatMap appendGlmArg ++ (glmToolEnd ++ rest))
    (hclose : closeLeft (args.flatMap appendGlmArg ++ (glmToolEnd ++ rest)) = some close)
    (hfuel : args.length < fuel) (old : List UInt8) :
    glmArgsLoop close fuel (args.flatMap appendGlmArg ++ (glmToolEnd ++ rest)) old =
      if ∃ arg ∈ args, Closing arg then none else some (args.foldl glmAdd old, rest) := by
  induction args generalizing fuel old with
  | nil =>
    obtain ⟨fuel, rfl⟩ : ∃ k, fuel = k + 1 := ⟨fuel - 1, by omega⟩
    rw [List.flatMap_nil, List.nil_append, glmArgsLoop, skipAsciiWs_tag rfl]
    simp only [isPrefixOf_self_append, if_true, List.drop_left, List.foldl_nil]
    rw [if_neg (by simp)]
  | cons arg args ih =>
    rw [List.length_cons] at hfuel
    obtain ⟨fuel, rfl⟩ : ∃ k, fuel = k + 1 := ⟨fuel - 1, by omega⟩
    rw [List.flatMap_cons, List.append_assoc] at h0 hclose ⊢
    rw [glmArgsLoop_arg h0]
    by_cases harg : Closing arg
    · obtain ⟨left, hleft, hlt⟩ := closeLeft_closing harg (args.flatMap appendGlmArg ++ (glmToolEnd ++ rest))
      rw [hclose] at hleft
      cases hleft
      rw [if_pos hlt, if_pos ⟨arg, List.mem_cons_self, harg⟩]
    · rw [closeLeft_arg harg] at hclose
      have hle := closeLeft_le hclose
      have hlater : (∃ a ∈ arg :: args, Closing a) ↔ ∃ a ∈ args, Closing a := by
        simp [harg]
      rw [if_neg (by rw [List.length_append]; omega),
        ih (fun hmem => h0 (List.mem_append_right _ hmem)) hclose (by omega), List.foldl_cons, if_congr hlater rfl rfl]

/-! ## One call -/

/-- The arguments a call is written with. -/
def glmCallArgs (orders : List ToolSchemaOrder) (call : ToolCall) : List JsonArg :=
  match jsonArgsParse call.arguments with
  | some args => orderArgs (((toolSchemaOrdersFind orders call.name).map ToolSchemaOrder.prop).getD []) args
  | none => [⟨bytes "arguments", call.arguments, true⟩]

theorem appendGlmToolCall_eq (orders : List ToolSchemaOrder) (call : ToolCall) (rest : List UInt8) :
    appendGlmToolCall orders call ++ rest =
      glmToolStart ++ (call.name ++ ((glmCallArgs orders call).flatMap appendGlmArg ++ (glmToolEnd ++ rest))) := by
  rw [appendGlmToolCall, glmCallArgs, appendGlmArgumentsFromJson]
  cases jsonArgsParse call.arguments with
  | some args =>
    simp only [Option.map_some, List.append_assoc]
    rfl
  | none =>
    have harg := appendGlmArg_eq ⟨bytes "arguments", call.arguments, true⟩ (glmToolEnd ++ rest)
    have hname : bytes "<arg_key>arguments</arg_key><arg_value>" =
        glmArgKeyStart ++ (appendGlmArgKeyText (bytes "arguments") ++ (glmArgKeyEnd ++ glmArgValueStart)) := by
      decide
    simp only [Option.map_none, List.flatMap_cons, List.flatMap_nil, List.append_nil, harg, hname, List.append_assoc]
    rfl

/-- A name that is read as it is written. -/
structure GlmName (name : List UInt8) : Prop where
  ne_nil : name ≠ []
  trimmed : trimConstSpan name = name
  plain : 0x3c ∉ name

/-- The call a reader gets. -/
def glmReadBack (orders : List ToolSchemaOrder) (call : ToolCall) : ToolCall :=
  ⟨call.name, 0x7b :: (glmCallArgs orders call).foldl glmAdd [] ++ [0x7d]⟩

theorem strstr_name {name word : List UInt8} (hname : 0x3c ∉ name) (hword : word.head? = some 0x3c)
    (h0 : 0 ∉ name ++ p) : strstr (name ++ p) word = (strstr p word).map (name.length + ·) := by
  have hne : word ≠ [] := by
    rintro rfl
    cases hword
  have hback (i : Nat) : Occurs word (name ++ p) (name.length + i) ↔ Occurs word p i := by
    rw [← occurs_drop, List.drop_left]
  have hshift := ((strstr_first hne fun hmem => h0 (List.mem_append_right _ hmem)).congr
    fun i => (hback i).symm).shift
  exact (strstr_first hne h0).unique (hshift.congr fun i =>
    ⟨And.right, fun hat => ⟨occurs_ge hword hname hat, hat⟩⟩)

theorem GlmName.no_space {name : List UInt8} (h : GlmName name) : name.takeWhile isspace = [] := by
  have hlength := congrArg List.length h.trimmed
  have hright := (List.rdropWhile_prefix isspace (name.dropWhile isspace)).length_le
  have hsplit := congrArg List.length (@List.takeWhile_append_dropWhile _ isspace name)
  rw [List.length_append] at hsplit
  rw [trimConstSpan] at hlength
  exact List.length_eq_zero_iff.mp (by omega)

/-- The name ends where the first argument or the end of the call does. -/
theorem nameEnd_eq (orders : List ToolSchemaOrder) (call : ToolCall) (hname : GlmName call.name) (h0 : 0 ∉ call.name ++
      ((glmCallArgs orders call).flatMap appendGlmArg ++ (glmToolEnd ++ rest))) :
    ∃ close, strstr (call.name ++ ((glmCallArgs orders call).flatMap appendGlmArg ++ (glmToolEnd ++ rest)))
        glmToolEnd = some (call.name.length + close) ∧
      closeLeft ((glmCallArgs orders call).flatMap appendGlmArg ++ (glmToolEnd ++ rest)) =
        some (((glmCallArgs orders call).flatMap appendGlmArg ++ (glmToolEnd ++ rest)).length - close) ∧
      glmNameEnd (call.name ++ ((glmCallArgs orders call).flatMap appendGlmArg ++ (glmToolEnd ++ rest)))
        (call.name.length + close) = call.name.length := by
  have h0' : 0 ∉ (glmCallArgs orders call).flatMap appendGlmArg ++ (glmToolEnd ++ rest) := fun hmem =>
    h0 (List.mem_append_right _ hmem)
  simp only [glmNameEnd, @strstr_name _ _ glmToolEnd hname.plain rfl h0,
    @strstr_name _ _ glmArgKeyStart hname.plain rfl h0, closeLeft, ← strstr_eq h0']
  revert h0'
  cases glmCallArgs orders call with
  | nil =>
    intro h0'
    rw [List.flatMap_nil, List.nil_append] at h0' ⊢
    have hend : First (Occurs glmToolEnd (glmToolEnd ++ rest)) (some 0) :=
      ⟨List.prefix_append _ _, fun j hj => absurd hj (Nat.not_lt_zero j)⟩
    have hkey := @strstr_first _ glmArgKeyStart (by decide) h0'
    rw [(strstr_first glmToolEnd_ne_nil h0').unique hend]
    refine ⟨0, rfl, rfl, ?_⟩
    cases harg : strstr (glmToolEnd ++ rest) glmArgKeyStart with
    | none => rfl
    | some a =>
      rw [harg] at hkey
      -- no argument stands where the call ends
      have hpos : a ≠ 0 := by
        rintro rfl
        exact not_prefix_append (by decide) (by decide) hkey.1
      simp only [Option.map_some, Nat.add_zero]
      rw [if_pos (by omega)]
  | cons arg args =>
    intro h0'
    have hkey : First (Occurs glmArgKeyStart ((arg :: args).flatMap appendGlmArg ++ (glmToolEnd ++ rest))) (some 0) := by
      refine ⟨?_, fun j hj => absurd hj (Nat.not_lt_zero j)⟩
      rw [List.flatMap_cons, List.append_assoc, appendGlmArg_eq]
      exact List.prefix_append _ _
    have hend : glmToolEnd <:+: (arg :: args).flatMap appendGlmArg ++ (glmToolEnd ++ rest) :=
      ⟨(arg :: args).flatMap appendGlmArg, rest, by rw [List.append_assoc]⟩
    obtain ⟨i, hat⟩ := infix_iff_occurs.mp hend
    have hfirst := strstr_first glmToolEnd_ne_nil h0'
    rw [(strstr_first (by decide) h0').unique hkey]
    cases hclose : strstr ((arg :: args).flatMap appendGlmArg ++ (glmToolEnd ++ rest)) glmToolEnd with
    | none =>
      rw [hclose] at hfirst
      exact absurd hat (hfirst i)
    | some close =>
      refine ⟨close, rfl, rfl, ?_⟩
      simp only [Option.map_some, Nat.add_zero]
      rw [if_neg (by omega)]

theorem length_le_flatMap {α : Type} {f : α → List UInt8} (hf : ∀ x, f x ≠ []) (xs : List α) :
    xs.length ≤ (xs.flatMap f).length := by
  induction xs with
  | nil => exact Nat.le_refl _
  | cons x xs ih =>
    have hpos := List.length_pos_of_ne_nil (hf x)
    rw [List.flatMap_cons, List.length_append, List.length_cons]
    omega

theorem appendGlmArg_ne_nil (arg : JsonArg) : appendGlmArg arg ≠ [] := by
  rw [appendGlmArg, show bytes "<arg_key>" = 0x3c :: bytes "arg_key>" from rfl]
  simp

theorem appendGlmToolCall_ne_nil (orders : List ToolSchemaOrder) (call : ToolCall) :
    appendGlmToolCall orders call ≠ [] := by
  rw [appendGlmToolCall, show bytes "<tool_call>" = 0x3c :: bytes "tool_call>" from rfl]
  simp

/-- Whether a call is closed by one of its own arguments. -/
def ClosesEarly (orders : List ToolSchemaOrder) (call : ToolCall) : Prop :=
  ∃ arg ∈ glmCallArgs orders call, Closing arg

instance (orders : List ToolSchemaOrder) (call : ToolCall) : Decidable (ClosesEarly orders call) :=
  inferInstanceAs (Decidable (∃ arg ∈ _, Closing arg))

/-- A call is read up to its closing tag, unless one stands in an argument. -/
theorem glmCallsLoop_call (orders : List ToolSchemaOrder) {call : ToolCall} (hname : GlmName call.name)
    (h0 : 0 ∉ appendGlmToolCall orders call ++ rest) (calls : List ToolCall) :
    glmCallsLoop (fuel + 1) (appendGlmToolCall orders call ++ rest) calls =
      if ClosesEarly orders call then none
      else glmCallsLoop fuel rest (calls ++ [glmReadBack orders call]) := by
  rw [appendGlmToolCall_eq] at h0 ⊢
  have h0name : 0 ∉ call.name ++ ((glmCallArgs orders call).flatMap appendGlmArg ++ (glmToolEnd ++ rest)) :=
    fun hmem => h0 (List.mem_append_right _ hmem)
  obtain ⟨close, hclose, hleft, hend⟩ := nameEnd_eq orders call hname h0name
  have hfuel : (glmCallArgs orders call).length <
      (call.name ++ ((glmCallArgs orders call).flatMap appendGlmArg ++ (glmToolEnd ++ rest))).length + 1 := by
    have hle := length_le_flatMap appendGlmArg_ne_nil (glmCallArgs orders call)
    simp only [List.length_append]
    omega
  have hargs := glmArgsLoop_args (fun hmem => h0name (List.mem_append_right _ hmem)) hleft hfuel []
  have hsub : (call.name ++ ((glmCallArgs orders call).flatMap appendGlmArg ++ (glmToolEnd ++ rest))).length -
      (call.name.length + close) =
        ((glmCallArgs orders call).flatMap appendGlmArg ++ (glmToolEnd ++ rest)).length - close := by
    rw [List.length_append]
    omega
  rw [glmCallsLoop, skipAsciiWs_tag rfl]
  simp only [isPrefixOf_self_append, if_true, List.drop_left, hclose, hend, List.take_left, hname.trimmed,
    if_neg hname.ne_nil, hname.no_space, List.length_nil, Nat.zero_add, hsub, hargs]
  by_cases hany : ∃ arg ∈ glmCallArgs orders call, Closing arg
  · rw [if_pos (show ClosesEarly orders call from hany)]
    simp only [if_pos hany]
  · rw [if_neg (show ¬ ClosesEarly orders call from hany)]
    simp only [if_neg hany]
    rfl

/-! ## All calls -/

variable {orders : List ToolSchemaOrder} {calls : List ToolCall}

/-- The calls are read, unless one of them is closed early. -/
theorem glmCallsLoop_calls (hnames : ∀ call ∈ calls, GlmName call.name)
    (h0 : 0 ∉ calls.flatMap (appendGlmToolCall orders) ++ rest)
    (hrest : glmToolStart.isPrefixOf (skipAsciiWs rest) = false) (hfuel : calls.length < fuel)
    (old : List ToolCall) : glmCallsLoop fuel (calls.flatMap (appendGlmToolCall orders) ++ rest) old =
      if ∃ call ∈ calls, ClosesEarly orders call then none
      else some (old ++ calls.map (glmReadBack orders), skipAsciiWs rest) := by
  induction calls generalizing fuel old with
  | nil =>
    obtain ⟨fuel, rfl⟩ : ∃ k, fuel = k + 1 := ⟨fuel - 1, by omega⟩
    rw [List.flatMap_nil, List.nil_append, glmCallsLoop]
    simp only [hrest, Bool.false_eq_true, if_false]
    rw [if_neg (by simp)]
    simp
  | cons call calls ih =>
    obtain ⟨hname, hnames⟩ := List.forall_mem_cons.mp hnames
    rw [List.length_cons] at hfuel
    obtain ⟨fuel, rfl⟩ : ∃ k, fuel = k + 1 := ⟨fuel - 1, by omega⟩
    rw [List.flatMap_cons, List.append_assoc] at h0 ⊢
    rw [glmCallsLoop_call orders hname h0]
    by_cases hcall : ClosesEarly orders call
    · rw [if_pos hcall, if_pos ⟨call, List.mem_cons_self, hcall⟩]
    · have hlater : (∃ c ∈ call :: calls, ClosesEarly orders c) ↔ ∃ c ∈ calls, ClosesEarly orders c := by
        simp [hcall]
      rw [if_neg hcall, ih hnames (fun hmem => h0 (List.mem_append_right _ hmem)) (by omega),
        if_congr hlater rfl rfl, List.map_cons, List.append_assoc]
      rfl

/-! ## The whole text -/

theorem glmText_eq (orders : List ToolSchemaOrder) (hcalls : calls ≠ []) :
    appendGlmToolCallsText calls none orders =
      0x0a :: (calls.flatMap (appendGlmToolCall orders) ++ [0x0a]) := by
  unfold appendGlmToolCallsText
  rw [if_neg hcalls]
  rfl

theorem glmText_start (hcalls : calls ≠ []) :
    glmToolStart <+: calls.flatMap (appendGlmToolCall orders) ++ [0x0a] := by
  obtain ⟨call, later, rfl⟩ := List.exists_cons_of_ne_nil hcalls
  rw [List.flatMap_cons, List.append_assoc, appendGlmToolCall_eq]
  exact List.prefix_append _ _

theorem glmText_end (hcalls : calls ≠ []) :
    glmToolEnd <:+: calls.flatMap (appendGlmToolCall orders) ++ [0x0a] := by
  obtain ⟨call, later, rfl⟩ := List.exists_cons_of_ne_nil hcalls
  rw [List.flatMap_cons, List.append_assoc, appendGlmToolCall_eq]
  exact ⟨glmToolStart ++ (call.name ++ (glmCallArgs orders call).flatMap appendGlmArg),
    later.flatMap (appendGlmToolCall orders) ++ [0x0a], by simp only [List.append_assoc]⟩

theorem glmToolSearch_text {require : Bool} (hcalls : calls ≠ [])
    (h0 : 0 ∉ appendGlmToolCallsText calls none orders)
    (hthink : require = true → ¬ thinkClose <:+: appendGlmToolCallsText calls none orders) :
    ∃ search recovered, glmToolSearch (appendGlmToolCallsText calls none orders) require = some (search, recovered) ∧
      ∃ pos, strstr ((appendGlmToolCallsText calls none orders).drop search) glmToolStart = some pos ∧
        search + pos = 1 := by
  have htext := glmText_eq orders hcalls
  have hstart : strstr (appendGlmToolCallsText calls none orders) glmToolStart = some 1 := by
    refine (strstr_first (by decide) h0).unique ⟨?_, fun i hi hat => ?_⟩
    · rw [Occurs, htext]
      exact glmText_start hcalls
    · obtain rfl : i = 0 := by omega
      rw [htext] at hat
      obtain ⟨rest, hrest⟩ := hat
      cases hrest
  cases require with
  | false => exact ⟨0, false, rfl, 1, hstart, rfl⟩
  | true =>
    have hnone : Last (Occurs thinkClose (appendGlmToolCallsText calls none orders)) none := fun i hat =>
      hthink rfl (infix_iff_occurs.mpr ⟨i, hat⟩)
    have h0' : 0 ∉ (appendGlmToolCallsText calls none orders).drop 1 := fun hmem => h0 (List.mem_of_mem_drop hmem)
    have hdrop : (appendGlmToolCallsText calls none orders).drop 1 =
        calls.flatMap (appendGlmToolCall orders) ++ [0x0a] := by
      rw [htext]
      rfl
    have hend : (strstr ((appendGlmToolCallsText calls none orders).drop 1) glmToolEnd).isSome := by
      have hfirst := strstr_first glmToolEnd_ne_nil h0'
      cases hfind : strstr ((appendGlmToolCallsText calls none orders).drop 1) glmToolEnd with
      | some k => rfl
      | none =>
        rw [hfind] at hfirst
        obtain ⟨i, hat⟩ := infix_iff_occurs.mp (@glmText_end orders _ hcalls)
        rw [← hdrop] at hat
        exact absurd hat (hfirst i)
    refine ⟨1, true, ?_, 0, ?_, rfl⟩
    · rw [glmToolSearch, if_pos rfl, (findLastSubstr_last thinkClose_ne_nil h0).unique hnone]
      simp only [hstart, hend, if_true]
    · refine (strstr_first (by decide) h0').unique ⟨?_, fun i hi => absurd hi (Nat.not_lt_zero i)⟩
      rw [Occurs, List.drop_zero, hdrop]
      exact glmText_start hcalls

/-- Without a `</think>` that counts, the text is read to its calls, unless one of them is closed early. -/
theorem parse_glmText {require : Bool} (hcalls : calls ≠ []) (hnames : ∀ call ∈ calls, GlmName call.name)
    (h0 : 0 ∉ appendGlmToolCallsText calls none orders)
    (hthink : require = true → ¬ thinkClose <:+: appendGlmToolCallsText calls none orders) :
    (parseGlmGeneratedMessageEx (appendGlmToolCallsText calls none orders) require).map GeneratedMessage.calls =
      if ∃ call ∈ calls, ClosesEarly orders call then none else some (calls.map (glmReadBack orders)) := by
  obtain ⟨search, recovered, hsearch, pos, hpos, hone⟩ := glmToolSearch_text hcalls h0 hthink
  have htext := glmText_eq orders hcalls
  have hdrop : (appendGlmToolCallsText calls none orders).drop 1 =
      calls.flatMap (appendGlmToolCall orders) ++ [0x0a] := by
    rw [htext]
    rfl
  have h0' : 0 ∉ calls.flatMap (appendGlmToolCall orders) ++ [0x0a] := by
    rw [← hdrop]
    exact fun hmem => h0 (List.mem_of_mem_drop hmem)
  have hlength : calls.length < (appendGlmToolCallsText calls none orders).length + 1 := by
    have hle := length_le_flatMap (appendGlmToolCall_ne_nil orders) calls
    rw [htext, List.length_cons, List.length_append]
    omega
  have hloop := glmCallsLoop_calls hnames h0' rfl hlength []
  rw [parseGlmGeneratedMessageEx, hsearch]
  simp only [hpos, hone, hdrop, hloop]
  by_cases hany : ∃ call ∈ calls, ClosesEarly orders call
  · simp only [if_pos hany]
    rfl
  · have hne : calls.map (glmReadBack orders) ≠ [] := by simpa using hcalls
    simp only [if_neg hany, List.nil_append, if_neg hne]
    split
    · rfl
    · rfl

end Spark.Server
