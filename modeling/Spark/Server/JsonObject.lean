import Spark.Server.JsonArgs

/-!
# JSON objects as clients write them

The arguments of a call with any white space and any escapes, and what `json_args_parse` makes of them.

* **`ObjectText`** — the text of an object, by the texts of its members.
* **`ArgMember`** — a member with what it means.
* **`jsonArgsParse_of_text`** — an object is taken apart into its members, unless it is nested too deeply.
-/

namespace Spark.Server

open Json

/-! ## The grammar -/

/-- White space, as JSON has it. -/
def Blank (ws : List UInt8) : Prop := ∀ b ∈ ws, isWs b = true

/-- The white space around a member's key and value. -/
structure Around where
  beforeKey : List UInt8
  beforeColon : List UInt8
  beforeValue : List UInt8
  behind : List UInt8
  blank : Blank beforeKey ∧ Blank beforeColon ∧ Blank beforeValue ∧ Blank behind

/-- A member, and what follows it. -/
def Around.member (ws : Around) (item : List UInt8 × List UInt8) (tail : List UInt8) : List UInt8 :=
  ws.beforeKey ++ (item.1 ++ (ws.beforeColon ++ 0x3a :: (ws.beforeValue ++ (item.2 ++ (ws.behind ++ tail)))))

/-- The members of an object from one of them on. -/
inductive MembersText : List UInt8 → List (List UInt8 × List UInt8) → Prop where
  | last (ws : Around) (item : List UInt8 × List UInt8) (rest : List UInt8) :
      MembersText (ws.member item (0x7d :: rest)) [item]
  | more (ws : Around) (item : List UInt8 × List UInt8) {later items} (h : MembersText later items) :
      MembersText (ws.member item (0x2c :: later)) (item :: items)

inductive ObjectText : List UInt8 → List (List UInt8 × List UInt8) → Prop where
  | empty {front inner : List UInt8} (hfront : Blank front) (hinner : Blank inner) (rest : List UInt8) :
      ObjectText (front ++ 0x7b :: (inner ++ 0x7d :: rest)) []
  | members {front inner items} (hfront : Blank front) (h : MembersText inner items) :
      ObjectText (front ++ 0x7b :: inner) items

/-- A member of the arguments of a call: any string, or JSON without white space outside of strings. -/
structure ArgMember where
  keyText : List UInt8
  valueText : List UInt8
  key : List UInt8
  value : Value
  reads_key : Quotes keyText key
  reads_value : (∃ s, value = .string s ∧ Quotes valueText s) ∨
    ((∀ s, value ≠ .string s) ∧ strip isspace (false, false) valueText = valueText ∧
      ∃ limit, read limit valueText = some value)

def ArgMember.item (m : ArgMember) : List UInt8 × List UInt8 := (m.keyText, m.valueText)

/-- What `json_args_parse` makes of a member. -/
def ArgMember.arg (m : ArgMember) : JsonArg :=
  match m.value with
  | .string s => ⟨cString m.key, cString s, true⟩
  | _ => ⟨cString m.key, m.valueText, false⟩

/-- A member whose value is nested no deeper than the server goes. -/
def ArgMember.Shallow (m : ArgMember) : Prop := read jsonMaxNesting m.valueText = some m.value

/-! ## Minified values -/

variable {xs rest : List UInt8} {v : Value} {limit : Nat}

/-- A value without white space begins with none, and a value ends where it does. -/
theorem minified_ends {t raw : List UInt8} (hmin : strip isspace (false, false) (raw ++ t) = raw ++ t)
    (hws : Blank t) (h : read limit (raw ++ t) = some v) : t = [] := by
  obtain ⟨state, hrun, hholds⟩ := read_eq_some.mp (read_of_append_ws hws h)
  have hstrip := strip_append_of_run isspace t hrun
  have hoff : state.mode.quoted = (false, false) := by
    rcases hholds with rfl | ⟨w, rfl, -⟩ <;> rfl
  rw [show (⟨.value, []⟩ : State).mode.quoted = (false, false) from rfl, hmin, hoff,
    strip_spaces rfl fun b hb => isspace_of_isWs (hws b hb), List.append_nil] at hstrip
  have hle := length_strip_le isspace (false, false) raw
  rw [← hstrip, List.length_append] at hle
  exact List.length_eq_zero_iff.mp (by omega)

theorem minified_starts {c : UInt8} (hmin : strip isspace (false, false) (c :: xs) = c :: xs) :
    isspace c = false := by
  by_contra hc
  rw [Bool.not_eq_false] at hc
  have hne : c ≠ 0x22 := by
    rintro rfl
    cases hc
  rw [strip, if_neg hne, if_pos hc] at hmin
  have hle := length_strip_le isspace (false, false) xs
  rw [hmin, List.length_cons] at hle
  omega

/-- A value without white space is read as it is written, if it is read at all. -/
theorem jsonRawValue_of_minified (hrest : Stops rest) (hmin : strip isspace (false, false) xs = xs)
    (h : read limit xs = some v) :
    jsonMinifyRawValue xs = xs ∧ (jsonRawValue (xs ++ rest) = some (xs, rest) ∨
      jsonRawValue (xs ++ rest) = none ∧ read jsonMaxNesting xs ≠ some v) := by
  obtain ⟨c, tail, rfl⟩ : ∃ c tail, xs = c :: tail := by
    cases xs with
    | nil => cases h
    | cons c tail => exact ⟨c, tail, rfl⟩
  have hstart (back : List UInt8) : jsonWs (c :: tail ++ back) = c :: tail ++ back :=
    jsonWs_cons (minified_starts hmin) _
  have hends {back r : List UInt8} (hback : Stops back) (hskip : jsonSkipValue (c :: tail ++ back) = some r) :
      r = back := by
    obtain ⟨t, rfl, ⟨⟨raw, hraw⟩, -⟩, hws, -⟩ := jsonSkipValue_of_some hback h hskip
    rw [← hraw] at h hmin
    rw [minified_ends hmin hws h, List.nil_append]
  constructor
  · have hws := hstart []
    rw [List.append_nil] at hws
    rw [jsonMinifyRawValue]
    simp only [hws]
    cases hskip : jsonSkipValue (c :: tail) with
    | none => rfl
    | some r =>
      obtain rfl := @hends [] r (by simp [Stops]) (by rwa [List.append_nil])
      simp only [List.length_nil, Nat.sub_zero, List.take_length, hmin]
  · rw [jsonRawValue]
    simp only [hstart]
    cases hskip : jsonSkipValue (c :: tail ++ rest) with
    | none =>
      refine .inr ⟨rfl, fun hread => ?_⟩
      obtain ⟨t, hsome, -⟩ := jsonSkipValue_of_read hrest hread
      rw [hskip] at hsome
      cases hsome
    | some r =>
      obtain rfl := hends hrest hskip
      rw [Option.map_some, List.length_append, Nat.add_sub_cancel, List.take_left]
      exact .inl rfl

/-! ## Taking an object apart -/

theorem ArgMember.value_cons (m : ArgMember) :
    ∃ c tail, m.valueText = c :: tail ∧ isspace c = false := by
  rcases m.reads_value with ⟨s, -, raw, hraw, -⟩ | ⟨-, hmin, limit, hread⟩
  · exact ⟨_, _, hraw, rfl⟩
  · cases htext : m.valueText with
    | nil =>
      rw [htext] at hread
      cases hread
    | cons c tail =>
      rw [htext] at hmin
      exact ⟨c, tail, rfl, minified_starts hmin⟩

/-- A value with an end that a comma or a brace can follow. -/
theorem ArgMember.jsonArgValue_eq (m : ArgMember) (hrest : Stops rest) :
    jsonArgValue (m.valueText ++ rest) = some ((m.arg.value, m.arg.isString), rest) ∨
      jsonArgValue (m.valueText ++ rest) = none ∧ ¬ m.Shallow := by
  rcases m.reads_value with ⟨s, hs, hquotes⟩ | ⟨hnot, hmin, limit, hread⟩
  · left
    have hstring := jsonString_of_quotes hquotes rest
    obtain ⟨raw, hraw, -, -⟩ := hquotes
    rw [hraw] at hstring ⊢
    rw [List.cons_append, List.cons_append] at hstring ⊢
    rw [jsonArgValue, if_pos rfl, hstring, Option.map_some, ArgMember.arg, hs]
  · obtain ⟨hminify, hraw⟩ := jsonRawValue_of_minified hrest hmin hread
    have harg : m.arg = ⟨cString m.key, m.valueText, false⟩ := by
      unfold ArgMember.arg
      split
      case h_1 s hs => exact absurd hs (hnot s)
      · rfl
    obtain ⟨c, tail, htext, -⟩ := m.value_cons
    have hquote : ¬ c = 0x22 := by
      rintro rfl
      rw [htext] at hread
      obtain ⟨s, hs⟩ := read_quote hread
      exact hnot s hs
    have hvalue : jsonArgValue (m.valueText ++ rest) =
        (jsonRawValue (m.valueText ++ rest)).map fun out => ((jsonMinifyRawValue out.1, false), out.2) := by
      rw [htext, List.cons_append, jsonArgValue, if_neg hquote]
    rw [hvalue]
    rcases hraw with hraw | ⟨hraw, hdeep⟩
    · rw [hraw, Option.map_some, hminify, harg]
      exact .inl rfl
    · rw [hraw]
      exact .inr ⟨rfl, hdeep⟩

/-- No white space stands in front of a value. -/
theorem ArgMember.jsonWs_value (m : ArgMember) (back : List UInt8) :
    jsonWs (m.valueText ++ back) = m.valueText ++ back := by
  obtain ⟨c, tail, htext, hc⟩ := m.value_cons
  rw [htext]
  exact jsonWs_cons hc _

theorem ArgMember.arg_key (m : ArgMember) : m.arg.key = cString m.key := by
  unfold ArgMember.arg
  split <;> rfl

theorem blank_stops {ws : List UInt8} (hws : Blank ws) (hrest : Stops rest) : Stops (ws ++ rest) := by
  cases ws with
  | nil => exact hrest
  | cons b ws =>
    intro c hc
    cases hc
    exact isWordByte_of_isWs (hws b List.mem_cons_self)

/-- One member is read, and what follows its value is left. -/
theorem jsonArgsLoop_member (m : ArgMember) (ws : Around) {tail : List UInt8} (htail : Stops tail) (fuel : Nat)
    (args : List JsonArg) :
    jsonArgsLoop (fuel + 1) (jsonWs (ws.member m.item tail)) args =
        jsonArgsLoop fuel (jsonWs (behindComma (jsonWs tail))) (args ++ [m.arg]) ∨
      jsonArgsLoop (fuel + 1) (jsonWs (ws.member m.item tail)) args = none ∧ ¬ m.Shallow := by
  obtain ⟨hkey, hcolon, hvalue, hbehind⟩ := ws.blank
  have hfirst : jsonWs (ws.member m.item tail) = m.keyText ++ (ws.beforeColon ++ 0x3a :: (ws.beforeValue ++
      (m.valueText ++ (ws.behind ++ tail)))) := by
    rw [Around.member, jsonWs_of_isWs hkey]
    obtain ⟨raw, hraw, -⟩ := m.reads_key
    rw [ArgMember.item, hraw, List.cons_append, List.cons_append]
    exact jsonWs_cons rfl _
  have hstring := jsonString_of_quotes m.reads_key (ws.beforeColon ++ 0x3a :: (ws.beforeValue ++
    (m.valueText ++ (ws.behind ++ tail))))
  have hskip : jsonWs (ws.beforeColon ++ 0x3a :: (ws.beforeValue ++ (m.valueText ++ (ws.behind ++ tail)))) =
      0x3a :: (ws.beforeValue ++ (m.valueText ++ (ws.behind ++ tail))) := by
    rw [jsonWs_of_isWs hcolon]
    exact jsonWs_cons rfl _
  have hstart := m.jsonWs_value (ws.behind ++ tail)
  have harg : m.arg = ⟨cString m.key, m.arg.value, m.arg.isString⟩ := by
    rw [← m.arg_key]
  rw [hfirst]
  obtain ⟨raw, hraw, -⟩ := m.reads_key
  rw [hraw] at hstring ⊢
  simp only [List.cons_append] at hstring ⊢
  rw [jsonArgsLoop, if_neg (by decide), hstring]
  simp only [hskip, ne_eq, not_true_eq_false, if_false, jsonWs_of_isWs hvalue, hstart]
  rcases m.jsonArgValue_eq (blank_stops hbehind htail) with hread | ⟨hread, hdeep⟩
  · left
    simp only [hread, jsonWs_of_isWs hbehind]
    rw [← harg]
    rfl
  · right
    simp only [hread]
    exact ⟨trivial, hdeep⟩

/-- The members from one on are read, up to the closing brace. -/
theorem jsonArgsLoop_of_membersText {text : List UInt8} {items : List (List UInt8 × List UInt8)}
    (h : MembersText text items) {members : List ArgMember} (hitems : members.map ArgMember.item = items)
    {fuel : Nat} (hfuel : text.length < fuel) (args : List JsonArg) :
    jsonArgsLoop fuel (jsonWs text) args = some (args ++ members.map ArgMember.arg) ∨
      jsonArgsLoop fuel (jsonWs text) args = none ∧ ∃ m ∈ members, ¬ m.Shallow := by
  induction h generalizing members fuel args with
  | last ws item rest =>
    obtain ⟨m, rfl, rfl⟩ : ∃ m, members = [m] ∧ m.item = item := by
      cases members with
      | nil => cases hitems
      | cons m members =>
        obtain ⟨hm, hnil⟩ := List.cons.inj hitems
        exact ⟨m, by rw [List.map_eq_nil_iff.mp hnil], hm⟩
    obtain ⟨fuel, rfl⟩ : ∃ k, fuel = k + 2 := ⟨fuel - 2, by simp [Around.member] at hfuel; omega⟩
    rcases @jsonArgsLoop_member m ws (0x7d :: rest) (by simp [Stops, isWordByte, isDigit]) (fuel + 1) args
      with hstep | ⟨hstep, hdeep⟩
    · left
      rw [hstep, jsonWs_cons rfl, behindComma, if_neg (by decide), jsonWs_cons rfl, jsonArgsLoop, if_pos rfl]
      rfl
    · exact .inr ⟨hstep, m, List.mem_cons_self, hdeep⟩
  | @more ws item later items _ ih =>
    obtain ⟨m, members, rfl, rfl, hlater⟩ : ∃ m more, members = m :: more ∧ m.item = item ∧
        more.map ArgMember.item = items := by
      cases members with
      | nil => cases hitems
      | cons m members =>
        obtain ⟨hm, hmore⟩ := List.cons.inj hitems
        exact ⟨m, members, rfl, hm, hmore⟩
    obtain ⟨fuel, rfl⟩ : ∃ k, fuel = k + 1 := ⟨fuel - 1, by omega⟩
    have hlength : later.length < fuel := by
      simp [Around.member] at hfuel
      omega
    rcases @jsonArgsLoop_member m ws (0x2c :: later) (by simp [Stops, isWordByte, isDigit]) fuel args
      with hstep | ⟨hstep, hdeep⟩
    · rw [hstep, jsonWs_cons rfl, behindComma, if_pos rfl]
      rcases ih hlater hlength (args ++ [m.arg]) with hread | ⟨hread, k, hk, hdeep⟩
      · left
        rw [hread]
        simp
      · exact .inr ⟨hread, k, List.mem_cons_of_mem _ hk, hdeep⟩
    · exact .inr ⟨hstep, m, List.mem_cons_self, hdeep⟩

/-- An object is taken apart into its members, unless one of them is nested too deeply. -/
theorem jsonArgsParse_of_text {text : List UInt8} {members : List ArgMember}
    (h : ObjectText text (members.map ArgMember.item)) :
    jsonArgsParse text = some (members.map ArgMember.arg) ∨
      jsonArgsParse text = none ∧ ∃ m ∈ members, ¬ m.Shallow := by
  generalize hitems : members.map ArgMember.item = items at h
  cases h with
  | @empty front inner hfront hinner rest =>
    left
    rw [jsonArgsParse, jsonWs_of_isWs hfront, jsonWs_cons rfl]
    simp only [if_true, jsonWs_of_isWs hinner]
    rw [jsonWs_cons rfl, jsonArgsLoop, if_pos rfl, List.map_eq_nil_iff.mp hitems]
    rfl
  | @members front inner items hfront hmembers =>
    rw [jsonArgsParse, jsonWs_of_isWs hfront, jsonWs_cons rfl]
    simp only [if_true]
    exact jsonArgsLoop_of_membersText hmembers hitems (Nat.lt_succ_self _) []

end Spark.Server
