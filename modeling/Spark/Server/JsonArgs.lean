import Mathlib.Data.List.Forall2
import Mathlib.Data.List.TakeWhile
import Spark.Lib.Traverse
import Spark.Server.JsonSkip

/-!
# The arguments of a tool call

* **`jsonArgsParse_of_members`** — an object as the server writes it is taken apart into its members.
* **`read_appendJsonObjectOrEmpty`** — an object that is taken apart and written again is the same.
-/

namespace Spark.Server

open Json

variable {xs rest : List UInt8} {j : Value}

/-- The value of an argument as it is written again. -/
def JsonArg.text (arg : JsonArg) : List UInt8 :=
  if arg.isString then jsonEscape arg.value else arg.value

/-- A JSON value that survives as a C string. -/
def Plain (v : Value) : Prop := ∀ s, v = .string s → 0 ∉ s

theorem cString_eq {s : List UInt8} (h : 0 ∉ s) : cString s = s := by
  refine List.takeWhile_eq_self_iff.mpr fun b hb => decide_eq_true ?_
  exact ne_of_mem_of_not_mem hb h

theorem cString_zero (s : List UInt8) : 0 ∉ cString s := by
  intro hmem
  have hne := List.mem_takeWhile_imp hmem
  simp at hne

/-- A value as the server holds it: a string is a C string. -/
def cut : Value → Value
  | .string s => .string (cString s)
  | v => v

theorem cut_of_plain (h : Plain j) : cut j = j := by
  cases j with
  | string s => rw [cut, cString_eq (h s rfl)]
  | _ => rfl

theorem cut_of_ne_string (h : ∀ s, j ≠ .string s) : cut j = j := by
  cases j with
  | string s => exact absurd rfl (h s)
  | _ => rfl

/-- A quote opens a string. -/
theorem read_quote {limit : Nat} {v : Value} (h : read limit (0x22 :: xs) = some v) : ∃ s, v = .string s := by
  obtain ⟨next, hnext, hyields⟩ := yields_cons.mp h
  cases hnext
  obtain ⟨raw, s, t, -, -, -, hyields⟩ := string_spec hyields
  exact ⟨s, hyields.after.1⟩

/-- And nothing else does. -/
theorem quote_of_read {limit : Nat} {c : UInt8} {s : List UInt8} (hc : isWs c = false)
    (h : read limit (c :: xs) = some (.string s)) : c = 0x22 := by
  obtain ⟨t, v, -, -, hwritten, hyields⟩ := @jsonSkipValueDepth_spec limit [] _ [] _ limit (Nat.zero_add _)
    (by simp [Stops]) h
  obtain ⟨ws, raw, htext, hws, -⟩ := hwritten s hyields.after.1.symm
  cases ws with
  | nil => exact (List.cons.inj htext).1
  | cons b ws =>
    obtain rfl := (List.cons.inj htext).1
    obtain ⟨hword, hpunct⟩ := isspace_apart (hws c List.mem_cons_self)
    obtain ⟨next, hnext, -⟩ := yields_cons.mp h
    rw [feed_eq_none rfl hc hword hpunct] at hnext
    cases hnext

/-- The value of a member, where the server has levels enough for it. -/
theorem jsonArgValue_or {limit : Nat} (hrest : Stops rest) (h : read limit xs = some j) :
    jsonArgValue (jsonWs (xs ++ rest)) = none ∧ ¬ j.Within jsonMaxNesting ∨
      ∃ value isString t, jsonArgValue (jsonWs (xs ++ rest)) = some ((value, isString), t ++ rest) ∧
        (∀ b ∈ t, isWs b = true) ∧ j.Within jsonMaxNesting ∧
        read jsonMaxNesting (if isString then jsonEscape value else value) = some (cut j) := by
  obtain ⟨c, xs', hstart, hc, hread⟩ := read_jsonWs h rest
  rw [hstart]
  by_cases hquote : c = 0x22
  · subst hquote
    obtain ⟨next, hnext, hyields⟩ := yields_cons.mp hread
    cases hnext
    obtain ⟨raw, s, t, rfl, hscan, hdecode, hyields⟩ := string_spec hyields
    obtain ⟨rfl, hws⟩ := hyields.after
    have hstring : jsonString (0x22 :: (raw ++ 0x22 :: t ++ rest)) = some (cString s, t ++ rest) :=
      jsonString_of_jsonWs (by simp [jsonWs, isspace]) hscan hdecode
    refine .inr ⟨cString s, true, t, ?_, hws, .string, read_quotes (quotes_jsonEscape _)⟩
    simp only [jsonArgValue, if_true, hstring, Option.map_some]
  · have hvalue : jsonArgValue (c :: (xs' ++ rest)) =
        (jsonRawValue (c :: (xs' ++ rest))).map fun out => ((jsonMinifyRawValue out.1, false), out.2) := by
      rw [jsonArgValue, if_neg hquote]
    rw [hvalue]
    rcases jsonRawValue_or hrest hread with ⟨hnone, hdeep⟩ | ⟨raw, t, hraw, hws, hread', hwithin⟩
    · rw [List.cons_append] at hnone
      exact .inl ⟨by rw [hnone, Option.map_none], hdeep⟩
    · rw [List.cons_append] at hraw
      refine .inr ⟨jsonMinifyRawValue raw, false, t, by rw [hraw, Option.map_some], hws, hwithin, ?_⟩
      have hnot : ∀ s, j ≠ .string s := by
        rintro s rfl
        exact hquote (quote_of_read hc hread)
      rw [cut_of_ne_string hnot]
      exact read_jsonMinifyRawValue (read_of_within hread' hwithin)

theorem jsonWs_of_isWs {t : List UInt8} (hws : ∀ b ∈ t, isWs b = true) (rest : List UInt8) :
    jsonWs (t ++ rest) = jsonWs rest := by
  induction t with
  | nil => rfl
  | cons b t ih =>
    rw [List.cons_append, jsonWs, List.dropWhile_cons_of_pos (isspace_of_isWs (hws b List.mem_cons_self))]
    exact ih fun b hb => hws b (List.mem_cons_of_mem _ hb)

/-- An argument that was read, and the member it is. -/
def ArgReads (arg : JsonArg) (member : List UInt8 × Value) : Prop :=
  MemberReads jsonMaxNesting (jsonEscape arg.key, arg.text) member

/-- A member of an object, however deeply its value is nested. -/
def AnyMember (item : List UInt8 × List UInt8) (member : List UInt8 × Value) : Prop :=
  ∃ limit, MemberReads limit item member

/-- A member as the server holds it. -/
def cutMember (member : List UInt8 × Value) : List UInt8 × Value := (cString member.1, cut member.2)

/-- A member of an object that survives as C strings. -/
def PlainMember (item : List UInt8 × List UInt8) (member : List UInt8 × Value) : Prop :=
  MemberReads jsonMaxNesting item member ∧ 0 ∉ member.1 ∧ Plain member.2

/-- The space the server writes behind a colon and a comma. -/
def spaced : List UInt8 := [0x20]

/-- The members behind one, up to the closing brace. -/
def laterMembers (items : List (List UInt8 × List UInt8)) : List UInt8 :=
  (items.flatMap fun item => 0x2c :: spaced ++ memberText spaced item) ++ [0x7d]

/-- A byte that is no white space stays where it is. -/
theorem jsonWs_cons {b : UInt8} (h : isspace b = false) (p : List UInt8) : jsonWs (b :: p) = b :: p :=
  List.dropWhile_cons_of_neg (by simp [h])

/-- The text behind a comma, where there is one. -/
def behindComma (p : List UInt8) : List UInt8 :=
  match p with
  | [] => []
  | c :: p => if c = 0x2c then p else c :: p

theorem jsonArgsLoop_step {item : List UInt8 × List UInt8} {member : List UInt8 × Value} {fuel : Nat}
    {args : List JsonArg} (hitem : AnyMember item member) (hrest : Stops rest) :
    jsonArgsLoop (fuel + 1) (memberText spaced item ++ rest) args = none ∧ ¬ member.2.Within jsonMaxNesting ∨
      ∃ arg, ArgReads arg (cutMember member) ∧ member.2.Within jsonMaxNesting ∧
        jsonArgsLoop (fuel + 1) (memberText spaced item ++ rest) args =
          jsonArgsLoop fuel (jsonWs (behindComma (jsonWs rest))) (args ++ [arg]) := by
  obtain ⟨limit, hkey, hread⟩ := hitem
  have hstring := jsonString_of_quotes hkey (0x3a :: (spaced ++ (item.2 ++ rest)))
  have hcolon : jsonWs (0x3a :: (spaced ++ (item.2 ++ rest))) = 0x3a :: (spaced ++ (item.2 ++ rest)) :=
    jsonWs_cons rfl _
  have hspaced : jsonWs (spaced ++ (item.2 ++ rest)) = jsonWs (item.2 ++ rest) :=
    jsonWs_of_isWs (by simp [spaced, isWs]) _
  have htextEq : memberText spaced item ++ rest = item.1 ++ (0x3a :: (spaced ++ (item.2 ++ rest))) := by
    simp [memberText]
  obtain ⟨raw, hraw, -, -⟩ := hkey
  rw [htextEq]
  rw [hraw] at hstring ⊢
  simp only [List.cons_append] at hstring ⊢
  rw [jsonArgsLoop, if_neg (by decide), hstring]
  simp only [hcolon, ne_eq, not_true_eq_false, if_false, hspaced]
  rcases jsonArgValue_or hrest hread with ⟨hnone, hdeep⟩ | ⟨value, isString, t, hvalue, hws, hwithin, htext⟩
  · exact .inl ⟨by rw [hnone], hdeep⟩
  · refine .inr ⟨⟨cString member.1, value, isString⟩, ⟨quotes_jsonEscape _, htext⟩, hwithin, ?_⟩
    simp only [hvalue, jsonWs_of_isWs hws]
    rfl

theorem jsonArgsLoop_spec {item : List UInt8 × List UInt8} {member : List UInt8 × Value}
    {items : List (List UInt8 × List UInt8)} {members : List (List UInt8 × Value)} {fuel : Nat}
    {args : List JsonArg} (hitem : AnyMember item member) (hitems : List.Forall₂ AnyMember items members)
    (hfuel : items.length + 2 ≤ fuel) :
    jsonArgsLoop fuel (memberText spaced item ++ laterMembers items) args = none ∧
        (∃ m ∈ member :: members, ¬ m.2.Within jsonMaxNesting) ∨
      ∃ more, jsonArgsLoop fuel (memberText spaced item ++ laterMembers items) args = some (args ++ more) ∧
        List.Forall₂ (fun arg m => ArgReads arg (cutMember m) ∧ m.2.Within jsonMaxNesting) more
          (member :: members) := by
  obtain ⟨fuel, rfl⟩ : ∃ k, fuel = k + 1 := ⟨fuel - 1, by omega⟩
  induction hitems generalizing item member fuel args with
  | nil =>
    rcases @jsonArgsLoop_step (laterMembers []) item member fuel args hitem
      (by simp [Stops, laterMembers, isWordByte, isDigit]) with ⟨hnone, hdeep⟩ | ⟨arg, harg, hwithin, hstep⟩
    · exact .inl ⟨hnone, member, List.mem_cons_self, hdeep⟩
    · obtain ⟨fuel, rfl⟩ : ∃ k, fuel = k + 1 := ⟨fuel - 1, by simp at hfuel; omega⟩
      exact .inr ⟨[arg], hstep, .cons ⟨harg, hwithin⟩ .nil⟩
  | @cons next nextMember items members hnext hitems ih =>
    rw [List.length_cons] at hfuel
    obtain ⟨fuel, rfl⟩ : ∃ k, fuel = k + 1 := ⟨fuel - 1, by omega⟩
    rcases @jsonArgsLoop_step (laterMembers (next :: items)) item member (fuel + 1) args hitem
      (by simp [Stops, laterMembers, isWordByte, isDigit]) with ⟨hnone, hdeep⟩ | ⟨arg, harg, hwithin, hstep⟩
    · exact .inl ⟨hnone, member, List.mem_cons_self, hdeep⟩
    have hbehind : jsonWs (behindComma (jsonWs (laterMembers (next :: items)))) =
        memberText spaced next ++ laterMembers items := by
      obtain ⟨limit, ⟨raw, hraw, -⟩, -⟩ := hnext
      simp only [laterMembers, List.flatMap_cons, List.cons_append, List.append_assoc]
      rw [jsonWs_cons rfl, behindComma, if_pos rfl, jsonWs_of_isWs (by simp [spaced, isWs])]
      simp only [memberText, hraw, List.cons_append, List.append_assoc]
      exact jsonWs_cons rfl _
    rw [hstep, hbehind]
    rcases @ih next nextMember (args ++ [arg]) hnext fuel (by omega) with ⟨hnone, m, hm, hdeep⟩ | ⟨more, hloop, hmore⟩
    · exact .inl ⟨hnone, m, List.mem_cons_of_mem _ hm, hdeep⟩
    · refine .inr ⟨arg :: more, ?_, .cons ⟨harg, hwithin⟩ hmore⟩
      rw [hloop, List.append_assoc]
      rfl

theorem length_laterMembers (items : List (List UInt8 × List UInt8)) :
    items.length < (laterMembers items).length := by
  induction items with
  | nil => decide
  | cons item items ih =>
    simp only [laterMembers, List.flatMap_cons, List.length_append, List.length_cons] at ih ⊢
    omega

theorem membersText_append_close {items : List (List UInt8 × List UInt8)} (item : List UInt8 × List UInt8) :
    membersText spaced spaced (item :: items) ++ [0x7d] = memberText spaced item ++ laterMembers items := by
  simp [membersText, laterMembers]

/-- An object as the server writes it is taken apart into its members, unless one of them is nested too deeply. -/
theorem jsonArgsParse_or {items : List (List UInt8 × List UInt8)}
    {members : List (List UInt8 × Value)} (h : List.Forall₂ AnyMember items members) :
    jsonArgsParse (0x7b :: membersText spaced spaced items ++ [0x7d]) = none ∧
        (∃ m ∈ members, ¬ m.2.Within jsonMaxNesting) ∨
      ∃ args, jsonArgsParse (0x7b :: membersText spaced spaced items ++ [0x7d]) = some args ∧
        List.Forall₂ (fun arg m => ArgReads arg (cutMember m) ∧ m.2.Within jsonMaxNesting) args members := by
  rw [List.cons_append, jsonArgsParse, jsonWs_cons rfl]
  cases h with
  | nil => exact .inr ⟨[], rfl, .nil⟩
  | @cons item member items members hitem hitems =>
    rw [membersText_append_close]
    have hws : jsonWs (memberText spaced item ++ laterMembers items) =
        memberText spaced item ++ laterMembers items := by
      obtain ⟨limit, ⟨raw, hraw, -⟩, -⟩ := hitem
      simp only [memberText, hraw, List.cons_append]
      exact jsonWs_cons rfl _
    have hlength : items.length + 2 ≤ (memberText spaced item ++ laterMembers items).length + 1 := by
      have hlater := length_laterMembers items
      simp [memberText]
      omega
    simp only [if_true, hws]
    exact @jsonArgsLoop_spec item member items members _ [] hitem hitems hlength

theorem intercalate_jsonArgPair (args : List JsonArg) :
    [0x2c].intercalate (args.map jsonArgPair) =
      membersText [] [] (args.map fun arg => (jsonEscape arg.key, arg.text)) := by
  have hpair (arg : JsonArg) : memberText [] (jsonEscape arg.key, arg.text) = jsonArgPair arg := rfl
  cases args with
  | nil => rfl
  | cons arg args =>
    induction args generalizing arg with
    | nil => simp [membersText, hpair, List.intercalate]
    | cons next args ih =>
      have hnext := ih next
      simp only [List.map_cons, membersText, hpair, List.intercalate, List.intersperse_cons_cons,
        List.flatten_cons, List.flatMap_cons] at hnext ⊢
      rw [hnext]
      simp

/-- Taking the arguments of a call apart and writing them again leaves the members as C strings hold them, unless
one of them is nested too deeply. -/
theorem appendJsonObjectOrEmpty_or {items : List (List UInt8 × List UInt8)}
    {members : List (List UInt8 × Value)} (h : List.Forall₂ AnyMember items members) :
    appendJsonObjectOrEmpty (0x7b :: membersText spaced spaced items ++ [0x7d]) = bytes "\x7b\x7d" ∧
        (∃ m ∈ members, ¬ m.2.Within jsonMaxNesting) ∨
      read (jsonMaxNesting + 1)
          (appendJsonObjectOrEmpty (0x7b :: membersText spaced spaced items ++ [0x7d])) =
            some (.object (members.map cutMember)) ∧
        ∀ m ∈ members, m.2.Within jsonMaxNesting := by
  rcases jsonArgsParse_or h with ⟨hnone, hdeep⟩ | ⟨args, hargs, hreads⟩
  · exact .inl ⟨by simp only [appendJsonObjectOrEmpty, hnone], hdeep⟩
  · simp only [appendJsonObjectOrEmpty, hargs, intercalate_jsonArgPair]
    have hmembers := hreads.imp fun arg m harg => harg.1
    have hobject : List.Forall₂ (MemberReads jsonMaxNesting)
        (args.map fun arg => (jsonEscape arg.key, arg.text)) (members.map cutMember) :=
      List.forall₂_map_left_iff.mpr (List.forall₂_map_right_iff.mpr hmembers)
    refine .inr ⟨read_object (by simp) (by simp) hobject, ?_⟩
    intro m hm
    obtain ⟨arg, -, harg⟩ := Traverse.forall₂_exists_left hreads hm
    exact harg.2

theorem cutMember_of_plain {item : List UInt8 × List UInt8} {member : List UInt8 × Value}
    (h : PlainMember item member) : cutMember member = member := by
  rw [cutMember, cString_eq h.2.1, cut_of_plain h.2.2]

/-- Taking the arguments of a call apart and writing them again does not change them. -/
theorem read_appendJsonObjectOrEmpty {items : List (List UInt8 × List UInt8)}
    {members : List (List UInt8 × Value)} (h : List.Forall₂ PlainMember items members) :
    read (jsonMaxNesting + 1)
      (appendJsonObjectOrEmpty (0x7b :: membersText spaced spaced items ++ [0x7d])) =
        some (.object members) := by
  have hany := h.imp fun item member hitem => (⟨jsonMaxNesting, hitem.1⟩ : AnyMember item member)
  have hcut : members.map cutMember = members := by
    refine (List.map_congr_left fun member hmember => ?_).trans (List.map_id members)
    obtain ⟨item, -, hitem⟩ := Traverse.forall₂_exists_left h hmember
    exact cutMember_of_plain hitem
  rcases appendJsonObjectOrEmpty_or hany with ⟨-, m, hm, hdeep⟩ | ⟨hread, -⟩
  · obtain ⟨item, -, hitem⟩ := Traverse.forall₂_exists_left h hm
    exact absurd (within_of_read hitem.1.2) hdeep
  · rwa [hcut] at hread

end Spark.Server
