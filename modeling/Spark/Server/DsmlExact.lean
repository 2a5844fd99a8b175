import Spark.Server.DsmlSurvival

/-!
# Nothing else survives the DSML round trip

* **`not_read_as_itself`** — a string under a key that ends like the attribute is not read as itself.
* **`turn_survives_iff`** — a turn is read as it was written just when all its calls come back.
* **`entity_not_kept`** — not every turn is.
-/

namespace Spark.Server

open Json Spark.Search

variable {turn : Turn} {call : ObjectCall} {m : ArgMember} {limit : Nat} {s tail : List UInt8} {j v : Value}

/-! ## Behind a member -/

/-- What follows a member in an object as the parser writes it. -/
def MemberTail (tail : List UInt8) : Prop := tail = [0x7d] ∨ ∃ more, tail = 0x2c :: 0x20 :: 0x22 :: more

theorem MemberTail.cons (h : MemberTail tail) :
    ∃ c rest, tail = c :: rest ∧ c ≠ 0x22 ∧ isspace c = false ∧ isWordByte c = false := by
  rcases h with rfl | ⟨more, rfl⟩
  · exact ⟨_, _, rfl, by decide, rfl, rfl⟩
  · exact ⟨_, _, rfl, by decide, rfl, rfl⟩

theorem memberTail (items : List (List UInt8 × List UInt8)) (hitems : ∀ item ∈ items, ∃ s, item.1 = jsonEscape s) :
    MemberTail ((items.flatMap fun item => 0x2c :: spaced ++ memberText spaced item) ++ [0x7d]) := by
  cases items with
  | nil => exact .inl rfl
  | cons item items =>
    obtain ⟨s, hs⟩ := hitems item List.mem_cons_self
    right
    rw [List.flatMap_cons, memberText, hs]
    exact ⟨_, rfl⟩

/-- Behind a value, what ends a word goes on as behind the value. -/
theorem yields_of_holds {state : State} {stack : List Frame} (h : Holds state v stack) (htail : MemberTail tail)
    (hyields : Yields limit state tail j) : Yields limit ⟨.after v, stack⟩ tail j := by
  obtain ⟨c, rest, rfl, -, -, hc⟩ := htail.cons
  obtain ⟨next, hnext, hrest⟩ := yields_cons.mp hyields
  rw [h.feed hc] at hnext
  exact yields_cons.mpr ⟨next, hnext, hrest⟩

/-! ## Strings under a key that ends like the attribute -/

/-- A string that begins in `front` and ends before the next member's key has its backslashes from `front`. -/
theorem backslashes_of_quote {front ws raw t : List UInt8} (htail : MemberTail tail)
    (htext : front ++ tail = ws ++ 0x22 :: (raw ++ 0x22 :: t)) (hws : ∀ b ∈ ws, isspace b = true)
    (hscan : scan false raw = some false) : 0x22 ∈ front ∧ raw.count 0x5c ≤ front.count 0x5c := by
  obtain ⟨c, rest, hcons, hquote, hspace, -⟩ := htail.cons
  rcases List.append_eq_append_iff.mp htext with ⟨past, rfl, hpast⟩ | ⟨inside, rfl, hinside⟩
  · -- white space or the quote would stand where the tail begins
    cases past with
    | nil =>
      rw [hcons] at hpast
      exact absurd (List.cons.inj hpast).1 hquote
    | cons b past =>
      rw [hcons] at hpast
      have hb := hws b (by simp)
      rw [← (List.cons.inj hpast).1, hspace] at hb
      cases hb
  · cases inside with
    | nil =>
      rw [hcons] at hinside
      exact absurd (List.cons.inj hinside).1.symm hquote
    | cons b inside =>
      obtain ⟨rfl, hrest⟩ := List.cons.inj hinside
      refine ⟨by simp, ?_⟩
      have hcount : (ws ++ 0x22 :: inside).count 0x5c = ws.count 0x5c + inside.count 0x5c := by
        rw [List.count_append, List.count_cons_of_ne (by decide)]
      rw [hcount]
      rcases List.append_eq_append_iff.mp hrest with ⟨rest', rfl, -⟩ | ⟨beyond, rfl, hbeyond⟩
      · rw [List.count_append]
        omega
      · have hnone : beyond.count 0x5c = 0 := by
          rcases htail with rfl | ⟨more, rfl⟩
          · match beyond, hbeyond with
            | [], _ => rfl
            | b :: c :: beyond, hbeyond => cases hbeyond
          · match beyond, hbeyond with
            | [], _ => rfl
            | [b], hbeyond =>
              cases hbeyond
            | [b, c], hbeyond =>
              cases hbeyond
              rfl
            | b :: c :: d :: beyond, hbeyond =>
              -- the quote of the next key would end the string
              cases hbeyond
              rw [scan_append] at hscan
              obtain ⟨escaped, -, hscan⟩ := Option.bind_eq_some_iff.mp hscan
              cases escaped <;> cases hscan
        rw [List.count_append, hnone]
        omega

theorem jsonMinifyRawValue_sublist (json : List UInt8) : (jsonMinifyRawValue json).Sublist json := by
  rw [jsonMinifyRawValue]
  cases hskip : jsonSkipValue (jsonWs json) with
  | none => exact List.Sublist.refl _
  | some rest =>
    simp only
    exact (strip_sublist _ _ _).trans ((List.take_sublist _ _).trans (List.dropWhile_sublist _))

/-- The text of a value is no longer in backslashes or quotes than the value was. -/
theorem argText_count {value type : List UInt8} (htype : type ≠ bytes "true") :
    (argText value type).count 0x5c ≤ value.count 0x5c ∧ (0x22 ∈ argText value type → 0x22 ∈ value) := by
  rw [argText, if_neg htype]
  simp only
  split
  · exact ⟨by rw [show (bytes "null").count 0x5c = 0 from rfl]; exact Nat.zero_le _, fun h => absurd h (by decide)⟩
  · have hsub := jsonMinifyRawValue_sublist value
    exact ⟨hsub.count_le _, fun h => hsub.mem h⟩

theorem cString_sublist (s : List UInt8) : (cString s).Sublist s := List.takeWhile_sublist _

/-- A string under such a key is written as it is but read as JSON, which takes a backslash for its quotes. -/
theorem not_read_as_itself {stack : List Frame} (hs : m.value = .string s) (hkey : StringKey m.arg.key)
    (htail : MemberTail tail) (hlimit : stack.length ≤ limit)
    (h : Yields limit ⟨.value, stack⟩ (m.arg.leaf.item.2 ++ tail) j) :
    ∃ v t, v ≠ .string s ∧ Yields limit ⟨.after v, stack⟩ t j := by
  have hstring : ¬ m.arg.leaf.isString := fun hstring => ((isString_iff _).mp hstring).2 hkey
  have htext : m.arg.leaf.item.2 = argText m.arg.body (readType m.arg.key m.arg.isString) := by
    simp only [Leaf.item, if_neg hstring]
    rfl
  obtain ⟨t, v, -, -, hwritten, hyields⟩ := @jsonSkipValueDepth_spec limit stack _ [] j (limit - stack.length)
    (by omega) (by simp [Stops]) h
  refine ⟨v, t, ?_, hyields⟩
  rintro rfl
  obtain ⟨ws, raw, heq, hws, hscan, hdecode⟩ := hwritten s rfl
  obtain ⟨hquote, hcount⟩ := backslashes_of_quote htail heq hws hscan
  have hdecoded := special_decode hscan hdecode
  -- the body has the quotes and the backslashes of the string, at most
  have hbody : m.arg.body = appendDsmlParameterText (cString s) := by
    rw [m.arg_string hs]
    rfl
  have htype : readType m.arg.key m.arg.isString ≠ bytes "true" := by
    rw [readType, if_pos hkey]
    decide
  obtain ⟨hargCount, hargQuote⟩ := @argText_count m.arg.body _ htype
  rw [htext] at hquote hcount
  have hescaped : ∀ c, c ∉ bytes "&lt;" → m.arg.body.count c ≤ s.count c := fun c hc => by
    rw [hbody]
    exact (count_escapeWord_le hc _).trans ((cString_sublist s).count_le c)
  have hfew := hescaped 0x5c (by decide)
  have hone := List.count_pos_iff.mpr (hargQuote hquote)
  have hsome := hescaped 0x22 (by decide)
  rw [special] at hdecoded
  omega

/-! ## Member by member -/

/-- What a member has to be to be read as it was, apart from `</think>`. -/
def ArgMember.Back (m : ArgMember) : Prop :=
  0 ∉ m.key ∧ ∀ s, m.value = .string s → 0 ∉ s ∧ NoEntity s ∧ ¬ StringKey m.key

theorem back_of_unescape (h : dsmlUnescapeText (cString s) = s) : 0 ∉ s ∧ NoEntity s := by
  have hcut := (cString_sublist s).length_le
  have hle := (length_unescape (cString s)).1
  rw [h] at hle
  have hself : cString s = s := (cString_sublist s).eq_of_length (by omega)
  rw [hself] at h
  exact ⟨cString_eq_self_iff.mp hself, unescape_eq_self_iff.mp h⟩

variable {done later : List (List UInt8 × Value)} {old : List UInt8} {mode : Mode}

theorem entry_unique {a b : List UInt8 × Value} {more : List (List UInt8 × Value)}
    (h : (Value.object (done ++ a :: later)) = .object (done ++ b :: more)) : a = b := by
  have hlist := Value.object.inj h
  exact (List.cons.inj (List.append_cancel_left hlist)).1

/-- A member of an object that is read as the object it was. -/
theorem member_back (hmode : mode = .key ∨ mode = .keyOrClose) (htail : MemberTail tail)
    (hmeans : (∀ s, m.value ≠ .string s) → m.arg.leaf.Means limit (cString m.key, m.value))
    (h : Yields (limit + 1) ⟨mode, [.object done old]⟩ (memberText spaced m.arg.leaf.item ++ tail)
      (.object (done ++ (m.key, m.value) :: later))) :
    m.Back ∧ ∃ state, Holds state m.value [.object done m.key] ∧
      Yields (limit + 1) state tail (.object (done ++ (m.key, m.value) :: later)) := by
  -- a member that reads as some value is that value
  have hknown {value : Value} (hvalue : m.arg.leaf.Means limit (cString m.key, value)) :
      (m.key, m.value) = (cString m.key, value) ∧ ∃ state, Holds state m.value [.object done m.key] ∧
        Yields (limit + 1) state tail (.object (done ++ (m.key, m.value) :: later)) := by
    obtain ⟨state, hrun, hholds⟩ := @run_member limit [] spaced (by simp [spaced, isWs]) _ _ done old mode hmode
      hvalue.reads
    have hyields : Yields (limit + 1) state tail (.object (done ++ (m.key, m.value) :: later)) := by
      rw [Yields, run_append] at h
      rw [show run (limit + 1) ⟨mode, [.object done old]⟩ _ = some state from hrun] at h
      exact h
    obtain ⟨more, hmore⟩ := (yields_of_holds hholds htail hyields).members (Nat.succ_pos _)
    have hsame := entry_unique hmore
    obtain ⟨hkey, hval⟩ := Prod.mk.inj hsame
    refine ⟨hsame, state, ?_, hyields⟩
    rw [hval]
    nth_rewrite 2 [hkey]
    exact hholds
  rcases m.string_or with ⟨s, hs⟩ | hother
  · by_cases hkey : StringKey m.arg.key
    · -- the key and the colon are read, and what follows is no string that the key had
      exfalso
      have hname : Quotes m.arg.leaf.item.1 (cString m.key) := by
        rw [← m.arg_key]
        exact quotes_jsonEscape _
      have hvalue : Yields (limit + 1) ⟨.value, [.object done (cString m.key)]⟩ (m.arg.leaf.item.2 ++ tail)
          (.object (done ++ (m.key, m.value) :: later)) := by
        rw [memberText, List.append_assoc, List.cons_append, List.cons_append, Yields, run_append,
          run_quotes hmode hname] at h
        exact h
      obtain ⟨v, t, hne, hyields⟩ := not_read_as_itself hs hkey htail (by simp) hvalue
      obtain ⟨more, hmore⟩ := hyields.members (Nat.succ_pos _)
      rw [hs] at hmore
      exact hne (Prod.mk.inj (entry_unique hmore)).2.symm
    · obtain ⟨hsame, hstate⟩ := hknown (means_string hkey hs limit)
      obtain ⟨hname, hval⟩ := Prod.mk.inj hsame
      have hzero : 0 ∉ m.key := cString_eq_self_iff.mp hname.symm
      rw [m.arg_key, ← hname] at hkey
      rw [hs] at hval
      have hback := back_of_unescape (Value.string.inj hval).symm
      refine ⟨⟨hzero, fun s' hs' => ?_⟩, hstate⟩
      obtain rfl := Value.string.inj (hs.symm.trans hs')
      exact ⟨hback.1, hback.2, hkey⟩
  · obtain ⟨hsame, hstate⟩ := hknown (hmeans hother)
    exact ⟨⟨cString_eq_self_iff.mp (Prod.mk.inj hsame).1.symm, fun s hs => absurd hs (hother s)⟩, hstate⟩

/-- The text of a member's parameter as an argument. -/
def ArgMember.back (m : ArgMember) : List UInt8 × List UInt8 := m.arg.leaf.item

def ArgMember.entry (m : ArgMember) : List UInt8 × Value := (m.key, m.value)

theorem memberTail_back (members : List ArgMember) :
    MemberTail (((members.map ArgMember.back).flatMap fun item => 0x2c :: spaced ++ memberText spaced item) ++
      [0x7d]) := by
  refine memberTail _ fun item hitem => ?_
  obtain ⟨m, -, rfl⟩ := List.mem_map.mp hitem
  exact ⟨_, rfl⟩

/-- The members behind one that was read are read as they were. -/
theorem members_back {members : List ArgMember} {key : List UInt8} {state : State}
    (hmeans : ∀ m ∈ members, (∀ s, m.value ≠ .string s) → m.arg.leaf.Means limit (cString m.key, m.value))
    (hstate : Holds state v [.object done key])
    (h : Yields (limit + 1) state
      (((members.map ArgMember.back).flatMap fun item => 0x2c :: spaced ++ memberText spaced item) ++ [0x7d])
      (.object (done ++ (key, v) :: members.map ArgMember.entry))) : ∀ m ∈ members, m.Back := by
  induction members generalizing done key v state with
  | nil => simp
  | cons m members ih =>
    obtain ⟨hm, hlater⟩ := List.forall_mem_cons.mp hmeans
    rw [List.map_cons, List.flatMap_cons, List.append_assoc, List.append_assoc, List.cons_append,
      List.map_cons] at h
    obtain ⟨next, hnext, h⟩ := yields_cons.mp h
    rw [hstate.feed rfl] at hnext
    cases hnext
    have hkey : Yields (limit + 1) ⟨.key, [.object (done ++ [(key, v)]) []]⟩ (memberText spaced m.arg.leaf.item ++
        (((members.map ArgMember.back).flatMap fun item => 0x2c :: spaced ++ memberText spaced item) ++ [0x7d]))
        (.object ((done ++ [(key, v)]) ++ (m.key, m.value) :: members.map ArgMember.entry)) := by
      rw [Yields, run_append, run_ws (fun b hb => by simp [Json.feed, hb]) (by simp [spaced, isWs])] at h
      rw [List.append_assoc]
      exact h
    obtain ⟨hback, state', hholds, hyields⟩ := member_back (.inl rfl) (memberTail_back members) hm hkey
    exact List.forall_mem_cons.mpr ⟨hback, ih hlater hholds hyields⟩

theorem means_others (members : List ArgMember) : ∃ limit, ∀ limit', limit ≤ limit' → ∀ m ∈ members,
    (∀ s, m.value ≠ .string s) → m.arg.leaf.Means limit' (cString m.key, m.value) := by
  induction members with
  | nil => exact ⟨0, by simp⟩
  | cons m members ih =>
    obtain ⟨limit, hall⟩ := ih
    rcases m.string_or with ⟨s, hs⟩ | hother
    · exact ⟨limit, fun limit' hle => List.forall_mem_cons.mpr ⟨fun h => absurd hs (h s), hall limit' hle⟩⟩
    · obtain ⟨limit₁, hmeans⟩ := means_other hother
      refine ⟨max limit limit₁, fun limit' hle => ?_⟩
      exact List.forall_mem_cons.mpr ⟨fun _ => hmeans limit' (by omega), hall limit' (by omega)⟩

/-- An object whose members were written and read as parameters is the same only when every member is. -/
theorem object_back {members : List ArgMember} (h : read limit (0x7b :: membersText spaced spaced
    (members.map ArgMember.back) ++ [0x7d]) = some (.object (members.map ArgMember.entry))) :
    ∀ m ∈ members, m.Back := by
  cases members with
  | nil => simp
  | cons m members =>
    obtain ⟨limit₁, hmeans⟩ := means_others (m :: members)
    obtain ⟨hm, hlater⟩ := List.forall_mem_cons.mp (hmeans (max limit limit₁) (Nat.le_max_right _ _))
    have hmore := read_mono h (show limit ≤ max limit limit₁ + 1 by omega)
    rw [List.map_cons, membersText, List.cons_append, List.append_assoc] at hmore
    obtain ⟨next, hnext, hyields⟩ := yields_cons.mp hmore
    have hopen : Json.feed (max limit limit₁ + 1) ⟨.value, []⟩ 0x7b = some ⟨.keyOrClose, [.object [] []]⟩ := by
      simp [Json.feed, isWs, startValue]
    rw [hopen] at hnext
    cases hnext
    obtain ⟨hback, state, hholds, hyields⟩ := @member_back m _ _ [] (members.map ArgMember.entry) [] .keyOrClose
      (.inr rfl) (memberTail_back members) hm hyields
    exact List.forall_mem_cons.mpr ⟨hback, members_back hlater hholds hyields⟩

/-! ## The whole turn -/

/-- Behind a `</think>` in the block, the content would be longer than it was. -/
theorem no_close_of_survives (h : turn.Survives) : ¬ thinkClose <:+: turn.block := by
  intro hclose
  obtain ⟨message, hparse, -, hcontent, hcalls⟩ := h
  have h0 : 0 ∉ turn.text := text_zero fun call _ => call.clean
  obtain ⟨k, hk⟩ := infix_iff_occurs.mp hclose
  have hthere : Occurs thinkClose turn.text
      (turn.reasoning.length + thinkClose.length + turn.content.length + k) := by
    rw [← occurs_drop, ← List.drop_drop, drop_reasoning, List.drop_left]
    exact hk
  have hlast := findLastSubstr_last thinkClose_ne_nil h0
  cases hfind : findLastSubstr turn.text thinkClose with
  | none =>
    rw [hfind] at hlast
    exact hlast _ hthere
  | some i =>
    rw [hfind] at hlast
    have hi : turn.reasoning.length + thinkClose.length + turn.content.length ≤ i := by
      by_contra hlt
      exact hlast.2 _ (by omega) hthere
    have hsearch : toolSearch turn.text true = some (i + thinkClose.length, false) := by
      rw [toolSearch, if_pos rfl, hfind]
    rw [parseDeepseekGeneratedMessageEx, hsearch] at hparse
    simp only at hparse
    cases hblock : findToolBlock (turn.text.drop (i + thinkClose.length)) with
    | none =>
      rw [hblock] at hparse
      cases hparse
      exact turn.calling (List.forall₂_nil_right_iff.mp hcalls)
    | some found =>
      obtain ⟨pos, syn⟩ := found
      rw [hblock] at hparse
      simp only at hparse
      generalize hlen : trimToolSeparatorWs turn.text 0 (i + thinkClose.length + pos) = len at hparse
      -- the content goes at least to the end of that `</think>`
      have hge : i + thinkClose.length ≤ len := by
        obtain ⟨-, -, hspaces, -⟩ := trimToolSeparatorWs_spec turn.text 0 (i + thinkClose.length + pos)
        by_contra hlt
        have hspace := hspaces (i + (thinkClose.length - 1)) (by rw [hlen]; omega)
          (by rw [length_thinkClose]; omega)
        rw [spaceAt, hlast.1.getElem? (by decide)] at hspace
        cases hspace
      have hsplit : turn.text.take len = turn.reasoning ++ thinkClose ++
          (turn.content ++ turn.block).take (len - (turn.reasoning.length + thinkClose.length)) := by
        have htext : turn.text = (turn.reasoning ++ thinkClose) ++ (turn.content ++ turn.block) := by
          rw [Turn.text, List.append_assoc _ turn.content]
        rw [htext, ← List.length_append, List.take_append, List.take_of_length_le]
        rw [List.length_append]
        omega
      have hlonger : turn.content.length <
          ((turn.content ++ turn.block).take (len - (turn.reasoning.length + thinkClose.length))).length := by
        have hle := hlast.1.le thinkClose_ne_nil
        have hlength : turn.text.length =
            turn.reasoning.length + thinkClose.length + (turn.content ++ turn.block).length := by
          rw [← drop_reasoning, List.length_drop]
          omega
        rw [List.length_take, length_thinkClose] at *
        omega
      have h0' : 0 ∉ (turn.content ++ turn.block).take (len - (turn.reasoning.length + thinkClose.length)) := by
        rw [← drop_reasoning]
        exact fun hmem => h0 (List.mem_of_mem_drop (List.mem_of_mem_take hmem))
      rw [hsplit, split_turn turn h0'] at hparse
      split at hparse
      · cases hparse
      · split at hparse
        · cases hparse
        · simp only [Bool.false_eq_true, if_false] at hparse
          cases hparse
          exact absurd (congrArg List.length hcontent) hlonger.ne'

/-- A call that comes back was read by the server's own reader when it was written. -/
theorem readable_of_same (h : SameCall call (readBack call.toolCall).call) :
    (jsonArgsParse call.arguments).isSome ∧ callArgs call.arguments = call.members.map ArgMember.arg := by
  rcases call.callArgs_eq with hread | ⟨⟨m, hm, hdeep⟩, hargs⟩
  · exact hread
  · exfalso
    obtain ⟨-, limit, hread⟩ := h
    -- all of the arguments come back as one string, and a string is not nested
    have hone : List.Forall₂ (fun arg member => JsonArg.leaf arg |>.Means limit member)
        (callArgs call.toolCall.arguments) [(bytes "arguments", .string (dsmlUnescapeText
          (appendDsmlParameterText call.arguments)))] := by
      show List.Forall₂ _ (callArgs call.arguments) _
      rw [hargs]
      refine .cons ⟨rfl, ?_⟩ .nil
      rw [if_pos ((isString_iff _).mpr ⟨rfl, show ¬ StringKey (bytes "arguments") by decide⟩)]
      rfl
    have hobject := read_readBack hone
    have hsame := (read_mono hread (Nat.le_succ limit)).symm.trans hobject
    have hmembers : call.members.map ArgMember.entry = _ := Value.object.inj (Option.some.inj hsame)
    obtain ⟨m', hm', hentry⟩ : ∃ m', call.members = [m'] ∧ m'.entry = _ := List.map_eq_singleton_iff.mp hmembers
    rw [hm', List.mem_singleton] at hm
    subst hm
    have hs : m.value = .string _ := (Prod.mk.inj hentry).2
    refine hdeep ?_
    rw [ArgMember.Shallow]
    rcases m.reads_value with ⟨s, hs', hquotes⟩ | ⟨hother, -⟩
    · rw [hs']
      exact read_quotes hquotes
    · exact absurd hs (hother _)

theorem fits_of_survives (h : turn.Survives) : ∀ call ∈ turn.calls, call.Fits := by
  have hclose := no_close_of_survives h
  obtain ⟨message, hparse, -, -, hcalls⟩ := h
  rw [parse_turn (fun call _ => call.clean) hclose] at hparse
  cases hparse
  rw [List.forall₂_map_right_iff, List.forall₂_same] at hcalls
  intro call hcall
  have hsame := hcalls call hcall
  obtain ⟨hreadable, hargs⟩ := readable_of_same hsame
  refine ⟨hreadable, fun m hm => ?_⟩
  obtain ⟨-, limit, hread⟩ := hsame
  have htext : (readBack call.toolCall).call.arguments =
      0x7b :: membersText spaced spaced (call.members.map ArgMember.back) ++ [0x7d] := by
    show 0x7b :: ((callArgs call.arguments).map fun arg => Param.leaf arg.leaf).foldl Param.addTo [] ++ [0x7d] = _
    rw [foldl_params, hargs, List.map_map, List.map_map]
    rfl
  rw [htext] at hread
  obtain ⟨hkey, hback⟩ := object_back hread m hm
  have hplain : ¬ thinkClose <:+: m.arg.value := fun hat =>
    hclose (close_block_iff.mpr ⟨call, hcall, m.arg, by rw [hargs]; exact List.mem_map_of_mem hm, hat⟩)
  rcases m.string_or with ⟨s, hs⟩ | hother
  · obtain ⟨hzero, hnone, hstringKey⟩ := hback s hs
    rw [m.arg_string hs] at hplain
    rw [m.fits_string hs]
    refine ⟨hkey, hzero, hnone, ?_, hstringKey⟩
    rwa [show (⟨cString m.key, cString s, true⟩ : JsonArg).value = s from cString_eq hzero] at hplain
  · rw [m.arg_other hother] at hplain
    exact (m.fits_other hother).mpr ⟨hkey, hplain⟩

/-- A turn is read as it was written just when all its calls come back. -/
theorem turn_survives_iff (turn : Turn) : turn.Survives ↔ ∀ call ∈ turn.calls, call.Fits :=
  ⟨fits_of_survives, survives_of_fits⟩

/-! ## One that does not -/

/-- A member whose value is written with an entity in it. -/
def entityMember : ArgMember where
  keyText := bytes "\"k\""
  valueText := bytes "\"a&amp;b\""
  key := bytes "k"
  value := .string (bytes "a&amp;b")
  reads_key := ⟨bytes "k", rfl, rfl, by decide⟩
  reads_value := .inl ⟨bytes "a&amp;b", rfl, bytes "a&amp;b", rfl, rfl, by decide⟩

def entityCall : ObjectCall where
  name := bytes "f"
  arguments := bytes "\x7b\"k\":\"a&amp;b\"\x7d"
  members := [entityMember]
  named := by decide
  cstring := by decide
  text := @ObjectText.members [] _ _ (by simp [Blank])
    (.last ⟨[], [], [], [], by simp [Blank]⟩ entityMember.item [])
  distinct := by decide

def entityTurn : Turn where
  reasoning := []
  content := []
  calls := [entityCall]
  cstring := by simp
  reasoning_plain := by decide
  content_plain := by decide
  content_ends := by simp
  calling := by simp

/-- The parser turns the entity back although the renderer did not write it: `a&amp;b` becomes `a&b`. -/
theorem entity_not_kept : ¬ ∀ turn : Turn, turn.Survives := by
  intro hall
  have hfits := fits_of_survives (hall entityTurn) entityCall List.mem_cons_self
  obtain ⟨-, -, hnone, -⟩ := (entityMember.fits_string rfl).mp (hfits.each entityMember List.mem_cons_self)
  exact hnone (bytes "&amp;", 0x26) (by decide) ⟨bytes "a", bytes "b", by decide⟩

end Spark.Server
