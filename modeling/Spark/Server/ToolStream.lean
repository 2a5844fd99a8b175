import Spark.Server.SafeLimits

/-!
# How a tool block is read while it grows

* **`toolLoop_ofTool`** — the actions of a tool block say nothing, and render no byte that is not there.
-/

namespace Spark.Server

open Spark.Search

variable {ts : ToolStream} {syn : DsmlSyntax} {text p tag rest : List UInt8} {n : Nat}

/-! ## Tags and literals -/

theorem rawFullLit_iff {pos : Nat} {lit : List UInt8} :
    rawFullLit text pos lit = true ↔ pos ≤ text.length ∧ lit <+: text.drop pos := by
  rw [rawFullLit, Bool.and_eq_true, decide_eq_true_iff, List.isPrefixOf_iff_prefix]

theorem rawFullLit_le {pos : Nat} {lit : List UInt8} (h : rawFullLit text pos lit = true) :
    pos + lit.length ≤ text.length := by
  obtain ⟨hpos, hlit⟩ := rawFullLit_iff.mp h
  have := hlit.length_le
  rw [List.length_drop] at this
  omega

theorem dsmlTag_le {pos : Nat} (h : dsmlTag (text.drop pos) = some (tag, rest)) :
    pos + tag.length ≤ text.length := by
  obtain ⟨hsplit, body, rfl, -⟩ := dsmlTag_spec h
  have := congrArg List.length hsplit
  simp only [List.length_drop, List.length_append, List.length_singleton] at this ⊢
  omega

/-! ## What is told of a block -/

/-- An action of a tool block, about a text of some length. -/
def OfTool (bound : Nat) : Action → Prop
  | .toolStart _ _ reach => reach ≤ bound
  | .toolArgs _ _ reach => reach ≤ bound
  | .toolEnd _ reach => reach ≤ bound
  | _ => False

/-- The white space in front never ends behind the text. -/
theorem skipWs_le (h : ts.parsePos ≤ text.length) : (ts.skipWs text).parsePos ≤ text.length := by
  have := (List.takeWhile_prefix (l := text.drop ts.parsePos) isspace).length_le
  rw [List.length_drop] at this
  show ts.parsePos + _ ≤ _
  omega

theorem toolStartInvoke_ofTool (ts : ToolStream) (text : List UInt8) :
    ∀ action ∈ (toolStartInvoke ts text).2, OfTool text.length action := by
  unfold toolStartInvoke
  split
  · nofun
  case h_2 tag rest htag =>
    have hle := dsmlTag_le htag
    split
    · nofun
    · simp [OfTool, hle]

theorem toolStartParam_ofTool (ts : ToolStream) (text : List UInt8) :
    ∀ action ∈ (toolStartParam ts text).2, OfTool text.length action := by
  unfold toolStartParam
  split
  · nofun
  case h_2 tag rest htag =>
    have hle := dsmlTag_le htag
    split
    · simp [OfTool, hle]
    · nofun

theorem emitValue_ofTool {limit : Nat} (hlimit : limit ≤ text.length) :
    ∀ action ∈ ts.emitValue text limit, OfTool text.length action := by
  unfold ToolStream.emitValue
  split
  · simp [OfTool, hlimit]
  · nofun

theorem toolBetweenInvokes_ofTool :
    ∀ action ∈ (toolBetweenInvokes syn ts text).1.2, OfTool text.length action := by
  unfold toolBetweenInvokes
  simp only
  split
  · nofun
  split
  · nofun
  split
  · nofun
  split
  · exact toolStartInvoke_ofTool _ _
  · nofun

theorem toolBetweenParams_ofTool :
    ∀ action ∈ (toolBetweenParams syn ts text).1.2, OfTool text.length action := by
  unfold toolBetweenParams
  simp only
  split
  · nofun
  split
  case isTrue hend =>
    have hle := rawFullLit_le hend
    split
    · simp [OfTool, hle]
    · simp [OfTool, hle]
  split
  · nofun
  split
  · exact toolStartParam_ofTool _ _
  · nofun

/-! ## Values that are not there as a whole -/

theorem dsmlEntityStreamSafeLen_le (raw : List UInt8) (start limit : Nat) :
    dsmlEntityStreamSafeLen raw start limit ≤ limit := by
  unfold dsmlEntityStreamSafeLen
  split
  · exact le_refl _
  case h_2 amp hamp =>
    have hlt := ((lastByte_spec _ _).1 amp hamp).2.1
    simp only
    split
    · omega
    · exact le_refl _

/-- The front of a closing tag that the text may break off in. -/
def valueLimit (text : List UInt8) (start : Nat) (paramEnd : List UInt8) : Nat :=
  match lastByte 0x3c text (if text.length > start + paramEnd.length then text.length - paramEnd.length
    else start) text.length with
  | none => text.length
  | some marker =>
    if text.length - marker < paramEnd.length ∧ (text.drop marker).isPrefixOf paramEnd then marker
    else text.length

theorem valueLimit_le (text : List UInt8) (start : Nat) (paramEnd : List UInt8) :
    valueLimit text start paramEnd ≤ text.length := by
  unfold valueLimit
  split
  · exact le_refl _
  case h_2 marker hmarker =>
    have hlt := ((lastByte_spec _ _).1 marker hmarker).2.1
    split
    · omega
    · exact le_refl _

theorem toolParamValueStreamSafeLen_le (text : List UInt8) (start : Nat) (paramEnd : List UInt8)
    (isString : Bool) : toolParamValueStreamSafeLen text start paramEnd isString ≤ valueLimit text start paramEnd := by
  refine (utf8StreamSafeLen_spec _ _ _ false).1.trans ?_
  show (if isString = true then dsmlEntityStreamSafeLen text start (valueLimit text start paramEnd)
    else valueLimit text start paramEnd) ≤ _
  split
  · exact dsmlEntityStreamSafeLen_le _ _ _
  · exact le_refl _

theorem distinct_paramEnd (hsyn : syn ∈ dsmlSyntaxes) : Distinct 0x3c [syn.paramEnd] := by
  have hall : ∀ syn ∈ dsmlSyntaxes, syn.paramEnd.head? = some 0x3c ∧ 0x3c ∉ syn.paramEnd.tail := by decide
  intro word hword
  rw [List.mem_singleton.mp hword]
  exact hall syn hsyn

/-- A value is never sent past where its closing tag may begin. -/
theorem valueLimit_before_end {whole : List UInt8} {start q : Nat} (hsyn : syn ∈ dsmlSyntaxes)
    (hn : n ≤ whole.length) (hnone : searchString syn.paramEnd ((whole.take n).drop start) = none)
    (hq : start ≤ q) (hat : Occurs syn.paramEnd whole q) : valueLimit (whole.take n) start syn.paramEnd ≤ q := by
  have hdistinct := distinct_paramEnd hsyn
  have hmem : syn.paramEnd ∈ [syn.paramEnd] := List.mem_singleton_self _
  have hne := hdistinct.ne_nil hmem
  have hlength : (whole.take n).length = n := by rw [List.length_take, min_eq_left hn]
  have hlate : n < q + syn.paramEnd.length := by
    have hfirst := searchString_first hne ((whole.take n).drop start)
    rw [hnone] at hfirst
    by_contra hle
    obtain ⟨k, rfl⟩ := Nat.exists_eq_add_of_le hq
    refine hfirst k ((occurs_drop start k).mpr ((occurs_take hne).mpr ⟨hat, by omega⟩))
  by_cases hthere : q < n
  · -- the tag has begun: its `<` is the last one
    have hlast : lastByte 0x3c (whole.take n)
        (if n > start + syn.paramEnd.length then n - syn.paramEnd.length else start) n = some q := by
      refine lastByte_eq ?_ hthere ?_ fun k hk hlt => ?_
      · split
        · omega
        · exact hq
      · rw [List.getElem?_take_of_lt hthere, hdistinct.letter hmem hat]
      · rw [List.getElem?_take_of_lt hlt]
        exact hdistinct.letter_only hmem hat hk (by omega)
    have hpart : ((whole.take n).drop q).isPrefixOf syn.paramEnd = true := by
      rw [List.isPrefixOf_iff_prefix, List.drop_take]
      obtain ⟨later, hlater⟩ := hat
      rw [← hlater, List.take_append_of_le_length (by omega)]
      exact List.take_prefix _ _
    rw [valueLimit, hlength, hlast]
    simp only
    rw [if_pos ⟨by omega, hpart⟩]
  · have hle := valueLimit_le (whole.take n) start syn.paramEnd
    omega

theorem searchString_le {needle : List UInt8} {pos offset : Nat} (hneedle : needle ≠ [])
    (h : searchString needle (text.drop pos) = some offset) : pos + offset + needle.length ≤ text.length := by
  have hfirst := searchString_first hneedle (text.drop pos)
  rw [h] at hfirst
  exact ((occurs_drop pos offset).mp hfirst.1).le hneedle

theorem toolParamValue_ofTool (hsyn : syn ∈ dsmlSyntaxes) :
    ∀ action ∈ (toolParamValue syn ts text).1.2, OfTool text.length action := by
  have hne := (distinct_paramEnd hsyn).ne_nil (List.mem_singleton_self _)
  unfold toolParamValue
  split
  case h_1 offset hoffset =>
    have hle := searchString_le hne hoffset
    intro action haction
    rcases List.mem_append.mp haction with h | h
    · exact emitValue_ofTool (by omega) action h
    · split at h
      · rw [List.mem_singleton.mp h]
        show ts.parsePos + offset ≤ text.length
        omega
      · cases h
  case h_2 =>
    exact emitValue_ofTool ((toolParamValueStreamSafeLen_le _ _ _ _).trans (valueLimit_le _ _ _))

/-- The dialect a stream reads is one of the known ones. -/
def ToolStream.Known (ts : ToolStream) : Prop := ∀ syn, ts.syn = some syn → syn ∈ dsmlSyntaxes

theorem toolTurn_ofTool (hknown : ts.Known) (text : List UInt8) :
    ∀ action ∈ (toolTurn ts text).1.2, OfTool text.length action := by
  unfold toolTurn
  split
  · exact toolBetweenInvokes_ofTool
  · exact toolBetweenParams_ofTool
  case h_3 hsome _ => exact toolParamValue_ofTool (hknown _ hsome)
  · nofun

theorem toolTurn_syn (ts : ToolStream) (text : List UInt8) : (toolTurn ts text).1.1.syn = ts.syn := by
  have hinvoke : ∀ ts : ToolStream, (toolStartInvoke ts text).1.syn = ts.syn := by
    intro ts
    unfold toolStartInvoke
    split
    · rfl
    · split
      · rfl
      · rfl
  have hparam : ∀ ts : ToolStream, (toolStartParam ts text).1.syn = ts.syn := by
    intro ts
    unfold toolStartParam
    split
    · rfl
    · split
      · rfl
      · rfl
  unfold toolTurn
  split
  · unfold toolBetweenInvokes
    simp only
    split
    · rfl
    split
    · rfl
    split
    · rfl
    split
    · exact hinvoke _
    · rfl
  · unfold toolBetweenParams
    simp only
    split
    · rfl
    split
    · rfl
    split
    · rfl
    split
    · exact hparam _
    · rfl
  · unfold toolParamValue
    split
    · rfl
    · rfl
  · rfl

/-- All that a tool block tells is of a tool block, and of bytes that are there. -/
theorem toolLoop_ofTool (text : List UInt8) (fuel : Nat) (hknown : ts.Known) :
    (∀ action ∈ (toolLoop fuel ts text).2, OfTool text.length action) ∧ (toolLoop fuel ts text).1.Known := by
  induction fuel generalizing ts with
  | zero => exact ⟨nofun, hknown⟩
  | succ fuel ih =>
    rw [toolLoop]
    split
    case isFalse => exact ⟨nofun, hknown⟩
    case isTrue =>
      have hturn := toolTurn_ofTool hknown text
      have hknown' : (toolTurn ts text).1.1.Known := by
        rw [ToolStream.Known, toolTurn_syn]
        exact hknown
      simp only
      split
      · obtain ⟨hrest, hlast⟩ := ih hknown'
        exact ⟨fun action h => (List.mem_append.mp h).elim (hturn action) (hrest action), hlast⟩
      · exact ⟨hturn, hknown'⟩

theorem known_zero : ToolStream.zero.Known := nofun

theorem known_init (text : List UInt8) (pos : Nat) : (ToolStream.init text pos).Known := by
  unfold ToolStream.init
  split
  case h_1 syn hfind =>
    intro syn' hsyn'
    rw [← Option.some.inj hsyn']
    exact List.mem_of_find?_eq_some hfind
  case h_2 => nofun

/-! ## What the parts of an update leave alone -/

variable {st : ReplyStream} {raw : List UInt8}

theorem send_frame (st : ReplyStream) (channel : Channel) (raw : List UInt8) (limit : Nat) :
    (st.send channel raw limit).1.tool = st.tool ∧ (st.send channel raw limit).1.mode = st.mode ∧
      (st.send channel raw limit).1.guardSecondReasoning = st.guardSecondReasoning := by
  unfold ReplyStream.send
  split
  · exact ⟨rfl, rfl, rfl⟩
  · exact ⟨rfl, rfl, rfl⟩

theorem send_active (st : ReplyStream) (channel : Channel) (raw : List UInt8) (limit : Nat) :
    (st.send channel raw limit).1.active = st.active := by
  unfold ReplyStream.send
  split
  · rfl
  · rfl

/-- The look for more reasoning stays in the answer, and is over when content follows. -/
theorem guardUpdate_mode (hasTools : Bool) (raw : List UInt8) (final : Bool) (hmode : st.mode = .text) :
    (guardUpdate hasTools st raw final).1.1.mode = .text ∧
      ((guardUpdate hasTools st raw final).2 = true →
        (guardUpdate hasTools st raw final).1.1.guardSecondReasoning = false) := by
  unfold guardUpdate
  split
  case isFalse hguard => exact ⟨hmode, fun _ => Bool.eq_false_iff.mpr hguard⟩
  case isTrue =>
    split
    · exact ⟨(send_frame st _ raw _).2.1.trans hmode, fun _ => rfl⟩
    · exact ⟨hmode, fun _ => rfl⟩
    · split
      · exact ⟨hmode, fun _ => rfl⟩
      · exact ⟨hmode, nofun⟩

/-- A stream that runs, on a dialect that is known. -/
structure Sound (st : ReplyStream) : Prop where
  active : st.active = true
  known : st.tool.Known

theorem sound_start (thinkEnabled hasTools : Bool) : Sound (ReplyStream.start thinkEnabled hasTools) :=
  ⟨rfl, known_zero⟩

theorem sound_send (h : Sound st) (channel : Channel) (raw : List UInt8) (limit : Nat) :
    Sound (st.send channel raw limit).1 :=
  ⟨(send_active st channel raw limit).trans h.active, (send_frame st channel raw limit).1.symm ▸ h.known⟩

theorem sound_thinkingUpdate (hasTools : Bool) (rawLen : Nat) (final : Bool) (h : Sound st) :
    Sound (thinkingUpdate hasTools st raw rawLen final).1 := by
  have hsend := fun limit => sound_send h .reasoning raw limit
  unfold thinkingUpdate
  split
  · simp only
    split
    · exact ⟨(hsend _).active, (hsend _).known⟩
    · exact hsend _
  · exact ⟨(hsend _).active, (hsend _).known⟩
  · split
    · exact ⟨(hsend _).active, (hsend _).known⟩
    · exact hsend _

theorem sound_guardUpdate (hasTools final : Bool) (h : Sound st) :
    Sound (guardUpdate hasTools st raw final).1.1 := by
  have hsend := fun limit => sound_send h .reasoning raw limit
  unfold guardUpdate
  split
  · split
    · exact ⟨(hsend _).active, (hsend _).known⟩
    · exact ⟨h.active, h.known⟩
    · split
      · exact ⟨h.active, h.known⟩
      · exact h
  · exact h

theorem sound_contentUpdate (t : Translator) (rawLen : Nat) (final : Bool) (h : Sound st) :
    Sound (contentUpdate t st raw rawLen final).1 := by
  have hsend := fun limit => sound_send h .content raw limit
  unfold contentUpdate
  simp only
  split
  · refine ⟨(hsend _).active, ?_⟩
    show ToolStream.Known (if _ then _ else _)
    split
    · exact known_init _ _
    · exact h.known
  · split
    · exact ⟨(hsend _).active, (hsend _).known⟩
    · exact hsend _

theorem sound_textUpdate (t : Translator) (rawLen : Nat) (final : Bool) (h : Sound st) :
    Sound (textUpdate t st raw rawLen final).1 := by
  unfold textUpdate
  simp only
  split
  · exact sound_contentUpdate t rawLen final (sound_guardUpdate t.hasTools final h)
  · exact sound_guardUpdate t.hasTools final h

theorem sound_toolUpdate (rawLen : Nat) (h : Sound st) : Sound (toolUpdate st raw rawLen).1 :=
  ⟨h.active, (toolLoop_ofTool (raw.take rawLen) _ h.known).2⟩

theorem checkThinkPrefix_frame {st' : ReplyStream} {rawLen : Nat} {final : Bool}
    (h : st.checkThinkPrefix raw rawLen final = some st') :
    st'.mode = st.mode ∧ st'.tool = st.tool ∧ st'.active = st.active ∧
      st'.guardSecondReasoning = st.guardSecondReasoning := by
  unfold ReplyStream.checkThinkPrefix at h
  split at h
  · cases h
    exact ⟨rfl, rfl, rfl, rfl⟩
  · split at h
    · cases h
    · cases h
      exact ⟨rfl, rfl, rfl, rfl⟩

theorem sound_readThinking (t : Translator) (rawLen : Nat) (final : Bool) (h : Sound st) :
    Sound (readThinking t st raw rawLen final).1 := by
  unfold readThinking
  split
  · exact h
  case h_2 st' hcheck =>
    obtain ⟨-, htool, hactive, -⟩ := checkThinkPrefix_frame hcheck
    exact sound_thinkingUpdate t.hasTools rawLen final ⟨hactive.trans h.active, htool.symm ▸ h.known⟩

theorem andIn_of {mode : StreamMode} {done : ReplyStream × List Action}
    (part : ReplyStream → ReplyStream × List Action) (hmode : done.1.mode = mode) :
    andIn mode part done = ((part done.1).1, done.2 ++ (part done.1).2) :=
  if_pos hmode

theorem andIn_of_ne {mode : StreamMode} {done : ReplyStream × List Action}
    (part : ReplyStream → ReplyStream × List Action) (hmode : done.1.mode ≠ mode) :
    andIn mode part done = done :=
  if_neg hmode

theorem sound_andIn {mode : StreamMode} {part : ReplyStream → ReplyStream × List Action}
    {done : ReplyStream × List Action} (hdone : Sound done.1) (hpart : ∀ st, Sound st → Sound (part st).1) :
    Sound (andIn mode part done).1 := by
  unfold andIn
  split
  · exact hpart _ hdone
  · exact hdone

theorem sound_streamUpdate (t : Translator) (raw : List UInt8) (rawLen : Nat) (final : Bool) (h : Sound st) :
    Sound (streamUpdate t st raw rawLen final).1 := by
  unfold streamUpdate
  split
  · exact h
  · refine sound_andIn (sound_andIn (sound_andIn h ?_) ?_) ?_
    · exact fun st h => sound_readThinking t rawLen final h
    · exact fun st h => sound_textUpdate t rawLen final h
    · exact fun st h => sound_toolUpdate rawLen h

end Spark.Server
