import Spark.Server.Markers

/-!
# What the parser reads stands in the text

* **`invokes_of_parse`** — what the parser reads of a tool block is a block of the grammar.
-/

namespace Spark.Server

open Spark.Search

variable {syn : DsmlSyntax} {p rest args new members : List UInt8} {fuel : Nat}

/-! ## The front of a text -/

/-- The white space in front, and what it leaves. -/
theorem spaces_split (p : List UInt8) : ∃ ws, Spaces ws ∧ p = ws ++ skipAsciiWs p :=
  ⟨p.takeWhile isspace, fun _ hb => List.mem_takeWhile_imp hb, List.takeWhile_append_dropWhile.symm⟩

theorem skipAsciiWs_head (p : List UInt8) : ∀ b ∈ (skipAsciiWs p).head?, isspace b = false := by
  intro b hb
  have hhead := List.head?_dropWhile_not isspace p
  rw [skipAsciiWs] at hb
  rw [hb] at hhead
  simpa using hhead

theorem skipAsciiWs_zero (h0 : 0 ∉ p) : 0 ∉ skipAsciiWs p :=
  fun hmem => h0 ((List.dropWhile_suffix _).mem hmem)

/-- A marker at the front, and what is behind it. -/
theorem marker_split {marker : List UInt8} (h : marker.isPrefixOf p = true) :
    p = marker ++ p.drop marker.length := by
  obtain ⟨back, rfl⟩ := List.isPrefixOf_iff_prefix.mp h
  rw [List.drop_left]

theorem marker_no_close : ∀ syn ∈ dsmlSyntaxes, (0x3e ∉ syn.invokeStart ∧ 0x3e ∉ syn.paramStart) ∧
    syn.paramEnd ≠ [] := by
  decide

/-! ## Tags and values -/

/-- A tag is read as a whole. -/
theorem tagged_of_parse {start tag back name : List UInt8} (hstart : 0x3e ∉ start)
    (hopen : start.isPrefixOf p = true) (htag : dsmlTag p = some (tag, back))
    (hname : dsmlAttr tag (bytes "name") = some name) : p = tag ++ back ∧ Tagged start tag name := by
  obtain ⟨hp, body, rfl, hbody⟩ := dsmlTag_spec htag
  refine ⟨hp, ⟨?_, hname⟩⟩
  -- the marker ends before the tag does, for there is no `>` in it
  have hinside : start <+: body := by
    have hfront : body <+: p := by
      rw [hp, List.append_assoc]
      exact List.prefix_append _ _
    rcases List.prefix_or_prefix_of_prefix (List.isPrefixOf_iff_prefix.mp hopen) hfront with h | ⟨more, hmore⟩
    · exact h
    · have hclose := marker_split hopen
      rw [hp, ← hmore, List.append_assoc, List.append_assoc, List.append_cancel_left_eq] at hclose
      cases more with
      | nil => rw [← hmore, List.append_nil]
      | cons c more =>
        have hc := (List.cons.inj hclose).1
        exact absurd (show 0x3e ∈ start from by rw [← hmore, hc]; simp) hstart
  obtain ⟨more, rfl⟩ := hinside
  exact ⟨more, rfl, hbody⟩

/-- A value is read up to its closing tag. -/
theorem leafText_of_parse {tag name later : List UInt8} {type : Option (List UInt8)} (hend : syn.paramEnd ≠ [])
    (htag : Tagged syn.paramStart tag name) (htype : dsmlAttr tag (bytes "string") = type) (h0 : 0 ∉ p)
    (h : addLeafArg syn args name type p = some (new, later)) :
    ∃ value, LeafText syn ⟨name, type, value⟩ tag (tag ++ p) later ∧
      new = (⟨name, type, value⟩ : Leaf).addTo args ∧ p = value ++ syn.paramEnd ++ later := by
  unfold addLeafArg at h
  split at h
  case h_1 => cases h
  case h_2 valueEnd hsearch =>
    cases h
    obtain ⟨hsplit, -⟩ := strstr_split hend h0 hsearch
    have hp : p = p.take valueEnd ++ syn.paramEnd ++ p.drop (valueEnd + syn.paramEnd.length) := by
      rw [List.append_assoc, hsplit]
    have hlength : (p.take valueEnd).length = valueEnd := by
      have hocc : Occurs syn.paramEnd p valueEnd := by
        have hfirst := strstr_first hend h0
        rw [hsearch] at hfirst
        exact hfirst.1
      have hle := hocc.le hend
      rw [List.length_take]
      omega
    refine ⟨p.take valueEnd, ⟨htag, htype, ?_, by rw [← hp]⟩, rfl, hp⟩
    rw [← hp, hlength, ← hsearch, strstr_eq h0]

/-! ## Parameters and calls -/

/-- What follows a leaf has no zero byte either, and is shorter. -/
theorem zero_behind {front marker later : List UInt8} (hp : p = front ++ marker ++ later) (h0 : 0 ∉ p) : 0 ∉ later :=
  fun hmem => h0 (by rw [hp]; exact List.mem_append_right _ hmem)

theorem leaves_of_parse (hsyn : syn ∈ dsmlSyntaxes) {any any' : Bool} (h0 : 0 ∉ p)
    (h : dsmlNestedLoop syn fuel p members any = some ((new, any'), rest)) :
    ∃ leaves, Leaves syn p leaves rest ∧ new = leaves.foldl Leaf.addTo members ∧
      any' = (any || !leaves.isEmpty) := by
  obtain ⟨⟨-, hparam⟩, hend⟩ := marker_no_close syn hsyn
  induction fuel generalizing p members any with
  | zero => cases h
  | succ fuel ih =>
    obtain ⟨ws, hws, hp⟩ := spaces_split p
    have hzero := skipAsciiWs_zero h0
    have hhead := skipAsciiWs_head p
    unfold dsmlNestedLoop at h
    dsimp only at h
    generalize skipAsciiWs p = q at h hp hzero hhead
    subst hp
    split at h
    case isFalse hstop =>
      cases h
      exact ⟨[], .stop hws hhead (Bool.eq_false_iff.mpr hstop), rfl, by simp⟩
    case isTrue hopen =>
      rw [dsmlParseLeafParamJson, if_pos hopen] at h
      cases htag : dsmlTag q with
      | none => simp [htag] at h
      | some tagged =>
        obtain ⟨tag, back⟩ := tagged
        cases hname : dsmlAttr tag (bytes "name") with
        | none => simp [htag, hname] at h
        | some name =>
          obtain ⟨hq, htagged⟩ := tagged_of_parse hparam hopen htag hname
          cases hleaf : addLeafArg syn members name (dsmlAttr tag (bytes "string")) back with
          | none => simp [htag, hname, hleaf] at h
          | some read =>
            obtain ⟨args, later⟩ := read
            simp only [htag, hname, hleaf] at h
            have hback : 0 ∉ back := fun hmem => hzero (by rw [hq]; exact List.mem_append_right _ hmem)
            obtain ⟨value, htext, rfl, hvalue⟩ := leafText_of_parse hend htagged rfl hback hleaf
            obtain ⟨leaves, hleaves, rfl, rfl⟩ := ih (zero_behind hvalue hback) h
            rw [hq]
            exact ⟨_ :: leaves, .leaf hws htext hleaves, rfl, by simp⟩

theorem params_of_parse (hsyn : syn ∈ dsmlSyntaxes) (h0 : 0 ∉ p)
    (h : parseParams syn fuel p args = some (new, rest)) :
    ∃ params, Params syn p params rest ∧ new = params.foldl Param.addTo args := by
  obtain ⟨⟨-, hparam⟩, hend⟩ := marker_no_close syn hsyn
  induction fuel generalizing p args with
  | zero => cases h
  | succ fuel ih =>
    obtain ⟨ws, hws, hp⟩ := spaces_split p
    have hzero := skipAsciiWs_zero h0
    unfold parseParams at h
    dsimp only at h
    generalize skipAsciiWs p = q at h hp hzero
    subst hp
    split at h
    case isTrue hclose =>
      cases h
      refine ⟨[], ?_, rfl⟩
      rw [marker_split hclose]
      simpa using Params.close hws
    split at h
    case isFalse => cases h
    case isTrue hopen =>
      cases htag : dsmlTag q with
      | none => simp [htag] at h
      | some tagged =>
        obtain ⟨tag, back⟩ := tagged
        cases hname : dsmlAttr tag (bytes "name") with
        | none => simp [htag, hname] at h
        | some name =>
          obtain ⟨hq, htagged⟩ := tagged_of_parse hparam hopen htag hname
          have hback : 0 ∉ back := fun hmem => hzero (by rw [hq]; exact List.mem_append_right _ hmem)
          -- a value of its own, with the attribute or without
          have hflat {type : Option (List UInt8)} (htype : dsmlAttr tag (bytes "string") = type)
              (hno : type = none → syn.paramStart.isPrefixOf (skipAsciiWs back) = false)
              {args' later : List UInt8} (hleaf : addLeafArg syn args name type back = some (args', later))
              (hrest : parseParams syn fuel later args' = some (new, rest)) :
              ∃ params, Params syn (ws ++ q) params rest ∧ new = params.foldl Param.addTo args := by
            obtain ⟨value, htext, rfl, hvalue⟩ := leafText_of_parse hend htagged htype hback hleaf
            obtain ⟨params, hparams, rfl⟩ := ih (zero_behind hvalue hback) hrest
            rw [hq]
            exact ⟨_ :: params, .leaf hws htext (fun htype => by rw [← hvalue]; exact hno htype) hparams, rfl⟩
          cases htype : dsmlAttr tag (bytes "string") with
          | some type =>
            cases hleaf : addLeafArg syn args name (some type) back with
            | none => simp [htag, hname, htype, hleaf] at h
            | some read =>
              simp only [htag, hname, htype, hleaf] at h
              exact hflat htype (by simp) hleaf h
          | none =>
            simp only [htag, hname, htype] at h
            split at h
            case isFalse hno =>
              cases hleaf : addLeafArg syn args name none back with
              | none => simp [hleaf] at h
              | some read =>
                simp only [hleaf] at h
                exact hflat htype (fun _ => Bool.eq_false_iff.mpr hno) hleaf h
            case isTrue hinner =>
              rw [dsmlParseNestedParamsObject] at h
              cases hnested : dsmlNestedLoop syn (back.length + 1) back [] false with
              | none => simp [hnested] at h
              | some found =>
                obtain ⟨⟨inside, any⟩, later⟩ := found
                obtain ⟨leaves, hleaves, rfl, rfl⟩ := leaves_of_parse hsyn hback hnested
                cases hany : leaves.isEmpty with
                | true => simp [hnested, hany] at h
                | false =>
                  simp only [hnested, hany, Bool.false_or, Bool.not_false, hleaves.skipAsciiWs] at h
                  have hlater : 0 ∉ later := fun hmem => hback (hleaves.suffix.mem hmem)
                  obtain ⟨params, hparams, rfl⟩ := ih (by
                    split
                    · exact fun hmem => hlater (List.mem_of_mem_drop hmem)
                    · exact hlater) h
                  rw [hq]
                  exact ⟨.nested name leaves :: params, .nested hws htagged htype hinner hleaves hparams, rfl⟩

/-- What the parser reads of a tool block is a block of the grammar. -/
theorem invokes_of_parse (hsyn : syn ∈ dsmlSyntaxes) (h0 : 0 ∉ p) {calls found : List ToolCall}
    (h : parseInvokes syn fuel p calls = some (found, rest)) :
    ∃ invokes, Invokes syn p invokes rest ∧ found = calls ++ invokes.map Invoke.call := by
  obtain ⟨⟨hinvoke, -⟩, -⟩ := marker_no_close syn hsyn
  induction fuel generalizing p calls with
  | zero => cases h
  | succ fuel ih =>
    obtain ⟨ws, hws, hp⟩ := spaces_split p
    have hzero := skipAsciiWs_zero h0
    unfold parseInvokes at h
    dsimp only at h
    generalize skipAsciiWs p = q at h hp hzero
    subst hp
    split at h
    case isTrue hclose =>
      cases h
      refine ⟨[], ?_, by simp⟩
      rw [marker_split hclose]
      simpa using Invokes.close hws
    split at h
    case isFalse => cases h
    case isTrue hopen =>
      cases htag : dsmlTag q with
      | none => simp [htag] at h
      | some tagged =>
        obtain ⟨tag, back⟩ := tagged
        cases hname : dsmlAttr tag (bytes "name") with
        | none => simp [htag, hname] at h
        | some name =>
          obtain ⟨hq, htagged⟩ := tagged_of_parse hinvoke hopen htag hname
          have hback : 0 ∉ back := fun hmem => hzero (by rw [hq]; exact List.mem_append_right _ hmem)
          cases hparse : parseParams syn (back.length + 1) back [] with
          | none => simp [htag, hname, hparse] at h
          | some read =>
            obtain ⟨args, later⟩ := read
            simp only [htag, hname, hparse] at h
            obtain ⟨params, hparams, rfl⟩ := params_of_parse hsyn hback hparse
            obtain ⟨invokes, hinvokes, rfl⟩ := ih (fun hmem => hback (hparams.suffix.mem hmem)) h
            rw [hq]
            exact ⟨⟨name, params⟩ :: invokes, .invoke hws htagged hparams hinvokes, by simp [Invoke.call]⟩

end Spark.Server
