import Spark.Server.BlockReading
import Spark.Server.GlmCalls
import Spark.Server.ToolArguments

/-!
# What the GLM parser reads stands in the text

* **`glmInvokes_of_parse`** — what the parser reads are calls of the grammar.
* **`calls_of_glmInvokes`** — and it reads no other ones.
-/

namespace Spark.Server

open Spark.Search

variable {p body rest args new : List UInt8} {fuel close : Nat}

/-! ## The grammar -/

/-- The arguments of a call, up to the end of its closing tag. Every value is a string. -/
inductive GlmParams : List UInt8 → List Param → List UInt8 → Prop where
  | close {ws rest} (hws : Spaces ws) : GlmParams (ws ++ (glmToolEnd ++ rest)) [] rest
  | arg {ws key between value behind later params rest} (hws : Spaces ws) (hbetween : Spaces between)
      (hkey : strstr behind glmArgKeyEnd = some key.length)
      (hbehind : behind = key ++ (glmArgKeyEnd ++ (between ++
        (glmArgValueStart ++ (value ++ (glmArgValueEnd ++ later))))))
      (hvalue : strstr (value ++ (glmArgValueEnd ++ later)) glmArgValueEnd = some value.length)
      (h : GlmParams later params rest) :
      GlmParams (ws ++ (glmArgKeyStart ++ behind))
        (.leaf ⟨dsmlUnescapeText (trimConstSpan key), none, value⟩ :: params) rest

/-- The name of a call whose body is closed at `close`. -/
def glmName (body : List UInt8) (close : Nat) : List UInt8 := trimConstSpan (body.take (glmNameEnd body close))

/-- What stands behind the name. -/
def glmArgs (body : List UInt8) (close : Nat) : List UInt8 :=
  body.drop (((body.take (glmNameEnd body close)).takeWhile isspace).length + (glmName body close).length)

/-- The calls that follow one another, up to where no further one stands. -/
inductive GlmInvokes : List UInt8 → List Invoke → List UInt8 → Prop where
  | stop {ws rest} (hws : Spaces ws) (hrest : ∀ b ∈ rest.head?, isspace b = false)
      (hstop : glmToolStart.isPrefixOf rest = false) : GlmInvokes (ws ++ rest) [] rest
  | call {ws body close params later invokes rest} (hws : Spaces ws) (hclose : strstr body glmToolEnd = some close)
      (hparams : GlmParams (glmArgs body close) params later) (h : GlmInvokes later invokes rest) :
      GlmInvokes (ws ++ (glmToolStart ++ body)) (⟨glmName body close, params⟩ :: invokes) rest

theorem GlmParams.suffix {params : List Param} (h : GlmParams p params rest) : rest <:+ p := by
  induction h with
  | @close ws rest hws => exact (List.suffix_append _ rest).trans (List.suffix_append _ _)
  | @arg ws key between value behind later params rest hws hbetween hkey hbehind hvalue _ ih =>
    refine ih.trans ?_
    have hlater : later <:+ behind := by
      rw [hbehind]
      exact ⟨key ++ glmArgKeyEnd ++ between ++ glmArgValueStart ++ value ++ glmArgValueEnd, by simp⟩
    exact hlater.trans ((List.suffix_append _ _).trans (List.suffix_append _ _))

/-! ## What is read is of the grammar -/

/-- A word that is found, with what stands before and behind it. -/
theorem found_split {word : List UInt8} {k : Nat} (hword : word ≠ []) (h0 : 0 ∉ p) (h : strstr p word = some k) :
    p = p.take k ++ (word ++ p.drop (k + word.length)) ∧ (p.take k).length = k := by
  have hsplit := (strstr_split hword h0 h).1
  refine ⟨hsplit.symm, ?_⟩
  have hlength := congrArg List.length hsplit
  have hpos := List.length_pos_of_ne_nil hword
  simp only [List.length_append, List.length_take, List.length_drop] at hlength ⊢
  omega

theorem glmParams_of_parse (h0 : 0 ∉ p) (h : glmArgsLoop close fuel p args = some (new, rest)) :
    ∃ params, GlmParams p params rest := by
  induction fuel generalizing p args with
  | zero => cases h
  | succ fuel ih =>
    obtain ⟨ws, hws, hp⟩ := spaces_split p
    have hzero := skipAsciiWs_zero h0
    unfold glmArgsLoop at h
    dsimp only at h
    generalize skipAsciiWs p = q at h hp hzero
    subst hp
    split at h
    case isTrue hend =>
      cases h
      refine ⟨[], ?_⟩
      rw [marker_split hend]
      simpa using GlmParams.close hws
    split at h
    case isFalse => cases h
    case isTrue hopen =>
      have hq := marker_split hopen
      have hzero' : 0 ∉ q.drop glmArgKeyStart.length := fun hmem => hzero (List.mem_of_mem_drop hmem)
      generalize q.drop glmArgKeyStart.length = r at h hq hzero'
      cases hkey : strstr r glmArgKeyEnd with
      | none => simp [hkey] at h
      | some keyEnd =>
        rw [hkey] at h
        dsimp only at h
        obtain ⟨hr, hlength⟩ := found_split (by decide) hzero' hkey
        split at h
        case isTrue => cases h
        obtain ⟨between, hbetween, hspaces⟩ := spaces_split (r.drop (keyEnd + glmArgKeyEnd.length))
        have hzero'' : 0 ∉ skipAsciiWs (r.drop (keyEnd + glmArgKeyEnd.length)) :=
          skipAsciiWs_zero fun hmem => hzero' (List.mem_of_mem_drop hmem)
        generalize skipAsciiWs (r.drop (keyEnd + glmArgKeyEnd.length)) = t at h hspaces hzero''
        split at h
        case isFalse => cases h
        case isTrue hvalueOpen =>
          have ht := marker_split hvalueOpen
          have hzero3 : 0 ∉ t.drop glmArgValueStart.length := fun hmem => hzero'' (List.mem_of_mem_drop hmem)
          generalize t.drop glmArgValueStart.length = u at h ht hzero3
          cases hvalue : strstr u glmArgValueEnd with
          | none => simp [hvalue] at h
          | some valueEnd =>
            rw [hvalue] at h
            dsimp only at h
            obtain ⟨hu, hvalueLength⟩ := found_split (by decide) hzero3 hvalue
            split at h
            case isTrue => cases h
            obtain ⟨params, hparams⟩ := ih (fun hmem => hzero3 (List.mem_of_mem_drop hmem)) h
            refine ⟨.leaf ⟨dsmlUnescapeText (trimConstSpan (r.take keyEnd)), none, u.take valueEnd⟩ :: params, ?_⟩
            rw [hq]
            refine .arg hws hbetween (by rw [hkey, hlength]) ?_ (by rw [← hu, hvalue, hvalueLength]) hparams
            rw [← hu, ← ht, ← hspaces, ← hr]

/-- What the parser reads are calls of the grammar. -/
theorem glmInvokes_of_parse {calls found : List ToolCall} (h0 : 0 ∉ p)
    (h : glmCallsLoop fuel p calls = some (found, rest)) : ∃ invokes, GlmInvokes p invokes rest := by
  induction fuel generalizing p calls with
  | zero => cases h
  | succ fuel ih =>
    obtain ⟨ws, hws, hp⟩ := spaces_split p
    have hzero := skipAsciiWs_zero h0
    have hhead := skipAsciiWs_head p
    unfold glmCallsLoop at h
    dsimp only at h
    generalize skipAsciiWs p = q at h hp hzero hhead
    subst hp
    split at h
    case isFalse hstop =>
      cases h
      exact ⟨[], .stop hws hhead (Bool.eq_false_iff.mpr hstop)⟩
    case isTrue hopen =>
      have hq := marker_split hopen
      have hzero' : 0 ∉ q.drop glmToolStart.length := fun hmem => hzero (List.mem_of_mem_drop hmem)
      generalize q.drop glmToolStart.length = body at h hq hzero'
      cases hclose : strstr body glmToolEnd with
      | none => simp [hclose] at h
      | some close =>
        rw [hclose] at h
        dsimp only at h
        split at h
        case isTrue => cases h
        have hargs : 0 ∉ glmArgs body close := fun hmem => hzero' (List.mem_of_mem_drop hmem)
        cases hloop : glmArgsLoop (body.length - close) (body.length + 1) (glmArgs body close) [] with
        | none =>
          rw [glmArgs, glmName] at hloop
          simp [hloop] at h
        | some found =>
          obtain ⟨new, later⟩ := found
          obtain ⟨params, hparams⟩ := glmParams_of_parse hargs hloop
          rw [glmArgs, glmName] at hloop
          simp only [hloop] at h
          obtain ⟨invokes, hinvokes⟩ := ih (fun hmem => hargs (hparams.suffix.mem hmem)) h
          rw [hq]
          exact ⟨_, .call hws hclose hparams hinvokes⟩

/-! ## Nothing else is read -/

theorem glm_tag_head : ∀ tag ∈ [glmToolStart, glmToolEnd, glmArgKeyStart, glmArgValueStart],
    tag.take 1 = [0x3c] := by
  decide

/-- White space before a tag is skipped. -/
theorem skipAsciiWs_glm {ws tag : List UInt8} (hws : Spaces ws)
    (htag : tag ∈ [glmToolStart, glmToolEnd, glmArgKeyStart, glmArgValueStart]) (back : List UInt8) :
    skipAsciiWs (ws ++ (tag ++ back)) = tag ++ back :=
  skipAsciiWs_spaces hws (head_of_take (glm_tag_head tag htag) back)

theorem not_glmToolEnd (back : List UInt8) : glmToolEnd.isPrefixOf (glmArgKeyStart ++ back) = false :=
  not_closing (by decide) (by decide) (by decide) back

/-- The parser reads the arguments of the grammar, if it reads any. -/
theorem args_of_glmParams {params : List Param} {rest' : List UInt8} (h : GlmParams p params rest)
    (hparse : glmArgsLoop close fuel p args = some (new, rest')) :
    new = params.foldl Param.addTo args ∧ rest' = rest := by
  induction h generalizing fuel args with
  | @close ws rest hws =>
    cases fuel with
    | zero => cases hparse
    | succ fuel =>
      rw [glmArgsLoop, skipAsciiWs_glm hws (by simp)] at hparse
      dsimp only at hparse
      rw [if_pos (isPrefixOf_self_append _ _), List.drop_left] at hparse
      cases hparse
      exact ⟨rfl, rfl⟩
  | @arg ws key between value behind later params rest hws hbetween hkey hbehind hvalue _ ih =>
    cases fuel with
    | zero => cases hparse
    | succ fuel =>
      rw [glmArgsLoop, skipAsciiWs_glm hws (by simp)] at hparse
      dsimp only at hparse
      rw [not_glmToolEnd, if_neg (by simp), if_pos (isPrefixOf_self_append _ _), List.drop_left, hkey] at hparse
      dsimp only at hparse
      split at hparse
      case isTrue => cases hparse
      have htake : behind.take key.length = key := by rw [hbehind, List.take_left]
      have hdrop : behind.drop (key.length + glmArgKeyEnd.length) =
          between ++ (glmArgValueStart ++ (value ++ (glmArgValueEnd ++ later))) := by
        rw [hbehind, ← List.drop_drop, List.drop_left, List.drop_left]
      rw [htake, hdrop, skipAsciiWs_glm hbetween (by simp), if_pos (isPrefixOf_self_append _ _), List.drop_left,
        hvalue] at hparse
      dsimp only at hparse
      split at hparse
      case isTrue => cases hparse
      rw [← List.drop_drop, List.drop_left, List.drop_left, List.take_left] at hparse
      exact ih hparse

/-- And no other calls than those of the grammar. -/
theorem calls_of_glmInvokes {invokes : List Invoke} {rest' : List UInt8} {calls found : List ToolCall}
    (h : GlmInvokes p invokes rest) (hparse : glmCallsLoop fuel p calls = some (found, rest')) :
    found = calls ++ invokes.map Invoke.call := by
  induction h generalizing fuel calls with
  | stop hws hrest hstop =>
    cases fuel with
    | zero => cases hparse
    | succ fuel =>
      rw [glmCallsLoop, skipAsciiWs_spaces hws hrest] at hparse
      dsimp only at hparse
      rw [hstop, if_neg (by simp)] at hparse
      cases hparse
      simp
  | @call ws body close params later invokes rest hws hclose hparams _ ih =>
    cases fuel with
    | zero => cases hparse
    | succ fuel =>
      rw [glmCallsLoop, skipAsciiWs_glm hws (by simp)] at hparse
      dsimp only at hparse
      rw [if_pos (isPrefixOf_self_append _ _), List.drop_left, hclose] at hparse
      dsimp only at hparse
      split at hparse
      case isTrue => cases hparse
      cases hloop : glmArgsLoop (body.length - close) (body.length + 1) (glmArgs body close) [] with
      | none =>
        rw [glmArgs, glmName] at hloop
        simp [hloop] at hparse
      | some read =>
        obtain ⟨new, later'⟩ := read
        obtain ⟨rfl, rfl⟩ := args_of_glmParams hparams hloop
        rw [glmArgs, glmName] at hloop
        simp only [hloop] at hparse
        rw [ih hparse]
        simp [Invoke.call, glmName]

/-- Every parameter of a GLM call is a string. -/
theorem GlmParams.strings {params : List Param} (h : GlmParams p params rest) :
    ∀ param ∈ params, ∃ leaf, param = .leaf leaf ∧ leaf.isString := by
  induction h with
  | close => simp
  | arg => exact List.forall_mem_cons.mpr ⟨⟨_, rfl, rfl⟩, by assumption⟩

theorem GlmInvokes.strings {invokes : List Invoke} (h : GlmInvokes p invokes rest) :
    ∀ invoke ∈ invokes, ∀ param ∈ invoke.params, ∃ leaf, param = .leaf leaf ∧ leaf.isString := by
  induction h with
  | stop => simp
  | call hws hclose hparams _ ih => exact List.forall_mem_cons.mpr ⟨hparams.strings, ih⟩

theorem GlmParams.clean {params : List Param} (h : GlmParams p params rest) (h0 : 0 ∉ p) :
    ∀ param ∈ params, param.Clean := by
  induction h with
  | close => simp
  | @arg ws key between value behind later params rest hws hbetween hkey hbehind hvalue _ ih =>
    rw [hbehind] at h0
    simp only [List.mem_append, not_or] at h0
    obtain ⟨-, -, hkey0, -, -, -, hvalue0, -, hlater0⟩ := h0
    have hname : 0 ∉ trimConstSpan key := by
      intro hmem
      have hdrop := (List.rdropWhile_prefix isspace (key.dropWhile isspace)).subset hmem
      exact hkey0 ((List.dropWhile_suffix isspace).subset hdrop)
    exact List.forall_mem_cons.mpr ⟨⟨not_mem_dsmlUnescapeLoop hname 0, fun _ => hvalue0⟩, ih hlater0⟩

theorem GlmInvokes.clean {invokes : List Invoke} (h : GlmInvokes p invokes rest) (h0 : 0 ∉ p) :
    ∀ invoke ∈ invokes, ∀ param ∈ invoke.params, param.Clean := by
  induction h with
  | stop => simp
  | @call ws body close params later invokes rest hws hclose hparams _ ih =>
    simp only [List.mem_append, not_or] at h0
    have hargs : 0 ∉ glmArgs body close := fun hmem => h0.2.2 (List.mem_of_mem_drop hmem)
    exact List.forall_mem_cons.mpr ⟨hparams.clean hargs, ih fun hmem => hargs (hparams.suffix.mem hmem)⟩

end Spark.Server
