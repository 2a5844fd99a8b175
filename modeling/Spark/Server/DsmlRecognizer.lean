import Spark.Server.DsmlTracker

/-!
# The tracker and the recognizer

At every place of the tracker on a whole text the recognizer has the same left to say. Only a closing tag
inside a JSON string parts them, at which the recognizer goes on.

* **`Recognizes`** — what the recognizer has yet to say at a place.
* **`TrackPath.recognizes`** — it is the same at all places.
* **`tracker_eq_recognizer`** — the last answer of the tracker is the recognizer's.
-/

namespace Spark.Server

open Spark.Search

/-- A JSON value that is closed, or that the text leaves in its closing tag, has no closing tag in one of
its strings. -/
def PlainJson (text : List UInt8) : Prop :=
  ∀ p p' syn, TrackPath text p → p.mode = .structural → trackTurn p text = (p', none) →
    p'.mode = .jsonParam → p'.syn = some syn → dsmlDecodeScanJsonParam text p'.pos syn = .structural →
      searchString syn.paramEnd (text.drop p'.pos) = (scanJson syn false false (text.drop p'.pos)).1

variable {text raw lit : List UInt8} {p p' : TrackPlace} {syn : DsmlSyntax} {n pos : Nat}

/-! ## What the recognizer says -/

/-- The recognizer between two tags, with turns enough. -/
def recognizeFrom (text : List UInt8) (syn : DsmlSyntax) (pos : Nat) : Option DsmlDecodeState :=
  recognizeLoop syn text (text.length + 1) pos

theorem recognizeValue_pos {tag : List UInt8} {pos' : Nat} (hsyn : syn ∈ dsmlSyntaxes)
    (h : recognizeValue syn text tag pos = .inl pos') : pos < pos' ∧ pos' ≤ text.length := by
  have hlong := (literal_pos syn hsyn).1
  have hclosing : ∀ q, (searchString syn.paramEnd (text.drop pos)).map (pos + · + syn.paramEnd.length) = some q →
      pos < q ∧ q ≤ text.length := by
    intro q hq
    obtain ⟨i, hi, rfl⟩ := Option.map_eq_some_iff.mp hq
    have := searchString_le (List.ne_nil_of_length_pos hlong) hi
    exact ⟨by omega, this⟩
  unfold recognizeValue at h
  revert h hclosing
  generalize (searchString syn.paramEnd (text.drop pos)).map (pos + · + syn.paramEnd.length) = closing
  intro h hclosing
  split at h
  · cases closing with
    | none => cases h
    | some q =>
      cases h
      exact hclosing _ rfl
  · simp only at h
    split at h
    · cases closing with
      | none => cases h
      | some q =>
        cases h
        exact hclosing _ rfl
    · cases h

/-- More turns than bytes are enough. -/
theorem recognizeLoop_fuel (hsyn : syn ∈ dsmlSyntaxes) (text : List UInt8) (fuel : Nat) :
    ∀ (fuel' pos : Nat), text.length - pos < fuel → text.length - pos < fuel' →
      recognizeLoop syn text fuel pos = recognizeLoop syn text fuel' pos := by
  have hlong := (literal_pos syn hsyn).2
  induction fuel with
  | zero => intro fuel' pos h; omega
  | succ fuel ih =>
    intro fuel' pos hfuel hfuel'
    obtain ⟨fuel', rfl⟩ : ∃ k, fuel' = k + 1 := ⟨fuel' - 1, by omega⟩
    have hnext : ∀ pos', pos < pos' → pos' ≤ text.length →
        recognizeLoop syn text fuel pos' = recognizeLoop syn text fuel' pos' := fun pos' hlt hle =>
      ih fuel' pos' (by omega) (by omega)
    have hge : pos ≤ pos + ((text.drop pos).takeWhile isspace).length := Nat.le_add_right _ _
    rw [recognizeLoop, recognizeLoop]
    revert hge
    generalize pos + ((text.drop pos).takeWhile isspace).length = q
    intro hge
    split
    · rfl
    split
    · rfl
    split
    case isTrue hfull => exact hnext _ (by omega) (rawFullLit_le hfull)
    split
    · split
      · rfl
      case h_2 tag rest htag =>
        have := dsmlTag_pos htag
        exact hnext _ (by omega) (dsmlTag_le htag)
    split
    · split
      · rfl
      case h_2 tag rest htag =>
        have := dsmlTag_pos htag
        split
        case h_1 pos' hvalue =>
          obtain ⟨hlt, hle⟩ := recognizeValue_pos hsyn hvalue
          exact hnext _ (by omega) hle
        · rfl
    · rfl

/-- Behind a byte more, a turn less is enough. -/
theorem recognizeFrom_next (hsyn : syn ∈ dsmlSyntaxes) (hpos : 0 < pos) (hle : pos ≤ text.length) :
    recognizeLoop syn text text.length pos = recognizeFrom text syn pos :=
  recognizeLoop_fuel hsyn text text.length _ pos (by omega) (by omega)

/-- What the recognizer says of a string by where its closing tag stands. -/
def answerString (text : List UInt8) (syn : DsmlSyntax) : Option Nat → Option DsmlDecodeState
  | some pos => recognizeFrom text syn (pos + syn.paramEnd.length)
  | none => some (if rawSuffixPartialLit text syn.paramEnd 2 then .structural else .stringBody)

/-- The same of a JSON value, by whether the text leaves it in a string too. -/
def answerJson (text : List UInt8) (syn : DsmlSyntax) : Option Nat → Bool → Option DsmlDecodeState
  | some pos, _ => recognizeFrom text syn (pos + syn.paramEnd.length)
  | none, true => some .jsonString
  | none, false => some (if rawSuffixPartialLit text syn.paramEnd 2 then .structural else .jsonStructural)

/-- What the recognizer has yet to say at a place of the tracker. A tag in front of that place which the text
breaks off leaves its value open, and that can only be a JSON string. -/
def Recognizes (text : List UInt8) (syn : DsmlSyntax) (p : TrackPlace) (answer : Option DsmlDecodeState) : Prop :=
  match p.mode with
  | .structural => recognizeFrom text syn p.pos = answer
  | .stringBody =>
    answerString text syn ((searchString syn.paramEnd (text.drop p.pos)).map (p.pos + ·)) = answer ∧
      ∀ q, q < p.pos → ¬ rawPartialLitMin text q syn.paramEnd 2 = true
  | .jsonParam =>
    answerJson text syn ((scanJson syn p.jsonInString p.jsonEscaped (text.drop p.pos)).1.map (p.pos + ·))
        (scanJson syn p.jsonInString p.jsonEscaped (text.drop p.pos)).2 = answer ∧
      ∀ q, q < p.pos → rawPartialLitMin text q syn.paramEnd 2 = true → p.jsonInString = true
  | _ => False

theorem spaces_cons (hlt : pos < text.length) (hspace : isspace (text.getD pos 0) = true) :
    pos + ((text.drop pos).takeWhile isspace).length =
      pos + 1 + ((text.drop (pos + 1)).takeWhile isspace).length := by
  have hget : text.getD pos 0 = text[pos] := by
    rw [List.getD_eq_getElem?_getD, List.getElem?_eq_getElem hlt, Option.getD_some]
  rw [List.drop_eq_getElem_cons hlt, List.takeWhile_cons_of_pos (hget ▸ hspace), List.length_cons]
  omega

theorem spaces_none (hspace : isspace (text.getD pos 0) = false) :
    pos + ((text.drop pos).takeWhile isspace).length = pos := by
  by_cases hlt : pos < text.length
  · have hget : text.getD pos 0 = text[pos] := by
      rw [List.getD_eq_getElem?_getD, List.getElem?_eq_getElem hlt, Option.getD_some]
    rw [List.drop_eq_getElem_cons hlt, List.takeWhile_cons_of_neg (by rw [← hget, hspace]; decide)]
    rfl
  · rw [List.drop_of_length_le (not_lt.mp hlt)]
    rfl

/-- White space makes no difference to the recognizer either. -/
theorem recognizeFrom_space (hlt : pos < text.length) (hspace : isspace (text.getD pos 0) = true) :
    recognizeFrom text syn pos = recognizeFrom text syn (pos + 1) := by
  rw [recognizeFrom, recognizeFrom, recognizeLoop, recognizeLoop, spaces_cons hlt hspace]

/-- The recognizer at a tag. -/
structure RecognizesTag (text : List UInt8) (syn : DsmlSyntax) (pos : Nat) : Prop where
  blockEnd : rawFullLit text pos syn.toolCallsEnd = true → recognizeFrom text syn pos = some .outside
  callEnd : rawFullLit text pos syn.invokeEnd = true →
    recognizeFrom text syn pos = recognizeFrom text syn (pos + syn.invokeEnd.length)
  call : ∀ tag rest, rawFullLit text pos syn.invokeStart = true → dsmlTag (text.drop pos) = some (tag, rest) →
    recognizeFrom text syn pos = recognizeFrom text syn (pos + tag.length)
  param : ∀ tag rest, rawFullLit text pos syn.paramStart = true → dsmlTag (text.drop pos) = some (tag, rest) →
    recognizeFrom text syn pos =
      match recognizeValue syn text tag (pos + tag.length) with
      | .inl pos => recognizeFrom text syn pos
      | .inr state => some state
  brokenOff : rawFullLit text pos syn.toolCallsEnd = false → rawFullLit text pos syn.invokeEnd = false →
    (rawFullLit text pos syn.invokeStart = true → dsmlTag (text.drop pos) = none) →
      (rawFullLit text pos syn.paramStart = true → dsmlTag (text.drop pos) = none) →
        recognizeFrom text syn pos = some .structural

theorem recognizesTag (hsyn : syn ∈ dsmlSyntaxes) (hlt : pos < text.length)
    (hspace : isspace (text.getD pos 0) = false) : RecognizesTag text syn pos := by
  obtain ⟨h12, h13, h14, h23, h24, h34⟩ := structural_literals syn hsyn
  have hlong := (literal_pos syn hsyn).2
  have hunfold : recognizeFrom text syn pos = _ := recognizeLoop.eq_2 syn text pos text.length
  rw [spaces_none hspace, if_neg (not_le.mpr hlt)] at hunfold
  constructor
  · intro h
    rw [hunfold, if_pos h]
  · intro h
    rw [hunfold, if_neg (not_rawFullLit h12 h), if_pos h]
    exact recognizeFrom_next hsyn (by omega) (rawFullLit_le h)
  · intro tag rest h htag
    rw [hunfold, if_neg (not_rawFullLit h13 h), if_neg (not_rawFullLit h23 h), if_pos h, htag]
    have := dsmlTag_pos htag
    exact recognizeFrom_next hsyn (by omega) (dsmlTag_le htag)
  · intro tag rest h htag
    rw [hunfold, if_neg (not_rawFullLit h14 h), if_neg (not_rawFullLit h24 h), if_neg (not_rawFullLit h34 h),
      if_pos h, htag]
    cases hvalue : recognizeValue syn text tag (pos + tag.length) with
    | inl pos' =>
      obtain ⟨hgt, hle⟩ := recognizeValue_pos hsyn hvalue
      simp only [hvalue]
      exact recognizeFrom_next hsyn (by omega) hle
    | inr state => simp only [hvalue]
  · intro hblock hcall hinvoke hparam
    rw [hunfold, if_neg (Bool.eq_false_iff.mp hblock), if_neg (Bool.eq_false_iff.mp hcall)]
    split
    case isTrue h => rw [hinvoke h]
    split
    case isTrue h => rw [hparam h]
    · rfl

/-! ## A tag that breaks off -/

theorem rawPartialLitMin_iff {minLen : Nat} : rawPartialLitMin raw pos lit minLen = true ↔
    pos ≤ raw.length ∧ raw.length - pos < lit.length ∧ raw.drop pos <+: lit ∧ minLen ≤ raw.length - pos := by
  simp only [rawPartialLitMin, rawPartialLit, Bool.and_eq_true, decide_eq_true_iff, List.isPrefixOf_iff_prefix,
    and_assoc]

/-- A text ends in a part of a tag if one breaks off at some place. -/
theorem rawSuffixPartialLit_iff (hlit : lit ≠ []) :
    rawSuffixPartialLit raw lit 2 = true ↔ ∃ q, rawPartialLitMin raw q lit 2 = true := by
  have hpositive := List.length_pos_of_ne_nil hlit
  constructor
  · intro h
    unfold rawSuffixPartialLit at h
    split at h
    · cases h
    · obtain ⟨k, hk, hat⟩ := List.any_eq_true.mp h
      rw [List.mem_range] at hk
      rw [Bool.and_eq_true, decide_eq_true_iff, decide_eq_true_iff] at hat
      have hmax : k ≤ raw.length ∧ k < lit.length := by
        split at hk
        · omega
        · omega
      refine ⟨raw.length - k, rawPartialLitMin_iff.mpr ⟨by omega, by omega, ?_, by omega⟩⟩
      rw [hat.2]
      exact List.take_prefix _ _
  · rintro ⟨q, hq⟩
    obtain ⟨hle, hshort, hfront, hlong⟩ := rawPartialLitMin_iff.mp hq
    have hraw : raw ≠ [] := by
      rintro rfl
      simp at hlong
    rw [rawSuffixPartialLit, if_neg (not_or.mpr ⟨hraw, hlit⟩)]
    refine List.any_eq_true.mpr ⟨raw.length - q, ?_, ?_⟩
    · rw [List.mem_range]
      split
      · omega
      · omega
    · rw [Bool.and_eq_true, decide_eq_true_iff, decide_eq_true_iff, Nat.sub_sub_self hle]
      refine ⟨hlong, ?_⟩
      have htake := List.prefix_iff_eq_take.mp hfront
      rwa [List.length_drop] at htake

theorem paramEnd_bytes : ∀ syn ∈ dsmlSyntaxes,
    syn.paramEnd ≠ [] ∧ 0x22 ∉ syn.paramEnd ∧ 0x5c ∉ syn.paramEnd ∧ 0x3e ∉ syn.paramEnd.dropLast := by
  decide

/-- Behind the place where a closing tag breaks off, there are bytes of it only, and not its last one. -/
theorem mem_of_rawPartialLitMin {q : Nat} (h : rawPartialLitMin raw q lit 2 = true) (hq : q ≤ pos)
    (hpos : pos < raw.length) : raw.getD pos 0 ∈ lit.dropLast := by
  obtain ⟨hle, hshort, hfront, -⟩ := rawPartialLitMin_iff.mp h
  have hget : raw.getD pos 0 = raw[pos] := by
    rw [List.getD_eq_getElem?_getD, List.getElem?_eq_getElem hpos, Option.getD_some]
  have hdrop : raw.drop q <+: lit.dropLast := by
    rw [List.dropLast_eq_take, List.prefix_take_iff]
    refine ⟨hfront, ?_⟩
    rw [List.length_drop]
    omega
  refine hdrop.subset ?_
  rw [hget]
  refine List.mem_iff_getElem.mpr ⟨pos - q, by rw [List.length_drop]; omega, ?_⟩
  rw [List.getElem_drop]
  congr 1
  omega

/-- No closing tag breaks off in front of the end of a tag. -/
theorem not_rawPartialLitMin_of_tag {tag rest : List UInt8} (hsyn : syn ∈ dsmlSyntaxes)
    (htag : dsmlTag (text.drop pos) = some (tag, rest)) {q : Nat} (hq : q < pos + tag.length) :
    ¬ rawPartialLitMin text q syn.paramEnd 2 = true := by
  intro h
  have hle := dsmlTag_le htag
  have hlong := dsmlTag_pos htag
  obtain ⟨hsplit, body, rfl, -⟩ := dsmlTag_spec htag
  rw [List.length_append, List.length_singleton] at hle hq
  have hbyte : text.getD (pos + body.length) 0 = 0x3e := by
    have hget : (text.drop pos)[body.length]? = some 0x3e := by
      rw [hsplit, List.append_assoc, List.getElem?_append_right le_rfl, Nat.sub_self]
      rfl
    rw [List.getElem?_drop] at hget
    rw [List.getD_eq_getElem?_getD, hget, Option.getD_some]
  have hmem : text.getD (pos + body.length) 0 ∈ syn.paramEnd.dropLast :=
    mem_of_rawPartialLitMin h (by omega) (by omega)
  rw [hbyte] at hmem
  exact (paramEnd_bytes syn hsyn).2.2.2 hmem

/-! ## The recognizer follows -/

theorem searchString_here {word s : List UInt8} (hword : word ≠ []) (h : word <+: s) :
    searchString word s = some 0 :=
  (searchString_first hword s).unique ⟨h, fun _ hj => absurd hj (Nat.not_lt_zero _)⟩

theorem searchString_short {word s : List UInt8} (hword : word ≠ []) (h : s.length < word.length) :
    searchString word s = none := by
  refine (searchString_first hword s).unique fun i hi => ?_
  have := hi.le hword
  omega

/-- What a turn keeps: the answer of the recognizer, or the turn has given it. -/
def Agrees (text : List UInt8) (syn : DsmlSyntax) (answer : Option DsmlDecodeState)
    (turn : TrackPlace × Option DsmlDecodeState) : Prop :=
  (turn.2 = none → Recognizes text syn turn.1 answer) ∧ ∀ decode, turn.2 = some decode → answer = some decode

theorem Agrees.goes {answer : Option DsmlDecodeState} (h : Recognizes text syn p answer) :
    Agrees text syn answer (p, none) := ⟨fun _ => h, nofun⟩

theorem Agrees.stops {answer : Option DsmlDecodeState} {decode : DsmlDecodeState} (h : answer = some decode) :
    Agrees text syn answer (p, some decode) := ⟨nofun, fun _ heq => h.trans heq⟩

theorem trackString_recognizes {answer : Option DsmlDecodeState} (hon : OnPath text p syn)
    (hmode : p.mode = .stringBody) (h : Recognizes text syn p answer) :
    Agrees text syn answer (trackString p syn text) := by
  obtain ⟨hne, -, -, -⟩ := paramEnd_bytes syn hon.known
  have hsuffix := @rawSuffixPartialLit_iff text _ hne
  rw [Recognizes, hmode] at h
  obtain ⟨hanswer, hbefore⟩ := h
  by_cases hlt : p.pos < text.length
  · rw [trackString, if_pos hlt]
    by_cases hfull : rawFullLit text p.pos syn.paramEnd = true
    · rw [if_pos hfull]
      refine .goes ?_
      rw [searchString_here hne (rawFullLit_iff.mp hfull).2] at hanswer
      exact hanswer
    rw [if_neg hfull]
    by_cases hpart : rawPartialLitMin text p.pos syn.paramEnd 2 = true
    · rw [if_pos hpart]
      have hshort : (text.drop p.pos).length < syn.paramEnd.length := by
        rw [List.length_drop]
        exact (rawPartialLitMin_iff.mp hpart).2.1
      rw [searchString_short hne hshort, Option.map_none, answerString, if_pos (hsuffix.mpr ⟨_, hpart⟩)] at hanswer
      exact .stops hanswer.symm
    · rw [if_neg hpart]
      refine .goes ?_
      rw [Recognizes, hmode]
      refine ⟨?_, fun q hq => ?_⟩
      · rw [← hanswer]
        refine congrArg _ (searchString_advance hne (Nat.le_succ p.pos) fun k hk hat => ?_)
        rcases Nat.eq_or_lt_of_le hk with rfl | hlt'
        · exact absurd (rawFullLit_iff.mpr ⟨hlt.le, hat⟩) hfull
        · exact hlt'
      · rcases Nat.lt_succ_iff_lt_or_eq.mp hq with hq | rfl
        · exact hbefore q hq
        · exact hpart
  · have hend : p.pos = text.length := by
      have := hon.pos_le
      omega
    have hnone : ¬ rawSuffixPartialLit text syn.paramEnd 2 = true := fun h => by
      obtain ⟨q, hq⟩ := hsuffix.mp h
      have := (rawPartialLitMin_iff.mp hq).2.2.2
      exact hbefore q (by omega) hq
    rw [trackString, if_neg hlt]
    rw [hend, List.drop_length, searchString_short (s := []) hne (List.length_pos_of_ne_nil hne), Option.map_none,
      answerString, if_neg hnone] at hanswer
    exact .stops hanswer.symm

/-- A byte of a closing tag leaves an open string open. -/
theorem jsonByte_inString {c : UInt8} (hsyn : syn ∈ dsmlSyntaxes) (hc : c ∈ syn.paramEnd) (escaped : Bool) :
    (jsonByte true escaped c).1 = true := by
  obtain ⟨-, hquote, hslash, -⟩ := paramEnd_bytes syn hsyn
  have hc1 : c ≠ 0x22 := ne_of_mem_of_not_mem hc hquote
  have hc2 : c ≠ 0x5c := ne_of_mem_of_not_mem hc hslash
  cases escaped with
  | true => rfl
  | false => simp [jsonByte, hc1, hc2]

/-- Nothing is found in a part of a closing tag, and no string begins in it. -/
theorem scanJson_broken {s : List UInt8} (hsyn : syn ∈ dsmlSyntaxes) (hshort : s.length < syn.paramEnd.length)
    (hs : ∀ c ∈ s, c ∈ syn.paramEnd) (escaped : Bool) : scanJson syn false escaped s = (none, false) := by
  obtain ⟨-, hquote, -, -⟩ := paramEnd_bytes syn hsyn
  induction s generalizing escaped with
  | nil => rfl
  | cons c rest ih =>
    have hc : c ≠ 0x22 := ne_of_mem_of_not_mem (hs c List.mem_cons_self) hquote
    have hnot : ¬ syn.paramEnd.isPrefixOf (c :: rest) = true := fun h => by
      have := (List.isPrefixOf_iff_prefix.mp h).length_le
      omega
    have hbyte : jsonByte false escaped c = (false, escaped) := by
      simp [jsonByte, hc]
    rw [scanJson, Bool.not_false, Bool.true_and, if_neg hnot]
    simp only [hbyte]
    rw [ih (by rw [List.length_cons] at hshort; omega) fun b hb => hs b (List.mem_cons_of_mem _ hb)]
    rfl

theorem trackJson_recognizes {answer : Option DsmlDecodeState} (hon : OnPath text p syn)
    (hmode : p.mode = .jsonParam) (h : Recognizes text syn p answer) :
    Agrees text syn answer (trackJson p syn text) := by
  obtain ⟨hne, hquote, -, -⟩ := paramEnd_bytes syn hon.known
  have hsuffix := @rawSuffixPartialLit_iff text _ hne
  rw [Recognizes, hmode] at h
  obtain ⟨hanswer, hbefore⟩ := h
  by_cases hlt : p.pos < text.length
  · rw [trackJson, if_pos hlt]
    have hget : text.getD p.pos 0 = text[p.pos] := by
      rw [List.getD_eq_getElem?_getD, List.getElem?_eq_getElem hlt, Option.getD_some]
    have hdrop : text.drop p.pos = text[p.pos] :: text.drop (p.pos + 1) := List.drop_eq_getElem_cons hlt
    have hfulls : rawFullLit text p.pos syn.paramEnd = syn.paramEnd.isPrefixOf (text.drop p.pos) := by
      rw [rawFullLit, decide_eq_true hlt.le, Bool.true_and]
    by_cases hfull : (!p.jsonInString && rawFullLit text p.pos syn.paramEnd) = true
    · rw [if_pos hfull]
      refine .goes ?_
      have hscan : scanJson syn p.jsonInString p.jsonEscaped (text.drop p.pos) = (some 0, false) := by
        rw [hfulls, hdrop] at hfull
        rw [hdrop, scanJson, if_pos hfull]
      rw [hscan] at hanswer
      exact hanswer
    rw [if_neg hfull]
    by_cases hpart : (!p.jsonInString && rawPartialLitMin text p.pos syn.paramEnd 2) = true
    · rw [if_pos hpart]
      rw [Bool.and_eq_true, Bool.not_eq_true'] at hpart
      obtain ⟨-, hshort, hfront, -⟩ := rawPartialLitMin_iff.mp hpart.2
      rw [hpart.1, scanJson_broken hon.known (by rw [List.length_drop]; exact hshort)
        (fun c hc => hfront.subset hc), Option.map_none, answerJson, if_pos (hsuffix.mpr ⟨_, hpart.2⟩)] at hanswer
      exact .stops hanswer.symm
    · rw [if_neg hpart]
      refine .goes ?_
      rw [Recognizes, hmode]
      constructor
      · rw [← hanswer, hdrop, scanJson, if_neg (by rw [← hdrop, ← hfulls]; exact hfull), hget]
        simp only [Option.map_map]
        congr 2
        funext i
        show p.pos + 1 + i = p.pos + (i + 1)
        omega
      · intro q hq hbroken
        have hopen : p.jsonInString = true := by
          rcases Nat.lt_succ_iff_lt_or_eq.mp hq with hq | rfl
          · exact hbefore q hq hbroken
          · rw [hbroken, Bool.and_true, Bool.not_eq_true'] at hpart
            exact Bool.of_not_eq_false hpart
        have hmem := mem_of_rawPartialLitMin hbroken (Nat.lt_succ_iff.mp hq) hlt
        show (jsonByte p.jsonInString p.jsonEscaped (text.getD p.pos 0)).1 = true
        rw [hopen]
        exact jsonByte_inString hon.known (List.dropLast_subset _ hmem) _
  · have hend : p.pos = text.length := by
      have := hon.pos_le
      omega
    rw [trackJson, if_neg hlt]
    rw [hend, List.drop_length, scanJson, Option.map_none] at hanswer
    cases hopen : p.jsonInString with
    | true =>
      rw [hopen] at hanswer
      exact .stops hanswer.symm
    | false =>
      have hnone : ¬ rawSuffixPartialLit text syn.paramEnd 2 = true := fun h => by
        obtain ⟨q, hq⟩ := hsuffix.mp h
        have := (rawPartialLitMin_iff.mp hq).2.2.2
        rw [hbefore q (by omega) hq] at hopen
        cases hopen
      rw [hopen, answerJson, if_neg hnone] at hanswer
      exact .stops hanswer.symm

/-- The recognizer enters a value where the tracker does. -/
theorem recognizes_value {tag rest : List UInt8} {answer : Option DsmlDecodeState} (hsyn : syn ∈ dsmlSyntaxes)
    (htag : dsmlTag (text.drop pos) = some (tag, rest))
    (hplain : dsmlAttrIsStringTrue tag = false → dsmlDecodeScanJsonParam text (pos + tag.length) syn = .structural →
      searchString syn.paramEnd (text.drop (pos + tag.length)) =
        (scanJson syn false false (text.drop (pos + tag.length))).1)
    (h : (match recognizeValue syn text tag (pos + tag.length) with
      | .inl pos => recognizeFrom text syn pos
      | .inr state => some state) = answer) :
    Recognizes text syn
      (if dsmlAttrIsStringTrue tag then { p with pos := pos + tag.length, mode := .stringBody }
        else { p with pos := pos + tag.length, mode := .jsonParam, jsonInString := false, jsonEscaped := false })
      answer := by
  have hbefore : ∀ q, q < pos + tag.length → ¬ rawPartialLitMin text q syn.paramEnd 2 = true :=
    fun q hq => not_rawPartialLitMin_of_tag hsyn htag hq
  unfold recognizeValue at h
  cases hstring : dsmlAttrIsStringTrue tag with
  | true =>
    simp only [hstring, if_true] at h ⊢
    refine ⟨?_, hbefore⟩
    rw [← h]
    cases searchString syn.paramEnd (text.drop (pos + tag.length)) with
    | none => rfl
    | some i => rfl
  | false =>
    simp only [hstring, Bool.false_eq_true, if_false] at h ⊢
    refine ⟨?_, fun q hq hbroken => absurd hbroken (hbefore q hq)⟩
    have hclosing := hplain hstring
    rw [← h]
    unfold dsmlDecodeScanJsonParam at hclosing ⊢
    revert hclosing
    show _ → answerJson text syn ((scanJson syn false false (text.drop (pos + tag.length))).1.map _)
      (scanJson syn false false (text.drop (pos + tag.length))).2 = _
    rcases scanJson syn false false (text.drop (pos + tag.length)) with ⟨_ | i, leftOpen⟩
    · intro hclosing
      cases leftOpen with
      | true => rfl
      | false =>
        cases hsuffix : rawSuffixPartialLit text syn.paramEnd 2 with
        | true =>
          simp only [hsuffix, Bool.not_false, Bool.and_self, if_true, true_implies] at hclosing ⊢
          rw [hclosing]
          simp [answerJson, hsuffix]
        | false => simp [answerJson, hsuffix]
    · intro hclosing
      simp only [true_implies] at hclosing
      rw [hclosing]
      rfl

theorem trackStructural_recognizes {answer : Option DsmlDecodeState} (hpath : TrackPath text p)
    (hon : OnPath text p syn) (hjson : PlainJson text) (hmode : p.mode = .structural)
    (h : Recognizes text syn p answer) : Agrees text syn answer (trackStructural p syn text) := by
  have hturn := (trackTurn_modes hon.syn_eq text).1 hmode
  rw [Recognizes, hmode] at h
  by_cases hlt : p.pos < text.length
  · cases hspace : isspace (text.getD p.pos 0) with
    | true =>
      rw [trackStructural, if_neg (not_le.mpr hlt), if_pos hspace]
      refine .goes ?_
      rw [Recognizes, hmode]
      exact (recognizeFrom_space hlt hspace).symm.trans h
    | false =>
      have htracker : StructuralTurn text p syn := structuralTurn hon.known hlt hspace
      have hrecognizer := recognizesTag hon.known hlt hspace
      by_cases hblock : rawFullLit text p.pos syn.toolCallsEnd = true
      · rw [htracker.blockEnd hblock]
        exact .stops (h.symm.trans (hrecognizer.blockEnd hblock))
      by_cases hcall : rawFullLit text p.pos syn.invokeEnd = true
      · rw [htracker.callEnd hcall]
        refine .goes ?_
        rw [Recognizes, hmode]
        exact (hrecognizer.callEnd hcall).symm.trans h
      rw [Bool.not_eq_true] at hblock hcall
      cases htag : dsmlTag (text.drop p.pos) with
      | none =>
        rw [htracker.brokenOff hblock hcall (fun _ => htag) fun _ => htag]
        exact .stops (h.symm.trans (hrecognizer.brokenOff hblock hcall (fun _ => htag) fun _ => htag))
      | some found =>
        obtain ⟨tag, rest⟩ := found
        by_cases hinvoke : rawFullLit text p.pos syn.invokeStart = true
        · rw [htracker.call tag rest hinvoke htag]
          refine .goes ?_
          rw [Recognizes, hmode]
          exact (hrecognizer.call tag rest hinvoke htag).symm.trans h
        by_cases hparam : rawFullLit text p.pos syn.paramStart = true
        · have hvalue := htracker.param tag rest hparam htag
          rw [hvalue]
          refine .goes (recognizes_value hon.known htag (fun hstring => ?_)
            ((hrecognizer.param tag rest hparam htag).symm.trans h))
          rw [if_neg (Bool.eq_false_iff.mp hstring)] at hvalue
          exact hjson p _ syn hpath hmode (hturn.trans hvalue) rfl hon.syn_eq
        · rw [htracker.brokenOff hblock hcall (absurd · hinvoke) (absurd · hparam)]
          exact .stops (h.symm.trans (hrecognizer.brokenOff hblock hcall (absurd · hinvoke) (absurd · hparam)))
  · have hend : p.pos = text.length := by
      have := hon.pos_le
      omega
    rw [trackStructural, if_pos (not_lt.mp hlt)]
    refine .stops (h.symm.trans ?_)
    rw [recognizeFrom, recognizeLoop, hend, List.drop_length]
    simp

theorem trackTurn_recognizes {answer : Option DsmlDecodeState} (hpath : TrackPath text p)
    (hon : OnPath text p syn) (hjson : PlainJson text) (h : Recognizes text syn p answer) :
    Agrees text syn answer (trackTurn p text) := by
  obtain ⟨hstructural, hstring, hvalue⟩ := trackTurn_modes hon.syn_eq text
  rcases hon.mode with hmode | hmode | hmode
  · rw [hstructural hmode]
    exact trackStructural_recognizes hpath hon hjson hmode h
  · rw [hstring hmode]
    exact trackString_recognizes hon hmode h
  · rw [hvalue hmode]
    exact trackJson_recognizes hon hmode h

/-- At every place of a tracker on a whole text, the recognizer's answer to it is what is left to say. -/
theorem TrackPath.recognizes (hjson : PlainJson text) (hpath : TrackPath text p) :
    ∃ syn, OnPath text p syn ∧ Recognizes text syn p (dsmlDecodeStateForText text) := by
  induction hpath with
  | @begin pos syn hfind =>
    obtain ⟨syn', hon⟩ := (TrackPath.begin hfind).onPath
    obtain rfl := Option.some.inj hon.syn_eq
    refine ⟨syn, hon, ?_⟩
    rw [dsmlDecodeStateForText, hfind]
    rfl
  | @step p p' hpath hturn ih =>
    obtain ⟨syn, hon, hrecognizes⟩ := ih
    have hagrees := trackTurn_recognizes hpath hon hjson hrecognizes
    rw [hturn] at hagrees
    exact ⟨syn, (trackTurn_advances hon hturn).onPath, hagrees.1 rfl⟩

theorem Follows.answer {dt : DecodeTracker} (h : Follows text text.length dt) (hjson : PlainJson text) :
    dsmlDecodeStateForText text = some dt.decode := by
  cases h with
  | searching hsearch hdecode =>
    obtain ⟨hdecode, hnone⟩ := hdecode rfl
    rw [dsmlDecodeStateForText, hnone, hdecode]
  | tracked htracked =>
    obtain ⟨q, hpath, hturn⟩ := htracked.last rfl
    obtain ⟨syn, hon, hrecognizes⟩ := hpath.recognizes hjson
    have hagrees := trackTurn_recognizes hpath hon hjson hrecognizes
    rw [hturn] at hagrees
    exact hagrees.2 dt.decode rfl

/-! ## Runs -/

/-- Every update of a tracker ends. If no part of the text but the last ends right behind the `<` of the closing
tag of the value that is being read, and no JSON value that is closed has a closing tag in a string, the
tracker's last answer is the recognizer's. -/
theorem tracker_eq_recognizer (text : List UInt8) (lens : List Nat) (hmono : lens.Pairwise (· ≤ ·))
    (hlast : lens.getLast? = some text.length) (fuel : Nat) (hfuel : text.length + 1 < fuel) :
    ∃ dt, trackPrefixes fuel text lens .init = some dt ∧
      ((∀ n ∈ lens, SafeCut text n) → PlainJson text → dsmlDecodeStateForText text = some dt.decode) := by
  obtain ⟨dt, hdt⟩ : ∃ dt, trackPrefixes fuel text lens .init = some dt :=
    trackPrefixes_ends (.inl rfl) text hfuel
  refine ⟨dt, hdt, fun hcut hjson => ?_⟩
  have hle : ∀ n ∈ lens, n ≤ text.length := by
    obtain ⟨front, rfl⟩ := List.getLast?_eq_some_iff.mp hlast
    intro n hn
    rcases List.mem_append.mp hn with hn | hn
    · exact (List.pairwise_append.mp hmono).2.2 n hn _ (List.mem_singleton_self _)
    · exact (List.mem_singleton.mp hn).le
  have hlast' : (0 :: lens).getLast? = some text.length := by
    rw [List.getLast?_cons, hlast, Option.getD_some]
  obtain ⟨next, hnext, hfollows⟩ := trackPrefixes_follows (follows_init text)
    (List.pairwise_cons.mpr ⟨fun _ _ => Nat.zero_le _, hmono⟩) hlast' hle hcut hfuel
  obtain rfl := Option.some.inj (hdt.symm.trans hnext)
  exact hfollows.answer hjson

/-! ## Examples -/

/-- The places from one on. -/
def placesFrom (text : List UInt8) : Nat → TrackPlace → List TrackPlace
  | 0, _ => []
  | count + 1, p =>
    p :: match trackTurn p text with
      | (p', none) => placesFrom text count p'
      | (_, some _) => []

theorem TrackPath.mem_of_closed {places : List TrackPlace}
    (hbegin : ∀ found, dsmlFindToolStart text = some found →
      ⟨.structural, some found.2, found.1, false, false⟩ ∈ places)
    (hclosed : ∀ p ∈ places, (trackTurn p text).2 = none → (trackTurn p text).1 ∈ places)
    (h : TrackPath text p) : p ∈ places := by
  induction h with
  | begin hfind => exact hbegin _ hfind
  | step _ hturn ih =>
    have hnext := hclosed _ ih
    rw [hturn] at hnext
    exact hnext rfl

def twoValues : List UInt8 :=
  bytes "<tool_calls><invoke><parameter string=\"true\">v</parameter><parameter>\"a\"</parameter>"

def twoValuesPlaces : List TrackPlace := placesFrom twoValues 20 ⟨.structural, some dsmlPlain, 12, false, false⟩

theorem twoValues_places (h : TrackPath twoValues p) : p ∈ twoValuesPlaces := by
  have hbegin : dsmlFindToolStart twoValues = some (12, dsmlPlain) := by decide
  refine h.mem_of_closed (fun found hfound => ?_) (by decide)
  obtain rfl := Option.some.inj (hbegin.symm.trans hfound)
  decide

/-- A string and a JSON value, handed over in four parts: the string ends between two of them, and a closing
tag is broken. -/
theorem tracker_eq_recognizer_sample :
    ∃ dt, trackPrefixes 99 twoValues [15, 46, 50, 84] .init = some dt ∧
      dsmlDecodeStateForText twoValues = some dt.decode := by
  obtain ⟨dt, hdt, hanswer⟩ := tracker_eq_recognizer twoValues [15, 46, 50, 84] (by decide) (by decide) 99 (by decide)
  have hsyn : ∀ p ∈ twoValuesPlaces, p.syn = some dsmlPlain := by decide
  refine ⟨dt, hdt, hanswer (fun n hn p syn hpath hsome hreads hat => ?_) ?_⟩
  · have hmem := twoValues_places hpath
    obtain rfl := Option.some.inj ((hsyn p hmem).symm.trans hsome)
    have hall : ∀ p ∈ twoValuesPlaces, p.pos + 1 ∈ [15, 46, 50, 84] →
        rawFullLit twoValues p.pos dsmlPlain.paramEnd = false ∧
          rawPartialLitMin twoValues p.pos dsmlPlain.paramEnd 2 = false := by decide
    obtain ⟨hfull, hpart⟩ := hall p hmem (hat ▸ hn)
    rintro (h | h)
    · exact absurd (hfull.symm.trans h) nofun
    · exact absurd (hpart.symm.trans h) nofun
  · intro p p' syn hpath hmode hturn hmode' hsome hclosed
    have hmem := twoValues_places (hpath.step hturn)
    obtain rfl := Option.some.inj ((hsyn p' hmem).symm.trans hsome)
    have hall : ∀ p ∈ twoValuesPlaces, p.mode = .structural → (trackTurn p twoValues).2 = none →
      (trackTurn p twoValues).1.mode = .jsonParam →
        searchString dsmlPlain.paramEnd (twoValues.drop (trackTurn p twoValues).1.pos) =
          (scanJson dsmlPlain false false (twoValues.drop (trackTurn p twoValues).1.pos)).1 := by decide
    have := hall p (twoValues_places hpath) hmode
    rw [hturn] at this
    exact this rfl hmode'

/-- A part of the text that ends behind the `<` of a closing tag: the tracker is in the string still when the
recognizer is behind it. -/
theorem closing_tag_missed :
    trackPrefixes 99 (bytes "<tool_calls><invoke><parameter string=\"true\">v</parameter>") [47, 58] .init =
      some ⟨⟨.stringBody, some dsmlPlain, 58, false, false⟩, .stringBody⟩ ∧
    dsmlDecodeStateForText (bytes "<tool_calls><invoke><parameter string=\"true\">v</parameter>") =
      some .structural := by
  decide

end Spark.Server
