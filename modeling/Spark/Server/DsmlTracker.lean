import Spark.Server.DsmlDecode
import Spark.Server.BlockLifecycle

/-!
# The tracker on the parts of a text

On every part of a text the tracker takes the turns it would take on all of it, unless the part ends right
behind the `<` of a closing tag: that one the tracker steps over.

* **`TrackPath`** — the places of a tracker on a whole text.
* **`trackTurn_of_take`** — a turn on a part of the text is one on all of it.
* **`trackPrefixes_follows`** — behind the last part, the tracker is on that path.
* **`trackPrefixes_ends`** — every update ends.
-/

namespace Spark.Server

open Spark.Search

/-! ## Places on a path -/

/-- The places a tracker goes through when it is handed all of a text at once, from the first opener on. -/
inductive TrackPath (text : List UInt8) : TrackPlace → Prop where
  | begin {pos syn} (h : dsmlFindToolStart text = some (pos, syn)) :
      TrackPath text ⟨.structural, some syn, pos, false, false⟩
  | step {p p'} (h : TrackPath text p) (hturn : trackTurn p text = (p', none)) : TrackPath text p'

/-- The closing tag stands at a place, or the text breaks off in it behind two bytes or more. -/
def ClosesAt (text lit : List UInt8) (pos : Nat) : Prop :=
  rawFullLit text pos lit = true ∨ rawPartialLitMin text pos lit 2 = true

/-- A value is read at a place, and no JSON string of it. -/
def TrackPlace.ReadsValue (p : TrackPlace) : Prop :=
  p.mode = .stringBody ∨ (p.mode = .jsonParam ∧ p.jsonInString = false)

/-- A part of the text does not end right behind the first byte of the closing tag of the value that is
being read. -/
def SafeCut (text : List UInt8) (n : Nat) : Prop :=
  ∀ p syn, TrackPath text p → p.syn = some syn → p.ReadsValue → p.pos + 1 = n →
    ¬ ClosesAt text syn.paramEnd p.pos

variable {text raw lit : List UInt8} {p p' : TrackPlace} {syn : DsmlSyntax} {n pos : Nat}

/-! ## The first opener -/

def openers : List (List UInt8) := dsmlSyntaxes.map DsmlSyntax.toolCallsStart

theorem distinct_openers : Distinct 0x3c openers := by
  unfold Distinct
  decide

theorem opener_length : ∀ syn ∈ dsmlSyntaxes, syn.toolCallsStart.length ≤ dsmlMaxToolStartLen := by
  decide

theorem opener_unique : ∀ a ∈ dsmlSyntaxes, ∀ b ∈ dsmlSyntaxes,
    a.toolCallsStart.isPrefixOf b.toolCallsStart = true → a = b := by
  decide

/-- A place and a dialect whose opener stands there, the first of all openers. -/
structure FirstOpener (raw : List UInt8) (syns : List DsmlSyntax) (found : Nat × DsmlSyntax) : Prop where
  mem : found.2 ∈ syns
  occurs : Occurs found.2.toolCallsStart raw found.1
  first : ∀ syn ∈ syns, ∀ i, i < found.1 → ¬ Occurs syn.toolCallsStart raw i

/-- One more dialect is looked for. -/
theorem betterStart_first {seen : List DsmlSyntax} {best : Option (Nat × DsmlSyntax)}
    (hne : syn.toolCallsStart ≠ []) (hsome : ∀ found, best = some found → FirstOpener raw seen found)
    (hnone : best = none → ∀ s ∈ seen, ∀ i, ¬ Occurs s.toolCallsStart raw i) :
    (∀ found, betterStart raw best syn = some found → FirstOpener raw (seen ++ [syn]) found) ∧
      (betterStart raw best syn = none → ∀ s ∈ seen ++ [syn], ∀ i, ¬ Occurs s.toolCallsStart raw i) := by
  have hfirst := searchString_first hne raw
  have hsplit : ∀ {P : DsmlSyntax → Prop}, (∀ s ∈ seen, P s) → P syn → ∀ s ∈ seen ++ [syn], P s := by
    intro P hseen hsyn s hs
    rcases List.mem_append.mp hs with h | h
    · exact hseen s h
    · rw [List.mem_singleton.mp h]
      exact hsyn
  unfold betterStart
  cases hfind : searchString syn.toolCallsStart raw with
  | none =>
    rw [hfind] at hfirst
    refine ⟨fun found hfound => ?_, fun h => hsplit (hnone h) hfirst⟩
    have hbest := hsome found hfound
    exact ⟨List.mem_append_left _ hbest.mem, hbest.occurs, hsplit hbest.first fun i _ => hfirst i⟩
  | some q =>
    rw [hfind] at hfirst
    have hmem : syn ∈ seen ++ [syn] := List.mem_append_right _ (List.mem_singleton_self _)
    cases best with
    | none =>
      refine ⟨fun found hfound => ?_, nofun⟩
      obtain rfl := Option.some.inj hfound
      exact ⟨hmem, hfirst.1, hsplit (fun s hs i _ => hnone rfl s hs i) hfirst.2⟩
    | some best =>
      have hbest := hsome best rfl
      refine ⟨fun found hfound => ?_, fun h => ?_⟩
      · simp only at hfound
        split at hfound
        case isTrue hlt =>
          obtain rfl := Option.some.inj hfound
          exact ⟨hmem, hfirst.1, hsplit (fun s hs i hi => hbest.first s hs i (hi.trans hlt)) hfirst.2⟩
        case isFalse hge =>
          obtain rfl := Option.some.inj hfound
          exact ⟨List.mem_append_left _ hbest.mem, hbest.occurs,
            hsplit hbest.first fun i hi => hfirst.2 i (by omega)⟩
      · simp only at h
        split at h
        · cases h
        · cases h

/-- What a search for an opener answers. -/
theorem dsmlFindToolStart_spec (raw : List UInt8) :
    (∀ pos syn, dsmlFindToolStart raw = some (pos, syn) →
      ∃ i, pos = i + syn.toolCallsStart.length ∧ FirstOpener raw dsmlSyntaxes (i, syn)) ∧
      (dsmlFindToolStart raw = none → ∀ syn ∈ dsmlSyntaxes, ∀ i, ¬ Occurs syn.toolCallsStart raw i) := by
  have hne : ∀ syn ∈ dsmlSyntaxes, syn.toolCallsStart ≠ [] := by decide
  have hempty := @betterStart_first raw dsmlLong [] none (hne _ (by decide)) nofun fun _ => nofun
  have hshort := betterStart_first (hne dsmlShort (by decide)) hempty.1 hempty.2
  have hall := betterStart_first (hne dsmlPlain (by decide)) hshort.1 hshort.2
  unfold dsmlFindToolStart
  constructor
  · intro pos syn h
    obtain ⟨found, hfound, heq⟩ := Option.map_eq_some_iff.mp h
    obtain ⟨rfl, rfl⟩ := Prod.mk.inj heq
    exact ⟨found.1, rfl, hall.1 found hfound⟩
  · intro h
    exact hall.2 (Option.map_eq_none_iff.mp h)

theorem mem_openers (hsyn : syn ∈ dsmlSyntaxes) : syn.toolCallsStart ∈ openers := List.mem_map_of_mem hsyn

/-- The first opener is one only. -/
theorem FirstOpener.unique {a b : Nat × DsmlSyntax} (ha : FirstOpener raw dsmlSyntaxes a)
    (hb : FirstOpener raw dsmlSyntaxes b) : a = b := by
  have hplace : a.1 = b.1 := by
    rcases Nat.lt_trichotomy a.1 b.1 with hlt | heq | hlt
    · exact absurd ha.occurs (hb.first _ ha.mem _ hlt)
    · exact heq
    · exact absurd hb.occurs (ha.first _ hb.mem _ hlt)
  refine Prod.ext hplace ?_
  have hb' := hb.occurs
  rw [← hplace] at hb'
  rcases List.prefix_or_prefix_of_prefix ha.occurs hb' with h | h
  · exact opener_unique _ ha.mem _ hb.mem (List.isPrefixOf_iff_prefix.mpr h)
  · exact (opener_unique _ hb.mem _ ha.mem (List.isPrefixOf_iff_prefix.mpr h)).symm

theorem dsmlFindToolStart_eq {i : Nat} (h : FirstOpener raw dsmlSyntaxes (i, syn)) :
    dsmlFindToolStart raw = some (i + syn.toolCallsStart.length, syn) := by
  obtain ⟨hsome, hnone⟩ := dsmlFindToolStart_spec raw
  cases hfind : dsmlFindToolStart raw with
  | none => exact absurd h.occurs (hnone hfind _ h.mem _)
  | some found =>
    obtain ⟨pos, syn'⟩ := found
    obtain ⟨i', hpos, hfirst⟩ := hsome pos syn' hfind
    obtain ⟨rfl, rfl⟩ := Prod.mk.inj (h.unique hfirst)
    rw [hpos]

/-- No opener begins in front of a place. -/
def NoOpener (text : List UInt8) (start : Nat) : Prop :=
  ∀ syn ∈ dsmlSyntaxes, ∀ i, i < start → ¬ Occurs syn.toolCallsStart text i

/-- The opener that a part of the text has is the text's first one. -/
theorem findStart_of_take {start : Nat} (hseen : NoOpener text start)
    (h : dsmlFindToolStartFrom (text.take n) start = some (pos, syn)) :
    dsmlFindToolStart text = some (pos, syn) ∧ pos ≤ n := by
  unfold dsmlFindToolStartFrom at h
  split at h
  case isTrue => cases h
  case isFalse =>
    obtain ⟨found, hfound, heq⟩ := Option.map_eq_some_iff.mp h
    obtain ⟨pos', syn'⟩ := found
    obtain ⟨rfl, rfl⟩ := Prod.mk.inj heq
    obtain ⟨i, rfl, hfirst⟩ := (dsmlFindToolStart_spec _).1 pos' syn' hfound
    have hne := distinct_openers.ne_nil (mem_openers hfirst.mem)
    obtain ⟨hat, hfits⟩ := (occurs_take hne).mp ((occurs_drop start i).mp hfirst.occurs)
    have hwhole : FirstOpener text dsmlSyntaxes (start + i, syn') := by
      refine ⟨hfirst.mem, hat, fun s hs j hj hat' => ?_⟩
      have hbefore := distinct_openers.no_overlap (mem_openers hs) (mem_openers hfirst.mem) hat' hat hj
      by_cases hstart : j < start
      · exact hseen s hs j hstart hat'
      · obtain ⟨k, rfl⟩ := Nat.exists_eq_add_of_le (not_lt.mp hstart)
        refine hfirst.first s hs k (by omega) ((occurs_drop start k).mpr ?_)
        exact (occurs_take (distinct_openers.ne_nil (mem_openers hs))).mpr ⟨hat', by omega⟩
    have hfits' : start + i + syn'.toolCallsStart.length ≤ n := hfits
    rw [dsmlFindToolStart_eq hwhole, ← Nat.add_assoc]
    exact ⟨rfl, hfits'⟩

/-- Without an opener, only as many bytes are looked at again as one can have. -/
theorem noOpener_of_take {start : Nat} (hn : n ≤ text.length) (hseen : NoOpener text start)
    (h : dsmlFindToolStartFrom (text.take n) start = none) : NoOpener text (n - dsmlMaxToolStartLen) := by
  have hlength : (text.take n).length = n := by rw [List.length_take, min_eq_left hn]
  intro syn hsyn i hi hat
  have hlong := opener_length syn hsyn
  by_cases hstart : i < start
  · exact hseen syn hsyn i hstart hat
  · unfold dsmlFindToolStartFrom at h
    rw [if_neg (by omega)] at h
    obtain ⟨k, rfl⟩ := Nat.exists_eq_add_of_le (not_lt.mp hstart)
    refine (dsmlFindToolStart_spec _).2 (Option.map_eq_none_iff.mp h) syn hsyn k ((occurs_drop start k).mpr ?_)
    exact (occurs_take (distinct_openers.ne_nil (mem_openers hsyn))).mpr ⟨hat, by omega⟩

/-- Nothing is found in a text that nothing is found in from behind. -/
theorem findStart_none {start : Nat} (hseen : NoOpener text start) (h : dsmlFindToolStartFrom text start = none) :
    dsmlFindToolStart text = none := by
  cases hfind : dsmlFindToolStart text with
  | none => rfl
  | some found =>
    obtain ⟨pos, syn⟩ := found
    obtain ⟨i, -, hfirst⟩ := (dsmlFindToolStart_spec text).1 pos syn hfind
    have hat : Occurs syn.toolCallsStart text i := hfirst.occurs
    have hfits := hat.le (distinct_openers.ne_nil (mem_openers hfirst.mem))
    by_cases hstart : i < start
    · exact absurd hat (hseen syn hfirst.mem i hstart)
    · unfold dsmlFindToolStartFrom at h
      rw [if_neg (by omega)] at h
      obtain ⟨k, rfl⟩ := Nat.exists_eq_add_of_le (not_lt.mp hstart)
      exact absurd ((occurs_drop start k).mpr hat)
        ((dsmlFindToolStart_spec _).2 (Option.map_eq_none_iff.mp h) syn hfirst.mem k)

/-! ## Turns -/

/-- What is known of a place on the path. -/
structure OnPath (text : List UInt8) (p : TrackPlace) (syn : DsmlSyntax) : Prop where
  known : syn ∈ dsmlSyntaxes
  syn_eq : p.syn = some syn
  mode : p.mode = .structural ∨ p.mode = .stringBody ∨ p.mode = .jsonParam
  pos_le : p.pos ≤ text.length

theorem literal_pos : ∀ syn ∈ dsmlSyntaxes, 0 < syn.paramEnd.length ∧ 0 < syn.invokeEnd.length := by
  decide

/-- A turn that another one follows reads at least a byte, and leaves the dialect as it is. -/
structure Advanced (raw : List UInt8) (syn : DsmlSyntax) (p p' : TrackPlace) : Prop where
  further : p.pos < p'.pos
  onPath : OnPath raw p' syn

theorem trackString_advances (hsyn : syn ∈ dsmlSyntaxes) (hsome : p.syn = some syn) (hmode : p.mode = .stringBody)
    (h : trackString p syn raw = (p', none)) : Advanced raw syn p p' := by
  have hlong := (literal_pos syn hsyn).1
  unfold trackString at h
  split at h
  case isFalse => cases h
  case isTrue hlt =>
    split at h
    case isTrue hfull =>
      obtain rfl := (Prod.mk.inj h).1
      exact ⟨Nat.lt_add_of_pos_right hlong, hsyn, hsome, .inl rfl, rawFullLit_le hfull⟩
    split at h
    · cases h
    · obtain rfl := (Prod.mk.inj h).1
      exact ⟨Nat.lt_succ_self _, hsyn, hsome, .inr (.inl hmode), hlt⟩

theorem trackJson_advances (hsyn : syn ∈ dsmlSyntaxes) (hsome : p.syn = some syn) (hmode : p.mode = .jsonParam)
    (h : trackJson p syn raw = (p', none)) : Advanced raw syn p p' := by
  have hlong := (literal_pos syn hsyn).1
  unfold trackJson at h
  split at h
  case isFalse => cases h
  case isTrue hlt =>
    split at h
    case isTrue hfull =>
      obtain rfl := (Prod.mk.inj h).1
      rw [Bool.and_eq_true] at hfull
      exact ⟨Nat.lt_add_of_pos_right hlong, hsyn, hsome, .inl rfl, rawFullLit_le hfull.2⟩
    split at h
    · cases h
    · obtain rfl := (Prod.mk.inj h).1
      exact ⟨Nat.lt_succ_self _, hsyn, hsome, .inr (.inr hmode), hlt⟩

theorem dsmlTag_pos {tag rest s : List UInt8} (h : dsmlTag s = some (tag, rest)) : 0 < tag.length := by
  obtain ⟨-, body, rfl, -⟩ := dsmlTag_spec h
  simp

theorem trackStructural_advances (hsyn : syn ∈ dsmlSyntaxes) (hsome : p.syn = some syn)
    (hmode : p.mode = .structural) (h : trackStructural p syn raw = (p', none)) : Advanced raw syn p p' := by
  have hlong := (literal_pos syn hsyn).2
  unfold trackStructural at h
  split at h
  · cases h
  case isFalse hlt =>
    split at h
    · obtain rfl := (Prod.mk.inj h).1
      exact ⟨Nat.lt_succ_self _, hsyn, hsome, .inl hmode, not_le.mp hlt⟩
    split at h
    · cases h
    split at h
    case isTrue hfull =>
      obtain rfl := (Prod.mk.inj h).1
      exact ⟨Nat.lt_add_of_pos_right hlong, hsyn, hsome, .inl hmode, rawFullLit_le hfull⟩
    split at h
    · split at h
      · cases h
      case h_2 tag rest htag =>
        obtain rfl := (Prod.mk.inj h).1
        exact ⟨Nat.lt_add_of_pos_right (dsmlTag_pos htag), hsyn, hsome, .inl hmode, dsmlTag_le htag⟩
    split at h
    · split at h
      · cases h
      case h_2 tag rest htag =>
        split at h
        · obtain rfl := (Prod.mk.inj h).1
          exact ⟨Nat.lt_add_of_pos_right (dsmlTag_pos htag), hsyn, hsome, .inr (.inl rfl), dsmlTag_le htag⟩
        · obtain rfl := (Prod.mk.inj h).1
          exact ⟨Nat.lt_add_of_pos_right (dsmlTag_pos htag), hsyn, hsome, .inr (.inr rfl), dsmlTag_le htag⟩
    · cases h

/-- A turn behind the opener, by the mode. -/
theorem trackTurn_modes (hsyn : p.syn = some syn) (raw : List UInt8) :
    (p.mode = .structural → trackTurn p raw = trackStructural p syn raw) ∧
      (p.mode = .stringBody → trackTurn p raw = trackString p syn raw) ∧
      (p.mode = .jsonParam → trackTurn p raw = trackJson p syn raw) := by
  refine ⟨fun hmode => ?_, fun hmode => ?_, fun hmode => ?_⟩
  · simp only [trackTurn, hmode, hsyn]
  · simp only [trackTurn, hmode, hsyn]
  · simp only [trackTurn, hmode, hsyn]

theorem trackTurn_advances (h : OnPath text p syn) (hturn : trackTurn p raw = (p', none)) :
    Advanced raw syn p p' := by
  obtain ⟨hstructural, hstring, hjson⟩ := trackTurn_modes h.syn_eq raw
  rcases h.mode with hmode | hmode | hmode
  · exact trackStructural_advances h.known h.syn_eq hmode ((hstructural hmode).symm.trans hturn)
  · exact trackString_advances h.known h.syn_eq hmode ((hstring hmode).symm.trans hturn)
  · exact trackJson_advances h.known h.syn_eq hmode ((hjson hmode).symm.trans hturn)

theorem TrackPath.onPath (h : TrackPath text p) : ∃ syn, OnPath text p syn := by
  induction h with
  | @begin pos syn hfind =>
    obtain ⟨i, rfl, hfirst⟩ := (dsmlFindToolStart_spec text).1 pos syn hfind
    have hne := distinct_openers.ne_nil (mem_openers hfirst.mem)
    exact ⟨syn, hfirst.mem, rfl, .inl rfl, hfirst.occurs.le hne⟩
  | step _ hturn ih =>
    obtain ⟨syn, hsyn⟩ := ih
    exact ⟨syn, (trackTurn_advances hsyn hturn).onPath⟩

/-! ## A turn on a part of the text -/

theorem rawFullLit_of_take (hpos : pos ≤ n) (hn : n ≤ text.length) (h : rawFullLit (text.take n) pos lit = true) :
    rawFullLit text pos lit = true := by
  rw [rawFullLit_iff]
  exact ⟨hpos.trans hn, List.isPrefixOf_iff_prefix.mp (isPrefixOf_of_take hpos h)⟩

theorem getD_take (hpos : pos < n) : (text.take n).getD pos 0 = text.getD pos 0 := by
  rw [List.getD_eq_getElem?_getD, List.getD_eq_getElem?_getD, List.getElem?_take_of_lt hpos]

/-- A closing tag of which a part has not two bytes is none, unless the part ends behind its first byte. -/
theorem not_closesAt_of_take (hpos : pos < n) (hn : n ≤ text.length)
    (hfull : ¬ rawFullLit (text.take n) pos lit = true)
    (hpart : ¬ rawPartialLitMin (text.take n) pos lit 2 = true)
    (hcut : pos + 1 = n → ¬ ClosesAt text lit pos) : ¬ ClosesAt text lit pos := by
  have hlength : (text.take n).length = n := by rw [List.length_take, min_eq_left hn]
  by_cases hlast : pos + 1 = n
  · exact hcut hlast
  -- two bytes of the part are there to be seen
  have hbroken : ¬ rawPartialLit (text.take n) pos lit = true := fun h => by
    refine hpart ?_
    rw [rawPartialLitMin, h, hlength, Bool.true_and, decide_eq_true_iff]
    omega
  rintro (hfull' | hpart')
  · have hnot := not_isPrefixOf_of_take hpos.le hn hfull hbroken
    rw [List.isPrefixOf_iff_prefix.mpr (rawFullLit_iff.mp hfull').2] at hnot
    cases hnot
  · rw [rawPartialLitMin, Bool.and_eq_true, rawPartialLit, Bool.and_eq_true, Bool.and_eq_true,
      decide_eq_true_iff, decide_eq_true_iff, List.isPrefixOf_iff_prefix] at hpart'
    obtain ⟨⟨⟨-, hshort⟩, hprefix⟩, -⟩ := hpart'
    refine hbroken ?_
    rw [rawPartialLit, hlength, List.drop_take]
    simp only [Bool.and_eq_true, decide_eq_true_iff, List.isPrefixOf_iff_prefix]
    exact ⟨⟨hpos.le, by omega⟩, (List.take_prefix _ _).trans hprefix⟩

/-- What a turn on a part of the text comes to on all of it: the same turn, or a wait. -/
def SameTurn (text : List UInt8) (p : TrackPlace) (turn : TrackPlace × Option DsmlDecodeState) : Prop :=
  match turn with
  | (p', none) => trackTurn p text = (p', none)
  | (p', some decode) => p' = p ∨ (p'.mode = .done ∧ decode = .outside ∧ trackTurn p text = (p', some .outside))

theorem trackString_of_take (h : OnPath text p syn) (hmode : p.mode = .stringBody) (hn : n ≤ text.length)
    (hcut : p.pos + 1 = n → ¬ ClosesAt text syn.paramEnd p.pos) :
    SameTurn text p (trackString p syn (text.take n)) := by
  have hlength : (text.take n).length = n := by rw [List.length_take, min_eq_left hn]
  have hturn := (trackTurn_modes h.syn_eq text).2.1 hmode
  unfold trackString
  rw [hlength]
  split
  case isFalse => exact .inl rfl
  case isTrue hlt =>
    split
    case isTrue hfull =>
      show trackTurn p text = _
      rw [hturn, trackString, if_pos (by omega), if_pos (rawFullLit_of_take hlt.le hn hfull)]
    case isFalse hfull =>
      split
      case isTrue => exact .inl rfl
      case isFalse hpart =>
        have hnot := not_closesAt_of_take hlt hn hfull hpart hcut
        show trackTurn p text = _
        rw [hturn, trackString, if_pos (by omega), if_neg fun h => hnot (.inl h), if_neg fun h => hnot (.inr h)]

theorem trackJson_of_take (h : OnPath text p syn) (hmode : p.mode = .jsonParam) (hn : n ≤ text.length)
    (hcut : p.jsonInString = false → p.pos + 1 = n → ¬ ClosesAt text syn.paramEnd p.pos) :
    SameTurn text p (trackJson p syn (text.take n)) := by
  have hlength : (text.take n).length = n := by rw [List.length_take, min_eq_left hn]
  have hturn := (trackTurn_modes h.syn_eq text).2.2 hmode
  unfold trackJson
  rw [hlength]
  split
  case isFalse => exact .inl rfl
  case isTrue hlt =>
    rw [getD_take hlt]
    cases hstring : p.jsonInString with
    | true =>
      simp only [Bool.not_true, Bool.false_and, Bool.false_eq_true, if_false]
      show trackTurn p text = _
      rw [hturn, trackJson, if_pos (by omega), hstring]
      rfl
    | false =>
      simp only [Bool.not_false, Bool.true_and]
      split
      case isTrue hfull =>
        show trackTurn p text = _
        rw [hturn, trackJson, if_pos (by omega), hstring]
        simp only [Bool.not_false, Bool.true_and]
        rw [if_pos (rawFullLit_of_take hlt.le hn hfull)]
      case isFalse hfull =>
        split
        case isTrue => exact .inl rfl
        case isFalse hpart =>
          have hnot := not_closesAt_of_take hlt hn hfull hpart (hcut hstring)
          show trackTurn p text = _
          rw [hturn, trackJson, if_pos (by omega), hstring]
          simp only [Bool.not_false, Bool.true_and]
          rw [if_neg fun h => hnot (.inl h), if_neg fun h => hnot (.inr h)]

theorem structural_literals : ∀ syn ∈ dsmlSyntaxes,
    (syn.toolCallsEnd.isPrefixOf syn.invokeEnd = false ∧ syn.invokeEnd.isPrefixOf syn.toolCallsEnd = false) ∧
      (syn.toolCallsEnd.isPrefixOf syn.invokeStart = false ∧ syn.invokeStart.isPrefixOf syn.toolCallsEnd = false) ∧
      (syn.toolCallsEnd.isPrefixOf syn.paramStart = false ∧ syn.paramStart.isPrefixOf syn.toolCallsEnd = false) ∧
      (syn.invokeEnd.isPrefixOf syn.invokeStart = false ∧ syn.invokeStart.isPrefixOf syn.invokeEnd = false) ∧
      (syn.invokeEnd.isPrefixOf syn.paramStart = false ∧ syn.paramStart.isPrefixOf syn.invokeEnd = false) ∧
      (syn.invokeStart.isPrefixOf syn.paramStart = false ∧ syn.paramStart.isPrefixOf syn.invokeStart = false) := by
  decide

/-- Where one literal stands, another one does not. -/
theorem not_rawFullLit {a b : List UInt8} (hne : a.isPrefixOf b = false ∧ b.isPrefixOf a = false)
    (h : rawFullLit raw pos b = true) : ¬ rawFullLit raw pos a = true := by
  intro h'
  rcases List.prefix_or_prefix_of_prefix (rawFullLit_iff.mp h').2 (rawFullLit_iff.mp h).2 with h | h
  · rw [List.isPrefixOf_iff_prefix.mpr h] at hne
    exact absurd hne.1 nofun
  · rw [List.isPrefixOf_iff_prefix.mpr h] at hne
    exact absurd hne.2 nofun

/-- Which tag stands at a place decides about the turn. -/
structure StructuralTurn (raw : List UInt8) (p : TrackPlace) (syn : DsmlSyntax) : Prop where
  blockEnd : rawFullLit raw p.pos syn.toolCallsEnd = true → trackStructural p syn raw =
    ({ p with mode := .done, pos := p.pos + syn.toolCallsEnd.length }, some .outside)
  callEnd : rawFullLit raw p.pos syn.invokeEnd = true →
    trackStructural p syn raw = ({ p with pos := p.pos + syn.invokeEnd.length }, none)
  call : ∀ tag rest, rawFullLit raw p.pos syn.invokeStart = true →
    dsmlTag (raw.drop p.pos) = some (tag, rest) →
      trackStructural p syn raw = ({ p with pos := p.pos + tag.length }, none)
  param : ∀ tag rest, rawFullLit raw p.pos syn.paramStart = true →
    dsmlTag (raw.drop p.pos) = some (tag, rest) →
      trackStructural p syn raw =
        (if dsmlAttrIsStringTrue tag then { p with pos := p.pos + tag.length, mode := .stringBody }
          else { p with
            pos := p.pos + tag.length, mode := .jsonParam, jsonInString := false, jsonEscaped := false }, none)
  brokenOff : rawFullLit raw p.pos syn.toolCallsEnd = false → rawFullLit raw p.pos syn.invokeEnd = false →
    (rawFullLit raw p.pos syn.invokeStart = true → dsmlTag (raw.drop p.pos) = none) →
      (rawFullLit raw p.pos syn.paramStart = true → dsmlTag (raw.drop p.pos) = none) →
        trackStructural p syn raw = (p, some .structural)

theorem structuralTurn (hsyn : syn ∈ dsmlSyntaxes) (hlt : p.pos < raw.length)
    (hspace : isspace (raw.getD p.pos 0) = false) : StructuralTurn raw p syn := by
  obtain ⟨h12, h13, h14, h23, h24, h34⟩ := structural_literals syn hsyn
  have hspace' : ¬ isspace (raw.getD p.pos 0) = true := Bool.eq_false_iff.mp hspace
  constructor
  · intro h
    rw [trackStructural, if_neg (not_le.mpr hlt), if_neg hspace', if_pos h]
  · intro h
    rw [trackStructural, if_neg (not_le.mpr hlt), if_neg hspace', if_neg (not_rawFullLit h12 h), if_pos h]
  · intro tag rest h htag
    rw [trackStructural, if_neg (not_le.mpr hlt), if_neg hspace', if_neg (not_rawFullLit h13 h),
      if_neg (not_rawFullLit h23 h), if_pos h, htag]
  · intro tag rest h htag
    rw [trackStructural, if_neg (not_le.mpr hlt), if_neg hspace', if_neg (not_rawFullLit h14 h),
      if_neg (not_rawFullLit h24 h), if_neg (not_rawFullLit h34 h), if_pos h, htag]
    simp only
    split
    · rfl
    · rfl
  · intro hblock hcall hinvoke hparam
    rw [trackStructural, if_neg (not_le.mpr hlt), if_neg hspace', if_neg (Bool.eq_false_iff.mp hblock),
      if_neg (Bool.eq_false_iff.mp hcall)]
    split
    case isTrue h => rw [hinvoke h]
    split
    case isTrue h => rw [hparam h]
    · rfl

theorem trackStructural_of_take (h : OnPath text p syn) (hmode : p.mode = .structural) (hn : n ≤ text.length) :
    SameTurn text p (trackStructural p syn (text.take n)) := by
  have hlength : (text.take n).length = n := by rw [List.length_take, min_eq_left hn]
  have hturn := (trackTurn_modes h.syn_eq text).1 hmode
  by_cases hlt : p.pos < n
  · cases hspace : isspace (text.getD p.pos 0) with
    | true =>
      have hpart : trackStructural p syn (text.take n) = ({ p with pos := p.pos + 1 }, none) := by
        rw [trackStructural, if_neg (by omega), getD_take hlt, if_pos hspace]
      rw [hpart]
      show trackTurn p text = _
      rw [hturn, trackStructural, if_neg (by omega), if_pos hspace]
    | false =>
      have hwhole : StructuralTurn text p syn := structuralTurn h.known (by omega) hspace
      unfold trackStructural
      rw [hlength, if_neg (not_le.mpr hlt), getD_take hlt, if_neg (Bool.eq_false_iff.mp hspace)]
      split
      case isTrue hfull =>
        exact .inr ⟨rfl, rfl, hturn.trans (hwhole.blockEnd (rawFullLit_of_take hlt.le hn hfull))⟩
      split
      case isTrue hfull => exact hturn.trans (hwhole.callEnd (rawFullLit_of_take hlt.le hn hfull))
      split
      case isTrue hfull =>
        split
        · exact .inl rfl
        case h_2 tag rest htag =>
          exact hturn.trans (hwhole.call tag _ (rawFullLit_of_take hlt.le hn hfull) (dsmlTag_of_take hlt.le htag))
      split
      case isTrue hfull =>
        split
        · exact .inl rfl
        case h_2 tag rest htag =>
          have hsame := hwhole.param tag _ (rawFullLit_of_take hlt.le hn hfull) (dsmlTag_of_take hlt.le htag)
          split
          case isTrue hstring =>
            rw [if_pos hstring] at hsame
            exact hturn.trans hsame
          case isFalse hstring =>
            rw [if_neg hstring] at hsame
            exact hturn.trans hsame
      · exact .inl rfl
  · rw [trackStructural, if_pos (by omega)]
    exact .inl rfl

/-- A turn on a part of the text is one on all of it, unless the part ends right behind the `<` of a
closing tag. -/
theorem trackTurn_of_take (hpath : TrackPath text p) (hn : n ≤ text.length) (hcut : SafeCut text n) :
    SameTurn text p (trackTurn p (text.take n)) := by
  obtain ⟨syn, h⟩ := hpath.onPath
  obtain ⟨hstructural, hstring, hjson⟩ := trackTurn_modes h.syn_eq (text.take n)
  rcases h.mode with hmode | hmode | hmode
  · rw [hstructural hmode]
    exact trackStructural_of_take h hmode hn
  · rw [hstring hmode]
    exact trackString_of_take h hmode hn (hcut p syn hpath h.syn_eq (.inl hmode))
  · rw [hjson hmode]
    exact trackJson_of_take h hmode hn fun hopen => hcut p syn hpath h.syn_eq (.inr ⟨hmode, hopen⟩)

/-! ## An update -/

/-- A tracker behind the end of the block. -/
def Finished (text : List UInt8) (p : TrackPlace) : Prop :=
  p.mode = .done ∧ ∃ q, TrackPath text q ∧ trackTurn q text = (p, some .outside)

/-- Behind an update the tracker is on the path or at its end; on all of the text it is where no further turn
follows. -/
structure Tracked (text : List UInt8) (n : Nat) (dt : DecodeTracker) : Prop where
  place : (TrackPath text dt.place ∧ dt.place.pos ≤ n) ∨ Finished text dt.place
  last : n = text.length → ∃ q, TrackPath text q ∧ trackTurn q text = (dt.place, some dt.decode)

theorem trackLoop_onPath (hpath : TrackPath text p) (hpos : p.pos ≤ n) (hn : n ≤ text.length)
    (hcut : SafeCut text n) (fuel : Nat) (hfuel : n - p.pos < fuel) :
    ∃ dt, trackLoop fuel p (text.take n) = some dt ∧ Tracked text n dt := by
  have hlength : (text.take n).length = n := by rw [List.length_take, min_eq_left hn]
  induction fuel generalizing p with
  | zero => omega
  | succ fuel ih =>
    obtain ⟨syn, hon⟩ := hpath.onPath
    have hsame := trackTurn_of_take hpath hn hcut
    have hlast : n = text.length → trackTurn p (text.take n) = trackTurn p text := fun hall => by
      rw [hall, List.take_length]
    have hon' : OnPath (text.take n) p syn := ⟨hon.known, hon.syn_eq, hon.mode, by omega⟩
    rw [trackLoop]
    rcases hturn : trackTurn p (text.take n) with ⟨p', _ | decode⟩
    · rw [hturn] at hsame
      have hadvanced := trackTurn_advances hon' hturn
      have hfurther := hadvanced.further
      have hbound := hadvanced.onPath.pos_le
      exact ih (.step hpath hsame) (by omega) (by omega)
    · rw [hturn] at hsame
      refine ⟨⟨p', decode⟩, rfl, ?_, fun hall => ⟨p, hpath, (hlast hall).symm.trans hturn⟩⟩
      rcases hsame with rfl | ⟨hdone, -, hend⟩
      · exact .inl ⟨hpath, hpos⟩
      · exact .inr ⟨hdone, p, hpath, hend⟩

theorem trackLoop_finished (h : Finished text p) (raw : List UInt8) (fuel : Nat) :
    trackLoop (fuel + 1) p raw = some ⟨p, .outside⟩ := by
  have hturn : trackTurn p raw = (p, some .outside) := by
    simp only [trackTurn, h.1]
  rw [trackLoop, hturn]

/-- Before an opener, a tracker looks for one. -/
structure Searching (text : List UInt8) (p : TrackPlace) : Prop where
  place_eq : p = ⟨.search, none, p.pos, false, false⟩
  none_before : NoOpener text p.pos

/-- Where a tracker can be behind an update. -/
inductive Follows (text : List UInt8) (n : Nat) (dt : DecodeTracker) : Prop where
  | searching (h : Searching text dt.place) (hdecode : n = text.length →
      dt.decode = .outside ∧ dsmlFindToolStart text = none)
  | tracked (h : Tracked text n dt)

theorem dsmlMaxToolStartLen_eq : dsmlMaxToolStartLen = 22 := by decide

theorem trackLoop_follows {m : Nat} {dt : DecodeTracker} (h : Follows text m dt) (hm : m ≤ n) (hn : n ≤ text.length)
    (hcut : SafeCut text n) (fuel : Nat) (hfuel : text.length + 1 < fuel) :
    ∃ next, trackLoop fuel dt.place (text.take n) = some next ∧ Follows text n next := by
  obtain ⟨fuel, rfl⟩ : ∃ k, fuel = k + 1 := ⟨fuel - 1, by omega⟩
  cases h with
  | searching hsearch hdecode =>
    have hplace := hsearch.place_eq
    rw [trackLoop, hplace]
    simp only [trackTurn]
    cases hfind : dsmlFindToolStartFrom (text.take n) dt.place.pos with
    | none =>
      refine ⟨_, rfl, .searching ⟨rfl, ?_⟩ fun hall => ⟨rfl, ?_⟩⟩
      · show NoOpener text ((text.take n).length - dsmlMaxToolStartLen)
        rw [List.length_take, min_eq_left hn]
        exact noOpener_of_take hn hsearch.none_before hfind
      · rw [hall, List.take_length] at hfind
        exact findStart_none hsearch.none_before hfind
    | some found =>
      obtain ⟨pos, syn⟩ := found
      obtain ⟨hwhole, hpos⟩ := findStart_of_take hsearch.none_before hfind
      obtain ⟨next, hnext, htracked⟩ := trackLoop_onPath (.begin hwhole) hpos hn hcut fuel (by
        show n - pos < fuel
        omega)
      exact ⟨next, hnext, .tracked htracked⟩
  | tracked htracked =>
    rcases htracked.place with ⟨hpath, hpos⟩ | hfinished
    · obtain ⟨next, hnext, htracked'⟩ := trackLoop_onPath hpath (hpos.trans hm) hn hcut (fuel + 1) (by omega)
      exact ⟨next, hnext, .tracked htracked'⟩
    · refine ⟨_, trackLoop_finished hfinished _ fuel, .tracked ⟨.inr hfinished, fun _ => ?_⟩⟩
      obtain ⟨q, hq, hturn⟩ := hfinished.2
      exact ⟨q, hq, hturn⟩

/-! ## Runs -/

/-- Behind the opener. -/
structure TrackPlace.Inside (p : TrackPlace) (syn : DsmlSyntax) : Prop where
  known : syn ∈ dsmlSyntaxes
  syn_eq : p.syn = some syn
  mode : p.mode = .structural ∨ p.mode = .stringBody ∨ p.mode = .jsonParam

/-- Where an update can leave the tracker. -/
def TrackPlace.Sound (p : TrackPlace) : Prop := p.mode = .search ∨ p.mode = .done ∨ ∃ syn, p.Inside syn

/-- With an answer, the tracker waits where it is, or it is done. -/
theorem trackTurn_stops {decode : DsmlDecodeState} (h : p.Inside syn) (hturn : trackTurn p raw = (p', some decode)) :
    p' = p ∨ p'.mode = .done := by
  obtain ⟨hstructural, hstring, hjson⟩ := trackTurn_modes h.syn_eq raw
  rcases h.mode with hmode | hmode | hmode
  · rw [hstructural hmode] at hturn
    unfold trackStructural at hturn
    split at hturn
    · exact .inl (Prod.mk.inj hturn).1.symm
    split at hturn
    · cases hturn
    split at hturn
    · obtain rfl := (Prod.mk.inj hturn).1
      exact .inr rfl
    split at hturn
    · cases hturn
    split at hturn
    · split at hturn
      · exact .inl (Prod.mk.inj hturn).1.symm
      · cases hturn
    split at hturn
    · split at hturn
      · exact .inl (Prod.mk.inj hturn).1.symm
      · split at hturn
        · cases hturn
        · cases hturn
    · exact .inl (Prod.mk.inj hturn).1.symm
  · rw [hstring hmode] at hturn
    unfold trackString at hturn
    split at hturn
    · split at hturn
      · cases hturn
      split at hturn
      · exact .inl (Prod.mk.inj hturn).1.symm
      · cases hturn
    · exact .inl (Prod.mk.inj hturn).1.symm
  · rw [hjson hmode] at hturn
    unfold trackJson at hturn
    split at hturn
    · split at hturn
      · cases hturn
      split at hturn
      · exact .inl (Prod.mk.inj hturn).1.symm
      · cases hturn
    · exact .inl (Prod.mk.inj hturn).1.symm

theorem trackTurn_past (h : p.Inside syn) (hpos : raw.length ≤ p.pos) :
    ∃ decode, trackTurn p raw = (p, some decode) := by
  obtain ⟨hstructural, hstring, hjson⟩ := trackTurn_modes h.syn_eq raw
  rcases h.mode with hmode | hmode | hmode
  · exact ⟨_, (hstructural hmode).trans (by rw [trackStructural, if_pos hpos])⟩
  · exact ⟨_, (hstring hmode).trans (by rw [trackString, if_neg (not_lt.mpr hpos)])⟩
  · exact ⟨_, (hjson hmode).trans (by rw [trackJson, if_neg (not_lt.mpr hpos)])⟩

/-- Every turn but the last reads a byte. -/
theorem trackLoop_inside (h : p.Inside syn) (raw : List UInt8) (fuel : Nat) (hfuel : raw.length - p.pos < fuel) :
    ∃ dt, trackLoop fuel p raw = some dt ∧ dt.place.Sound := by
  induction fuel generalizing p with
  | zero => omega
  | succ fuel ih =>
    rw [trackLoop]
    rcases hturn : trackTurn p raw with ⟨p', _ | decode⟩
    · have hlt : p.pos < raw.length := by
        by_contra hge
        obtain ⟨decode, hpast⟩ := trackTurn_past h (not_lt.mp hge)
        cases hturn.symm.trans hpast
      obtain ⟨hfurther, hon⟩ := trackTurn_advances ⟨h.known, h.syn_eq, h.mode, hlt.le⟩ hturn
      exact ih ⟨hon.known, hon.syn_eq, hon.mode⟩ (by omega)
    · refine ⟨_, rfl, ?_⟩
      rcases trackTurn_stops h hturn with rfl | hdone
      · exact .inr (.inr ⟨syn, h⟩)
      · exact .inr (.inl hdone)

/-- An update comes to an end within as many turns as there are bytes, and one to find the opener. -/
theorem trackLoop_ends (hsound : p.Sound) (raw : List UInt8) {fuel : Nat} (hfuel : raw.length + 1 < fuel) :
    ∃ dt, trackLoop fuel p raw = some dt ∧ dt.place.Sound := by
  obtain ⟨fuel, rfl⟩ : ∃ k, fuel = k + 1 := ⟨fuel - 1, by omega⟩
  rcases hsound with hmode | hmode | ⟨syn, h⟩
  · rw [trackLoop]
    simp only [trackTurn, hmode]
    cases hfind : dsmlFindToolStartFrom raw p.pos with
    | none => exact ⟨_, rfl, .inl rfl⟩
    | some found =>
      obtain ⟨pos, syn⟩ := found
      obtain ⟨found', hfound', heq⟩ := Option.map_eq_some_iff.mp (show _ = some (pos, syn) from by
        unfold dsmlFindToolStartFrom at hfind
        split at hfind
        · cases hfind
        · exact hfind)
      obtain ⟨-, rfl⟩ := Prod.mk.inj heq
      obtain ⟨i, -, hfirst⟩ := (dsmlFindToolStart_spec _).1 _ _ hfound'
      have hinside : TrackPlace.Inside ⟨.structural, some found'.2, pos, p.jsonInString, p.jsonEscaped⟩ found'.2 :=
        ⟨hfirst.mem, rfl, .inl rfl⟩
      refine trackLoop_inside hinside raw fuel ?_
      show raw.length - pos < fuel
      omega
  · rw [trackLoop]
    simp only [trackTurn, hmode]
    exact ⟨_, rfl, .inr (.inl hmode)⟩
  · exact trackLoop_inside h raw (fuel + 1) (by omega)

theorem trackPrefixes_ends {lens : List Nat} {dt : DecodeTracker} (hsound : dt.place.Sound) (text : List UInt8)
    {fuel : Nat} (hfuel : text.length + 1 < fuel) : ∃ next, trackPrefixes fuel text lens dt = some next := by
  induction lens generalizing dt with
  | nil => exact ⟨dt, rfl⟩
  | cons n lens ih =>
    have hle : (text.take n).length ≤ text.length := List.length_take_le' n text
    obtain ⟨next, hnext, hsound'⟩ := trackLoop_ends hsound (text.take n) (show _ < fuel by omega)
    obtain ⟨last, hlast⟩ := ih hsound'
    refine ⟨last, ?_⟩
    rw [trackPrefixes, List.foldlM_cons, dsmlDecodeTrackerUpdate, hnext]
    exact hlast

theorem trackPrefixes_follows {lens : List Nat} {m k : Nat} {dt : DecodeTracker} (h : Follows text m dt)
    (hmono : (m :: lens).Pairwise (· ≤ ·)) (hlast : (m :: lens).getLast? = some k)
    (hle : ∀ n ∈ lens, n ≤ text.length) (hcut : ∀ n ∈ lens, SafeCut text n) {fuel : Nat}
    (hfuel : text.length + 1 < fuel) : ∃ next, trackPrefixes fuel text lens dt = some next ∧ Follows text k next := by
  induction lens generalizing m dt with
  | nil =>
    obtain rfl := Option.some.inj hlast
    exact ⟨dt, rfl, h⟩
  | cons n lens ih =>
    obtain ⟨hm, hmono⟩ := List.pairwise_cons.mp hmono
    rw [List.getLast?_cons_cons] at hlast
    obtain ⟨next, hnext, hfollows⟩ := trackLoop_follows h (hm n List.mem_cons_self) (hle n List.mem_cons_self)
      (hcut n List.mem_cons_self) fuel hfuel
    obtain ⟨last, hlast, hend⟩ := ih hfollows hmono hlast (fun k hk => hle k (List.mem_cons_of_mem _ hk))
      fun k hk => hcut k (List.mem_cons_of_mem _ hk)
    refine ⟨last, ?_, hend⟩
    rw [trackPrefixes, List.foldlM_cons, dsmlDecodeTrackerUpdate, hnext]
    exact hlast

theorem follows_init (text : List UInt8) : Follows text 0 .init := by
  refine .searching ⟨rfl, fun _ _ i hi => absurd hi (Nat.not_lt_zero i)⟩ fun hempty => ⟨rfl, ?_⟩
  rw [List.length_eq_zero_iff.mp hempty.symm]
  decide

end Spark.Server
