import Spark.Lib.Search
import Spark.Server.ReplyStream
import Spark.Server.ToolBlock

/-!
# Markers in a growing reply

What the searches of a stream translator find, in terms of where the markers stand in the whole reply.

* **`findTool_first`**, **`thinkEnd_spec`** — the searches answer the first place.
* **`findTool_take`**, **`thinkEnd_take`** — what is found in the part that is there is what is found in
  all of it.
-/

namespace Spark.Server

open Spark.Search

variable {text needle : List UInt8} {pos i n : Nat}

/-! ## One needle -/

theorem searchString_first (hneedle : needle ≠ []) (text : List UInt8) :
    First (Occurs needle text) (searchString needle text) := by
  induction text with
  | nil =>
    rw [searchString, if_neg hneedle]
    intro i hi
    have := hi.le hneedle
    have hpos := List.length_pos_of_ne_nil hneedle
    simp only [List.length_nil] at this
    omega
  | cons b text ih =>
    rw [searchString]
    split
    case isTrue hfront => exact ⟨List.isPrefixOf_iff_prefix.mp hfront, fun j hj => by omega⟩
    case isFalse hfront =>
      have hzero : ¬ Occurs needle (b :: text) 0 := fun h =>
        hfront (List.isPrefixOf_iff_prefix.mpr h)
      cases hsearch : searchString needle text with
      | none =>
        rw [hsearch] at ih
        intro i hi
        cases i with
        | zero => exact hzero hi
        | succ i => exact ih i hi
      | some k =>
        rw [hsearch] at ih
        refine ⟨ih.1, fun j hj => ?_⟩
        cases j with
        | zero => exact hzero
        | succ j => exact ih.2 j (Nat.lt_of_succ_lt_succ hj)

theorem strstr_first (hneedle : needle ≠ []) (h0 : 0 ∉ text) :
    First (Occurs needle text) (strstr text needle) := by
  rw [strstr_eq h0]
  exact searchString_first hneedle text

/-- Up to a word that is found, the word does not stand. -/
theorem strstr_split {p word : List UInt8} {k : Nat} (hword : word ≠ []) (h0 : 0 ∉ p) (h : strstr p word = some k) :
    p.take k ++ (word ++ p.drop (k + word.length)) = p ∧ ¬ word <:+: p.take k := by
  have hfirst := strstr_first hword h0
  rw [h] at hfirst
  constructor
  · obtain ⟨back, hback⟩ := hfirst.1
    have hdrop : p.drop (k + word.length) = back := by
      rw [← List.drop_drop, ← hback, List.drop_left]
    rw [hdrop, hback, List.take_append_drop]
  · intro hat
    obtain ⟨i, hi⟩ := infix_iff_occurs.mp hat
    obtain ⟨hthere, hle⟩ := (occurs_take hword).mp hi
    have hpos := List.length_pos_of_ne_nil hword
    exact hfirst.2 i (by omega) hthere

theorem scan_last (hneedle : needle ≠ []) (h0 : 0 ∉ text) {fuel start : Nat} {last : Option Nat}
    (hfuel : text.length < start + fuel) (h : Last (fun i => i < start ∧ Occurs needle text i) last) :
    Last (Occurs needle text) (findLastSubstr.scan text needle fuel start last) := by
  induction fuel generalizing start last with
  | zero =>
    have hpos := List.length_pos_of_ne_nil hneedle
    refine h.stop fun i hi => ?_
    have := hi.le hneedle
    omega
  | succ fuel ih =>
    have h0' : 0 ∉ text.drop start := fun hmem => h0 (List.mem_of_mem_drop hmem)
    have hfirst := (strstr_first hneedle h0').congr fun i => occurs_drop start i
    rw [findLastSubstr.scan]
    cases hfind : strstr (text.drop start) needle with
    | none =>
      rw [hfind] at hfirst
      exact h.stop hfirst
    | some pos =>
      rw [hfind] at hfirst
      exact ih (by omega) (.of_first hfirst)

theorem findLastSubstr_last (hneedle : needle ≠ []) (h0 : 0 ∉ text) :
    Last (Occurs needle text) (findLastSubstr text needle) := by
  rw [findLastSubstr, if_neg hneedle]
  exact scan_last hneedle h0 (by omega) fun i hi => absurd hi.1 (Nat.not_lt_zero i)

/-! ## Any of several -/

/-- The earlier of two first places is the first place of either. -/
theorem first_earlier {P Q : Nat → Prop} {a b : Option Nat} (ha : First P a) (hb : First Q b) :
    First (fun i => P i ∨ Q i) (earlier a b) := by
  cases a with
  | none =>
    exact hb.congr fun i => ⟨Or.inr, fun h => h.resolve_left (ha i)⟩
  | some i =>
    cases b with
    | none => exact ha.congr fun i => ⟨Or.inl, fun h => h.resolve_right (hb i)⟩
    | some j =>
      show First _ (some (if j < i then j else i))
      split
      · exact ⟨Or.inr hb.1, fun k hk h => h.elim (ha.2 k (by omega)) (hb.2 k hk)⟩
      · exact ⟨Or.inl ha.1, fun k hk h => h.elim (ha.2 k hk) (hb.2 k (by omega))⟩

theorem foldl_earlier_first (h0 : 0 ∉ text) (needles : List (List UInt8))
    (hneedles : ∀ needle ∈ needles, needle ≠ []) {P : Nat → Prop} {r : Option Nat} (h : First P r) :
    First (fun i => P i ∨ OccursAny needles text i) ((needles.map (strstr text)).foldl earlier r) := by
  induction needles generalizing P r with
  | nil => exact h.congr fun i => by simp [OccursAny]
  | cons needle needles ih =>
    have hneedle := hneedles needle List.mem_cons_self
    have hstep := first_earlier h (strstr_first hneedle h0)
    refine (ih (fun m hm => hneedles m (List.mem_cons_of_mem _ hm)) hstep).congr fun i => ?_
    simp only [OccursAny, List.mem_cons, exists_eq_or_imp]
    exact or_assoc

theorem findAny_first (h0 : 0 ∉ text) {needles : List (List UInt8)}
    (hneedles : ∀ needle ∈ needles, needle ≠ []) :
    First (OccursAny needles text) (findAny needles text) :=
  (foldl_earlier_first h0 needles hneedles (P := fun _ => False) (r := none) fun _ h => h).congr
    fun _ => ⟨fun h => h.resolve_left id, Or.inr⟩

/-! ## The markers of a reply -/

/-- The words that can end reasoning: `</think>`, and the openers of a tool block where there are tools. -/
def enders (hasTools : Bool) : List (List UInt8) := thinkClose :: if hasTools then toolStarts else []

theorem distinct_enders (hasTools : Bool) : Distinct 0x3c (enders hasTools) := by
  cases hasTools
  · unfold Distinct
    decide
  · unfold Distinct
    decide

theorem distinct_toolStarts : Distinct 0x3c toolStarts := fun word hword =>
  distinct_enders true word (List.mem_cons_of_mem _ hword)

/-- The openers are longer than `</think>` and shorter than what is kept back for them. -/
theorem toolStarts_length : ∀ word ∈ toolStarts, thinkClose.length + 3 ≤ word.length ∧
    word.length ≤ markerHold := by
  decide

theorem length_thinkClose : thinkClose.length = 8 := by decide

theorem thinkClose_ne_nil : thinkClose ≠ [] := by decide

/-- An opener stands at a position, and there are tools. -/
def ToolAt (hasTools : Bool) (text : List UInt8) (i : Nat) : Prop :=
  hasTools = true ∧ OccursAny toolStarts text i

/-- Something that ends reasoning stands at a position. -/
def EndAt (hasTools : Bool) (text : List UInt8) (i : Nat) : Prop := OccursAny (enders hasTools) text i

variable {hasTools : Bool}

theorem endAt_iff : EndAt hasTools text i ↔ Occurs thinkClose text i ∨ ToolAt hasTools text i := by
  cases hasTools
  · simp [EndAt, enders, OccursAny, ToolAt]
  · simp [EndAt, enders, OccursAny, ToolAt]

/-- `</think>` is no opener. -/
theorem not_toolAt_of_close (hclose : Occurs thinkClose text i) : ¬ ToolAt hasTools text i := by
  rintro ⟨-, word, hword, hat⟩
  have hsecond : ∀ word ∈ toolStarts, 1 < word.length ∧ word[1]? ≠ thinkClose[1]? := by decide
  obtain ⟨hlength, hne⟩ := hsecond word hword
  refine hne ?_
  rw [← hat.getElem? hlength, ← hclose.getElem? (show 1 < thinkClose.length by decide)]

/-! ## The searches of a translator -/

theorem findTool_first (hasTools : Bool) (h0 : 0 ∉ text) (pos : Nat) :
    First (fun i => pos ≤ i ∧ ToolAt hasTools text i) (findTool hasTools text pos) := by
  unfold findTool
  split
  case isTrue htools =>
    have h0' : 0 ∉ text.drop pos := fun hmem => h0 (List.mem_of_mem_drop hmem)
    have hfirst := (findAny_first h0' fun _ => distinct_toolStarts.ne_nil).congr
      (fun i => occursAny_drop pos i)
    exact hfirst.shift.congr fun i => and_congr_right fun _ => (and_iff_right htools).symm
  case isFalse htools => exact fun i hi => htools hi.2.1

theorem findClose_first (h0 : 0 ∉ text) (pos : Nat) :
    First (fun i => pos ≤ i ∧ Occurs thinkClose text i)
      ((strstr (text.drop pos) thinkClose).map (pos + ·)) := by
  have h0' : 0 ∉ text.drop pos := fun hmem => h0 (List.mem_of_mem_drop hmem)
  exact ((strstr_first thinkClose_ne_nil h0').congr fun i => occurs_drop pos i).shift

def ThinkEnd.pos? : ThinkEnd → Option Nat
  | .tool t => some t
  | .close c => some c
  | .none => Option.none

/-- What `thinkEnd` answers, said of the places of the words. -/
structure EndsAs (hasTools : Bool) (text : List UInt8) (pos : Nat) (r : ThinkEnd) : Prop where
  first : First (fun i => pos ≤ i ∧ EndAt hasTools text i) r.pos?
  tool : ∀ t, r = .tool t → ToolAt hasTools text t
  close : ∀ c, r = .close c → Occurs thinkClose text c

theorem EndsAs.of_tool {t : Nat} (h : First (fun i => pos ≤ i ∧ EndAt hasTools text i) (some t))
    (htool : ToolAt hasTools text t) : EndsAs hasTools text pos (.tool t) :=
  ⟨h, fun _ heq => ThinkEnd.tool.inj heq ▸ htool, nofun⟩

theorem EndsAs.of_close {c : Nat} (h : First (fun i => pos ≤ i ∧ EndAt hasTools text i) (some c))
    (hclose : Occurs thinkClose text c) : EndsAs hasTools text pos (.close c) :=
  ⟨h, nofun, fun _ heq => ThinkEnd.close.inj heq ▸ hclose⟩

theorem thinkEnd_spec (hasTools : Bool) (h0 : 0 ∉ text) (pos : Nat) :
    EndsAs hasTools text pos (thinkEnd hasTools text pos) := by
  have htool := findTool_first hasTools h0 pos
  have hclose := findClose_first h0 pos
  have hfirst := (first_earlier hclose htool).congr (Q := fun i => pos ≤ i ∧ EndAt hasTools text i)
    fun i => by rw [endAt_iff, and_or_left]
  unfold thinkEnd
  revert htool hclose hfirst
  cases findTool hasTools text pos with
  | none =>
    cases (strstr (text.drop pos) thinkClose).map (pos + ·) with
    | none => exact fun _ _ hfirst => ⟨hfirst, nofun, nofun⟩
    | some close => exact fun _ hclose hfirst => .of_close hfirst hclose.1.2
  | some tool =>
    cases (strstr (text.drop pos) thinkClose).map (pos + ·) with
    | none => exact fun htool _ hfirst => .of_tool hfirst htool.1.2
    | some close =>
      intro htool hclose hfirst
      show EndsAs hasTools text pos (if tool < close then .tool tool else .close close)
      rw [show earlier (some close) (some tool) = some (if tool < close then tool else close) from rfl]
        at hfirst
      split
      case isTrue hlt =>
        rw [if_pos hlt] at hfirst
        exact .of_tool hfirst htool.1.2
      case isFalse hlt =>
        rw [if_neg hlt] at hfirst
        exact .of_close hfirst hclose.1.2

theorem EndsAs.unique {a b : ThinkEnd} (ha : EndsAs hasTools text pos a) (hb : EndsAs hasTools text pos b) :
    a = b := by
  have hpos : a.pos? = b.pos? := ha.first.unique hb.first
  cases a with
  | tool t =>
    cases b with
    | tool t' => rw [Option.some.inj hpos]
    | close c =>
      obtain rfl := Option.some.inj hpos
      exact absurd (ha.tool t rfl) (not_toolAt_of_close (hb.close t rfl))
    | none => cases hpos
  | close c =>
    cases b with
    | tool t =>
      obtain rfl := Option.some.inj hpos
      exact absurd (hb.tool c rfl) (not_toolAt_of_close (ha.close c rfl))
    | close c' => rw [Option.some.inj hpos]
    | none => cases hpos
  | none =>
    cases b with
    | tool t => cases hpos
    | close c => cases hpos
    | none => rfl

/-- An answer about the text is the search's. -/
theorem EndsAs.eq {a : ThinkEnd} (h0 : 0 ∉ text) (h : EndsAs hasTools text pos a) :
    thinkEnd hasTools text pos = a :=
  (thinkEnd_spec hasTools h0 pos).unique h

theorem thinkEnd_ge (h0 : 0 ∉ text) (h : (thinkEnd hasTools text pos).pos? = some i) : pos ≤ i := by
  have hspec := thinkEnd_spec hasTools h0 pos
  have hfirst := hspec.first
  rw [h] at hfirst
  exact hfirst.1.1

/-- A `</think>` that is found lies in the text as a whole. -/
theorem close_le (h0 : 0 ∉ text) {c : Nat} (h : thinkEnd hasTools text pos = .close c) :
    c + thinkClose.length ≤ text.length :=
  ((thinkEnd_spec hasTools h0 pos).close c h).le thinkClose_ne_nil

/-! ## In a part of the reply -/

theorem not_mem_take (h0 : 0 ∉ text) (n : Nat) : 0 ∉ text.take n := fun hmem =>
  h0 (List.mem_of_mem_take hmem)

theorem toolAt_of_take (h : ToolAt hasTools (text.take n) i) : ToolAt hasTools text i :=
  ⟨h.1, occursAny_of_take distinct_toolStarts h.2⟩

/-- The first end in a part of the reply is the first one in all of it. -/
theorem first_of_take (h : First (fun i => pos ≤ i ∧ EndAt hasTools (text.take n) i) (some i)) :
    First (fun i => pos ≤ i ∧ EndAt hasTools text i) (some i) := by
  have hat := occursAny_of_take (distinct_enders hasTools) h.1.2
  refine ⟨⟨h.1.1, hat⟩, fun j hj hend => h.2 j hj ⟨hend.1, ?_⟩⟩
  have hn : i ≤ n := by
    obtain ⟨word, hword, hat'⟩ := h.1.2
    have := (occurs_take ((distinct_enders hasTools).ne_nil hword)).mp hat'
    omega
  exact occursAny_take_of_lt (distinct_enders hasTools) hend.2 hat hj hn

theorem thinkEnd_take (h0 : 0 ∉ text) {pos n : Nat} {r : ThinkEnd}
    (h : thinkEnd hasTools (text.take n) pos = r) (hr : r ≠ .none) : thinkEnd hasTools text pos = r := by
  have hspec := thinkEnd_spec hasTools (not_mem_take h0 n) pos
  rw [h] at hspec
  refine EndsAs.eq h0 ?_
  cases r with
  | tool t => exact .of_tool (first_of_take hspec.first) (toolAt_of_take (hspec.tool t rfl))
  | close c =>
    exact .of_close (first_of_take hspec.first) ((occurs_take thinkClose_ne_nil).mp (hspec.close c rfl)).1
  | none => exact absurd rfl hr

theorem findTool_take (h0 : 0 ∉ text) {pos n t : Nat} (h : findTool hasTools (text.take n) pos = some t) :
    findTool hasTools text pos = some t := by
  have hspec := findTool_first hasTools (not_mem_take h0 n) pos
  rw [h] at hspec
  refine (findTool_first hasTools h0 pos).unique ⟨⟨hspec.1.1, toolAt_of_take hspec.1.2⟩, fun j hj htool => ?_⟩
  have hn : t ≤ n := by
    obtain ⟨-, word, hword, hat⟩ := hspec.1.2
    have := (occurs_take (distinct_toolStarts.ne_nil hword)).mp hat
    omega
  exact hspec.2 j hj ⟨htool.1, htool.2.1,
    occursAny_take_of_lt distinct_toolStarts htool.2.2 (toolAt_of_take hspec.1.2).2 hj hn⟩

/-- What a part of the reply does not have yet, breaks off in it or lies behind it. -/
theorem close_after (h0 : 0 ∉ text) {pos n c : Nat} (hnone : thinkEnd hasTools (text.take n) pos = .none)
    (hpos : pos ≤ c) (hclose : Occurs thinkClose text c) : n < c + thinkClose.length := by
  have hspec := thinkEnd_spec hasTools (not_mem_take h0 n) pos
  rw [hnone] at hspec
  by_contra hle
  exact (show First _ none from hspec.first) c ⟨hpos, endAt_iff.mpr (.inl ((occurs_take thinkClose_ne_nil).mpr ⟨hclose, by omega⟩))⟩

theorem tool_after (h0 : 0 ∉ text) {pos n t : Nat} (hnone : findTool hasTools (text.take n) pos = none)
    (hpos : pos ≤ t) (htool : ToolAt hasTools text t) :
    ∃ word ∈ toolStarts, Occurs word text t ∧ n < t + word.length := by
  have hspec := findTool_first hasTools (not_mem_take h0 n) pos
  rw [hnone] at hspec
  obtain ⟨htools, word, hword, hat⟩ := htool
  refine ⟨word, hword, hat, ?_⟩
  by_contra hle
  exact hspec t ⟨hpos, htools, word, hword,
    (occurs_take (distinct_toolStarts.ne_nil hword)).mpr ⟨hat, by omega⟩⟩

/-! ## From further on -/

theorem first_advance {P : Nat → Prop} {r : Option Nat} {pos pos' : Nat}
    (h : First (fun i => pos ≤ i ∧ P i) r) (hpos : pos ≤ pos') (hr : ∀ i, r = some i → pos' ≤ i) :
    First (fun i => pos' ≤ i ∧ P i) r := by
  cases r with
  | none => exact fun i hi => h i ⟨hpos.trans hi.1, hi.2⟩
  | some i => exact ⟨⟨hr i rfl, h.1.2⟩, fun j hj hp => h.2 j hj ⟨hpos.trans hp.1, hp.2⟩⟩

theorem findTool_advance (h0 : 0 ∉ text) {pos pos' : Nat} (hpos : pos ≤ pos')
    (h : ∀ t, findTool hasTools text pos = some t → pos' ≤ t) :
    findTool hasTools text pos' = findTool hasTools text pos :=
  (findTool_first hasTools h0 pos').unique (first_advance (findTool_first hasTools h0 pos) hpos h)

theorem thinkEnd_advance (h0 : 0 ∉ text) {pos pos' : Nat} (hpos : pos ≤ pos')
    (h : ∀ i, (thinkEnd hasTools text pos).pos? = some i → pos' ≤ i) :
    thinkEnd hasTools text pos' = thinkEnd hasTools text pos := by
  have hspec := thinkEnd_spec hasTools h0 pos
  exact EndsAs.eq h0 ⟨first_advance hspec.first hpos h, hspec.tool, hspec.close⟩

end Spark.Server
