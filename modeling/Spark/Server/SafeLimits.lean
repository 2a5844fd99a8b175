import Spark.Server.Markers

/-!
# Where a stream may stop

What the limits of an update leave for later: the character the text breaks off in, and where tools are
on the white space and the marker that a tool block may begin with.

* **`utf8StreamSafeLen_spec`** — what is kept back is no ASCII.
* **`trimToolSeparatorWs_spec`** — what is trimmed is white space, and what stands before is not.
* **`textStreamSafeLimit_before_tool`** — content never reaches the white space in front of a marker that
  is still to come.
-/

namespace Spark.Server

open Spark.Search

variable {s raw text : List UInt8} {start limit n : Nat}

/-! ## Characters -/

theorem toNat_of_isContinuation {c : UInt8} (h : isContinuation c = true) : 0x80 ≤ c.toNat := by
  have hand : c &&& 0xc0 = 0x80 := of_decide_eq_true h
  have hnat : c.toNat &&& 0xc0 = 0x80 := congrArg UInt8.toNat hand
  have hle : c.toNat &&& 0xc0 ≤ c.toNat := Nat.and_le_left
  omega

theorem toNat_of_expectedLen {c : UInt8} (h : 1 < utf8ExpectedLen c) : 0x80 ≤ c.toNat := by
  unfold utf8ExpectedLen at h
  split at h
  case isTrue => omega
  case isFalse hascii =>
    have := UInt8.le_iff_toNat_le.mp (UInt8.not_lt.mp hascii)
    exact this

theorem skipContinuation_spec (cont : Nat) {p : Nat} (hp : start ≤ p) :
    start ≤ skipContinuation s start cont p ∧ skipContinuation s start cont p ≤ p ∧
      ∀ i, skipContinuation s start cont p ≤ i → i < p → isContinuation (s.getD i 0) = true := by
  induction cont generalizing p with
  | zero => exact ⟨hp, le_refl p, fun i hle hlt => absurd hle (by simp [skipContinuation]; omega)⟩
  | succ cont ih =>
    rw [skipContinuation]
    split
    case isTrue hstep =>
      obtain ⟨hge, hle, hall⟩ := ih (p := p - 1) (by omega)
      refine ⟨hge, by omega, fun i hi hlt => ?_⟩
      by_cases hlast : i = p - 1
      · rw [hlast]
        exact hstep.2
      · exact hall i hi (by omega)
    case isFalse => exact ⟨hp, le_refl p, fun i hle hlt => by omega⟩

theorem utf8StreamSafeLen_spec (s : List UInt8) (start limit : Nat) (final : Bool) :
    utf8StreamSafeLen s start limit final ≤ limit ∧
      (start ≤ limit → start ≤ utf8StreamSafeLen s start limit final) ∧
      ∀ i, utf8StreamSafeLen s start limit final ≤ i → i < limit → 0x80 ≤ (s.getD i 0).toNat := by
  unfold utf8StreamSafeLen
  split
  case isTrue => exact ⟨le_refl _, id, fun i hle hlt => by omega⟩
  case isFalse hopen =>
    have hlt : start < limit := by
      simp only [not_or, not_le] at hopen
      exact hopen.2
    obtain ⟨hge, hle, hall⟩ := skipContinuation_spec (s := s) 4 hlt.le
    revert hge hle hall
    generalize skipContinuation s start 4 limit = p
    intro hge hle hall
    simp only
    split
    case isTrue hwhole =>
      split
      case isTrue hlead =>
        refine ⟨by omega, fun _ => by omega, fun i hi hilt => ?_⟩
        rw [show i = limit - 1 by omega]
        exact toNat_of_expectedLen hlead
      case isFalse => exact ⟨le_refl _, fun _ => by omega, fun i hi hilt => by omega⟩
    case isFalse hshort =>
      split
      case isTrue hstart =>
        exact ⟨by omega, fun _ => le_refl _,
          fun i hi hilt => toNat_of_isContinuation (hall i (by omega) hilt)⟩
      case isFalse hlead =>
        have hpstart : p ≠ start := fun heq => hlead ⟨heq, hall p (le_refl p) (by omega)⟩
        split
        case isTrue hmissing =>
          refine ⟨by omega, fun _ => by omega, fun i hi hilt => ?_⟩
          by_cases hfirst : i = p - 1
          · rw [hfirst]
            exact toNat_of_expectedLen (by omega)
          · exact toNat_of_isContinuation (hall i (by omega) hilt)
        case isFalse => exact ⟨le_refl _, fun _ => by omega, fun i hi hilt => by omega⟩

theorem utf8StreamSafeLen_final : utf8StreamSafeLen s start limit true = limit := by
  simp [utf8StreamSafeLen]

/-! ## White space -/

/-- Whether the byte at a position is white space. -/
def spaceAt (raw : List UInt8) (i : Nat) : Bool := (raw[i]?.map isspace).getD false

theorem trimToolSeparatorWs_spec (raw : List UInt8) (start limit : Nat) :
    trimToolSeparatorWs raw start limit ≤ limit ∧
      (start ≤ limit → start ≤ trimToolSeparatorWs raw start limit) ∧
      (∀ i, trimToolSeparatorWs raw start limit ≤ i → i < limit → spaceAt raw i = true) ∧
      (start < trimToolSeparatorWs raw start limit →
        spaceAt raw (trimToolSeparatorWs raw start limit - 1) = false) := by
  induction limit with
  | zero => exact ⟨le_refl _, id, fun i hle hlt => by omega, fun hlt => by simp [trimToolSeparatorWs] at hlt⟩
  | succ limit ih =>
    rw [trimToolSeparatorWs]
    split
    case isTrue hstep =>
      obtain ⟨hle, hge, hall, hlast⟩ := ih
      refine ⟨by omega, fun _ => hge (by omega), fun i hi hlt => ?_, hlast⟩
      by_cases hlimit : i = limit
      · rw [hlimit]
        exact hstep.2
      · exact hall i hi (by omega)
    case isFalse hstop =>
      refine ⟨le_refl _, id, fun i hi hlt => by omega, fun hlt => ?_⟩
      rw [not_and] at hstop
      exact Bool.eq_false_iff.mpr (hstop hlt)

/-- The result is fixed by what it says: the white space is behind it and not in front of it. -/
theorem trimToolSeparatorWs_eq {q : Nat} (hle : q ≤ limit) (hge : start ≤ q)
    (hall : ∀ i, q ≤ i → i < limit → spaceAt raw i = true)
    (hlast : start < q → spaceAt raw (q - 1) = false) : trimToolSeparatorWs raw start limit = q := by
  obtain ⟨hle', hge', hall', hlast'⟩ := trimToolSeparatorWs_spec raw start limit
  have hge' := hge' (hge.trans hle)
  by_contra hne
  rcases Nat.lt_or_gt_of_ne hne with hlt | hlt
  · have hspace := hall' (q - 1) (by omega) (by omega)
    rw [hlast (by omega)] at hspace
    cases hspace
  · have hspace := hall (trimToolSeparatorWs raw start limit - 1) (by omega) (by omega)
    rw [hlast' (by omega)] at hspace
    cases hspace

theorem spaceAt_take {i : Nat} (hi : i < n) : spaceAt (text.take n) i = spaceAt text i := by
  rw [spaceAt, spaceAt, List.getElem?_take_of_lt hi]

theorem trimToolSeparatorWs_take (hlimit : limit ≤ n) (hstart : start ≤ limit) :
    trimToolSeparatorWs (text.take n) start limit = trimToolSeparatorWs text start limit := by
  obtain ⟨hle, hge, hall, hlast⟩ := trimToolSeparatorWs_spec text start limit
  have hge := hge hstart
  refine trimToolSeparatorWs_eq hle hge (fun i hi hlt => ?_) fun hlt => ?_
  · rw [spaceAt_take (by omega)]
    exact hall i hi hlt
  · rw [spaceAt_take (by omega)]
    exact hlast hlt

/-- Trimming from further on, but not from within the white space, comes to the same. -/
theorem trimToolSeparatorWs_advance {a : Nat} (ha : a ≤ start)
    (hstart : start ≤ trimToolSeparatorWs text a limit) :
    trimToolSeparatorWs text start limit = trimToolSeparatorWs text a limit := by
  obtain ⟨hle, -, hall, hlast⟩ := trimToolSeparatorWs_spec text a limit
  exact trimToolSeparatorWs_eq hle hstart hall fun hlt => hlast (by omega)

/-! ## Markers that are still to come -/

theorem lastByte_spec {b : UInt8} (scan : Nat) (j : Nat) :
    (∀ i, lastByte b s scan j = some i →
      scan ≤ i ∧ i < j ∧ s[i]? = some b ∧ ∀ k, i < k → k < j → s[k]? ≠ some b) ∧
    (lastByte b s scan j = none → ∀ k, scan ≤ k → k < j → s[k]? ≠ some b) := by
  induction j with
  | zero => exact ⟨nofun, fun _ k _ hk => by omega⟩
  | succ j ih =>
    rw [lastByte]
    split
    case isTrue hscan =>
      split
      case isTrue hbyte =>
        refine ⟨fun i hi => ?_, nofun⟩
        cases hi
        exact ⟨by omega, by omega, hbyte, fun k hk hlt => by omega⟩
      case isFalse hbyte =>
        refine ⟨fun i hi => ?_, fun hnone k hk hlt => ?_⟩
        · obtain ⟨hge, hlt, hat, hall⟩ := ih.1 i hi
          refine ⟨hge, by omega, hat, fun k hk hkj => ?_⟩
          by_cases hj : k = j
          · rwa [hj]
          · exact hall k hk (by omega)
        · by_cases hj : k = j
          · rwa [hj]
          · exact ih.2 hnone k hk (by omega)
    case isFalse hscan => exact ⟨nofun, fun _ k hk hlt => by omega⟩

/-- The last such byte, when it is known which one that is. -/
theorem lastByte_eq {b : UInt8} {scan j i : Nat} (hscan : scan ≤ i) (hlt : i < j) (hat : s[i]? = some b)
    (hall : ∀ k, i < k → k < j → s[k]? ≠ some b) : lastByte b s scan j = some i := by
  have hspec := lastByte_spec (s := s) (b := b) scan j
  cases hlast : lastByte b s scan j with
  | none => exact absurd hat (hspec.2 hlast i hscan hlt)
  | some k =>
    obtain ⟨-, hkj, hk, hlater⟩ := hspec.1 k hlast
    rcases Nat.lt_trichotomy i k with hik | rfl | hki
    · exact absurd hk (hall k hik hkj)
    · rfl
    · exact absurd hat (hlater i hki hlt)

theorem not_space_of_angle {i : Nat} (h : text[i]? = some 0x3c) : spaceAt text i = false := by
  rw [spaceAt, h]
  decide

theorem textStreamSafeLimit_le {rawLen : Nat} {hasTools : Bool}
    (hnone : findTool hasTools raw start = none) (hstart : start < rawLen) :
    textStreamSafeLimit raw start rawLen hasTools false ≤ rawLen ∧
      start ≤ textStreamSafeLimit raw start rawLen hasTools false := by
  unfold textStreamSafeLimit
  rw [if_neg (by omega)]
  split
  case isTrue htools =>
    have hfind : findAnyToolStart (raw.drop start) = none := by
      rw [findTool, if_pos htools] at hnone
      simpa using hnone
    simp only [hfind, Bool.false_eq_true, if_false]
    obtain ⟨htrim, htrim', -, -⟩ := trimToolSeparatorWs_spec raw start rawLen
    have hbound : ∀ limit, start ≤ limit → limit ≤ rawLen →
        utf8StreamSafeLen raw start (trimToolSeparatorWs raw start limit) false ≤ rawLen ∧
          start ≤ utf8StreamSafeLen raw start (trimToolSeparatorWs raw start limit) false := by
      intro limit hlow hhigh
      obtain ⟨hle, hge, -, -⟩ := trimToolSeparatorWs_spec raw start limit
      obtain ⟨hle', hge', -⟩ := utf8StreamSafeLen_spec raw start (trimToolSeparatorWs raw start limit) false
      exact ⟨hle'.trans (hle.trans hhigh), hge' (hge hlow)⟩
    split
    case h_1 marker hmarker =>
      obtain ⟨hscan, -⟩ := (lastByte_spec _ _).1 marker hmarker
      have hlow : start ≤ marker := by
        split at hscan
        · omega
        · exact hscan
      exact hbound _ (le_min hlow (htrim' hstart.le)) ((min_le_right _ _).trans htrim)
    case h_2 => exact hbound _ (htrim' hstart.le) htrim
  case isFalse =>
    obtain ⟨hle, hge, -⟩ := utf8StreamSafeLen_spec raw start rawLen false
    exact ⟨hle, hge hstart.le⟩

/-- Content never reaches the white space in front of a marker that is still to come: the bytes of the
marker that are there already begin with the last `<`, and that is kept back. -/
theorem textStreamSafeLimit_before_tool (h0 : 0 ∉ text) {rawLen t : Nat} (hrawLen : rawLen ≤ n)
    (hnone : findTool true (text.take n) start = none) (hstart : start < rawLen)
    (ht : start ≤ t) (htool : ToolAt true text t) :
    textStreamSafeLimit (text.take n) start rawLen true false ≤ trimToolSeparatorWs text start t := by
  obtain ⟨word, hword, hat, hlater⟩ := tool_after h0 hnone ht htool
  have hlength := (toolStarts_length word hword).2
  have hangle : text[t]? = some 0x3c := distinct_toolStarts.letter hword hat
  have hfind : findAnyToolStart ((text.take n).drop start) = none := by
    rw [findTool, if_pos rfl] at hnone
    simpa using hnone
  unfold textStreamSafeLimit
  simp only [hfind, Bool.false_eq_true, if_false, if_true]
  rw [if_neg (by omega)]
  generalize hscan : (if rawLen - start > markerHold then rawLen - markerHold else start) = scan
  have hscanle : scan ≤ rawLen ∧ (t < rawLen → scan ≤ t) := by
    rw [← hscan]
    split
    · exact ⟨by omega, fun _ => by omega⟩
    · exact ⟨hstart.le, fun _ => ht⟩
  obtain ⟨htrimle, htrimge, hspaces, -⟩ :=
    trimToolSeparatorWs_spec (text.take n) start rawLen
  have htrimge := htrimge hstart.le
  by_cases hthere : t < rawLen
  · -- the marker has begun: its `<` is the last one
    have hlast : lastByte 0x3c (text.take n) scan rawLen = some t := by
      refine lastByte_eq (hscanle.2 hthere) hthere ?_ fun k hk hklt => ?_
      · rw [List.getElem?_take_of_lt (by omega), hangle]
      · rw [List.getElem?_take_of_lt (by omega)]
        exact distinct_toolStarts.letter_only hword hat hk (by omega)
    have hbehind : t < trimToolSeparatorWs (text.take n) start rawLen := by
      by_contra hle
      have hspace := hspaces t (by omega) hthere
      rw [spaceAt_take (by omega), not_space_of_angle hangle] at hspace
      cases hspace
    simp only [hlast]
    rw [min_eq_left hbehind.le]
    refine (utf8StreamSafeLen_spec _ _ _ false).1.trans ?_
    rw [trimToolSeparatorWs_take (by omega) ht]
  · -- all that is there stands in front of the marker
    have hbound : ∀ limit, start ≤ limit → limit ≤ rawLen →
        utf8StreamSafeLen (text.take n) start (trimToolSeparatorWs (text.take n) start limit) false ≤
          trimToolSeparatorWs text start t := by
      intro limit hlow hhigh
      refine (utf8StreamSafeLen_spec _ _ _ false).1.trans ?_
      obtain ⟨hle, hge, -, hlast⟩ :=
        trimToolSeparatorWs_spec (text.take n) start limit
      have hge := hge hlow
      obtain ⟨-, hge', hspaces', -⟩ :=
        trimToolSeparatorWs_spec text start t
      by_contra hgt
      have hspace := hspaces' (trimToolSeparatorWs (text.take n) start limit - 1) (by omega) (by omega)
      have hnospace := hlast (by have := hge' ht; omega)
      rw [spaceAt_take (by omega), hspace] at hnospace
      cases hnospace
    split
    case h_1 marker hmarker =>
      have hlow : start ≤ marker := by
        have hge := ((lastByte_spec _ _).1 marker hmarker).1
        rw [← hscan] at hge
        split at hge
        · omega
        · exact hge
      exact hbound _ (le_min hlow htrimge) ((min_le_right _ _).trans htrimle)
    case h_2 => exact hbound _ htrimge htrimle

end Spark.Server
