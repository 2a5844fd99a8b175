import Spark.Server.Text
import Spark.Tokenizer.Bpe

/-!
# The pieces of a text

What the GLM model files call `glm4` (`engine.c`, `bpe_tokenize_text_glm4`): a text is cut into words, short numbers,
runs of other characters and white space, and each piece is tokenized on its own.

* **`glm4Piece`** — the end of the piece at the front of a text.
* **`glm4Piece_bounds`** — a piece takes a byte or more, and stays within the text.
* **`tokenize_round_trip`** — the tokens of a text are the text.

A text is looked at from the start of a piece; nothing in front of it is read. The text is a C string: it ends at its
first zero.
-/

namespace Spark.Tokenizer

open Server (cString)

/-! ## Characters -/

def asciiAlpha (c : Nat) : Bool := (decide (65 ≤ c) && decide (c ≤ 90)) || (decide (97 ≤ c) && decide (c ≤ 122))

def asciiDigit (c : Nat) : Bool := decide (48 ≤ c) && decide (c ≤ 57)

def asciiSpace (c : Nat) : Bool := c == 0x20 || c == 0x09 || c == 0x0a || c == 0x0d || c == 0x0b || c == 0x0c

def inRanges (ranges : List (Nat × Nat)) (cp : Nat) : Bool :=
  ranges.any fun range => decide (range.1 ≤ cp) && decide (cp ≤ range.2)

/-- `joyai_ascii_punct_symbol`. -/
def asciiPunctSymbol (c : Nat) : Bool := inRanges [(0x21, 0x2f), (0x3a, 0x40), (0x5b, 0x60), (0x7b, 0x7e)] c

/-- `utf8_peek_one`: the character at a position, and the next position. -/
def utf8PeekOne (s : List UInt8) (pos : Nat) : Nat × Nat :=
  let c := s.getD pos 0
  let n := utf8LenFromFirstByte c
  let n := if pos + n > s.length then 1 else n
  let low (i : Nat) := (s.getD (pos + i) 0 &&& 0x3f).toNat
  let cp :=
    if n = 1 then c.toNat
    else if n = 2 then ((c &&& 0x1f).toNat <<< 6) ||| low 1
    else if n = 3 then ((c &&& 0x0f).toNat <<< 12) ||| (low 1 <<< 6) ||| low 2
    else ((c &&& 0x07).toNat <<< 18) ||| (low 1 <<< 12) ||| (low 2 <<< 6) ||| low 3
  (cp, pos + n)

/-- `next_utf8_char`. -/
def nextUtf8Char (s : List UInt8) (pos : Nat) : Nat := (utf8PeekOne s pos).2

def glm4UnicodeWhitespace (cp : Nat) : Bool :=
  if cp < 128 then asciiSpace cp
  else inRanges [(0x0085, 0x0085), (0x00a0, 0x00a0), (0x1680, 0x1680), (0x2000, 0x200a), (0x2028, 0x2028),
    (0x2029, 0x2029), (0x202f, 0x202f), (0x205f, 0x205f), (0x3000, 0x3000)] cp

def glm4UnicodeNumber (cp : Nat) : Bool :=
  if cp < 128 then asciiDigit cp
  else inRanges [(0x0660, 0x0669), (0x06f0, 0x06f9), (0x07c0, 0x07c9), (0x0966, 0x096f), (0x09e6, 0x09ef),
    (0x0a66, 0x0a6f), (0x0ae6, 0x0aef), (0x0b66, 0x0b6f), (0x0be6, 0x0bef), (0x0c66, 0x0c6f), (0x0ce6, 0x0cef),
    (0x0d66, 0x0d6f), (0x0de6, 0x0def), (0x0e50, 0x0e59), (0x0ed0, 0x0ed9), (0x0f20, 0x0f29), (0x1040, 0x1049),
    (0x1090, 0x1099), (0x17e0, 0x17e9), (0x1810, 0x1819), (0xff10, 0xff19)] cp

def glm4UnicodePunctSymbol (cp : Nat) : Bool :=
  if cp < 128 then asciiPunctSymbol cp
  else inRanges [(0x00a1, 0x00a9), (0x00ab, 0x00ac), (0x00ae, 0x00b1), (0x00b4, 0x00b4), (0x00b6, 0x00b8),
    (0x00bb, 0x00bb), (0x00bf, 0x00bf), (0x00d7, 0x00d7), (0x00f7, 0x00f7), (0x02c2, 0x02df), (0x02e5, 0x02eb),
    (0x02ed, 0x02ff), (0x0375, 0x037e), (0x0384, 0x0385), (0x0387, 0x0387), (0x055a, 0x055f), (0x0589, 0x058a),
    (0x05be, 0x05c0), (0x05c3, 0x05c3), (0x05c6, 0x05c7), (0x0609, 0x060a), (0x060c, 0x060d), (0x061b, 0x061b),
    (0x061e, 0x061f), (0x066a, 0x066a), (0x066d, 0x066d), (0x06d4, 0x06d4), (0x2000, 0x206f), (0x20a0, 0x20cf),
    (0x2100, 0x214f), (0x2190, 0x23ff), (0x2460, 0x24ff), (0x2500, 0x2775), (0x2794, 0x2bff), (0x2e00, 0x2e7f),
    (0x3000, 0x303f), (0xfd3e, 0xfd3f), (0xfe10, 0xfe6f), (0xff01, 0xff0f), (0xff1a, 0xff20), (0xff3b, 0xff40),
    (0xff5b, 0xff65), (0x1f000, 0x1faff)] cp

structure Glm4CharInfo where
  cp : Nat
  next : Nat
  valid : Bool
  isLetter : Bool
  isNumber : Bool
  isWhitespace : Bool

/-- `glm4_char_at`. -/
def glm4CharAt (s : List UInt8) (pos : Nat) : Glm4CharInfo :=
  if pos ≥ s.length then ⟨0, 0, false, false, false, false⟩
  else
    let cp := (utf8PeekOne s pos).1
    let isWhitespace := glm4UnicodeWhitespace cp
    let isNumber := glm4UnicodeNumber cp
    let isLetter := if cp < 128 then asciiAlpha cp else !isWhitespace && !isNumber && !glm4UnicodePunctSymbol cp
    ⟨cp, (utf8PeekOne s pos).2, true, isLetter, isNumber, isWhitespace⟩

def asciiTolowerCp (cp : Nat) : Nat := if 65 ≤ cp ∧ cp ≤ 90 then cp + (97 - 65) else cp

namespace Glm4CharInfo

def isNewline (info : Glm4CharInfo) : Bool := info.cp == 0x0d || info.cp == 0x0a

/-- What the punctuation loop goes over. -/
def isOther (info : Glm4CharInfo) : Bool := !info.isWhitespace && !info.isLetter && !info.isNumber

end Glm4CharInfo

/-! ## Pieces -/

/-- A loop over the characters that `p` holds of, at most `fuel` of them. -/
def glm4Scan (p : Glm4CharInfo → Bool) (s : List UInt8) : Nat → Nat → Nat
  | 0, pos => pos
  | fuel + 1, pos =>
    if pos < s.length then
      if (glm4CharAt s pos).valid && p (glm4CharAt s pos) then glm4Scan p s fuel (glm4CharAt s pos).next else pos
    else pos

/-- An apostrophe and the end of a contraction. -/
def glm4Contraction (s : List UInt8) (cur : Glm4CharInfo) : Option Nat :=
  if cur.cp = 0x27 ∧ cur.next < s.length then
    let next := glm4CharAt s cur.next
    let n1 := asciiTolowerCp next.cp
    if n1 = 0x73 ∨ n1 = 0x74 ∨ n1 = 0x6d ∨ n1 = 0x64 then some next.next
    else if next.valid ∧ next.next < s.length then
      let next2 := glm4CharAt s next.next
      let n2 := asciiTolowerCp next2.cp
      if (n1 = 0x72 ∧ n2 = 0x65) ∨ (n1 = 0x76 ∧ n2 = 0x65) ∨ (n1 = 0x6c ∧ n2 = 0x6c) then some next2.next else none
    else none
  else none

/-- Letters, with one other character in front of them. -/
def glm4Word (s : List UInt8) (cur : Glm4CharInfo) : Option Nat :=
  if cur.isNewline || cur.isNumber then none
  else if cur.isLetter || (glm4CharAt s cur.next).isLetter then
    some (glm4Scan Glm4CharInfo.isLetter s s.length cur.next)
  else none

/-- Other characters, with a space in front of them and newlines behind them. -/
def glm4Punct (s : List UInt8) (cur : Glm4CharInfo) : Option Nat :=
  let pos := if cur.cp = 0x20 then cur.next else 0
  let punct := if cur.cp = 0x20 then glm4CharAt s cur.next else cur
  if punct.valid && punct.isOther then
    some (glm4Scan Glm4CharInfo.isNewline s s.length (glm4Scan Glm4CharInfo.isOther s s.length pos))
  else none

/-- The variables of the loop over white space. -/
structure SpaceScan where
  p : Nat
  lastNewlineEnd : Nat
  lastWsStart : Nat
  nspace : Nat

def glm4Spaces (s : List UInt8) : Nat → SpaceScan → SpaceScan
  | 0, scan => scan
  | fuel + 1, scan =>
    if scan.p < s.length then
      let info := glm4CharAt s scan.p
      if info.valid && info.isWhitespace then
        glm4Spaces s fuel
          ⟨info.next, if info.isNewline then info.next else scan.lastNewlineEnd, scan.p, scan.nspace + 1⟩
      else scan
    else scan

/-- White space up to its last newline, or up to the last character if a word follows it. -/
def glm4Whitespace (s : List UInt8) : Nat :=
  let scan := glm4Spaces s s.length ⟨0, 0, 0, 0⟩
  if scan.lastNewlineEnd ≠ 0 then scan.lastNewlineEnd
  else if scan.nspace > 1 ∧ scan.p < s.length then scan.lastWsStart
  else scan.p

/-- One turn of `bpe_tokenize_text_glm4`: the end of the piece at the front of a text. -/
def glm4Piece (s : List UInt8) : Nat :=
  let cur := glm4CharAt s 0
  match glm4Contraction s cur with
  | some pos => pos
  | none =>
    match glm4Word s cur with
    | some pos => pos
    | none =>
      if cur.isNumber then glm4Scan Glm4CharInfo.isNumber s 3 0
      else
        match glm4Punct s cur with
        | some pos => pos
        | none =>
          if cur.isWhitespace then glm4Whitespace s
          else if cur.next = 0 then nextUtf8Char s 0 else cur.next

/-- The loop of `bpe_tokenize_text_glm4`. -/
def glm4Pieces : Nat → List UInt8 → List (List UInt8)
  | 0, _ => []
  | _, [] => []
  | fuel + 1, c :: s => (c :: s).take (glm4Piece (c :: s)) :: glm4Pieces fuel ((c :: s).drop (glm4Piece (c :: s)))

/-- `bpe_tokenize_text_glm4`, which emits each piece as it finds it. -/
def bpeTokenizeTextGlm4 (vocab : Vocab) (s : List UInt8) : List Nat :=
  (glm4Pieces s.length s).flatMap (bpeEmitPiece vocab)

/-- `ds4_tokenize_text`, for a GLM model. -/
def ds4TokenizeText (vocab : Vocab) (text : List UInt8) : List Nat := bpeTokenizeTextGlm4 vocab (cString text)

section Pieces

variable {s : List UInt8} {pos fuel : Nat} {p : Glm4CharInfo → Bool}

theorem utf8LenFromFirstByte_pos (c : UInt8) : 1 ≤ utf8LenFromFirstByte c := by
  unfold utf8LenFromFirstByte
  split
  · exact Nat.le_refl 1
  · split
    · decide
    · split
      · decide
      · split <;> decide

theorem utf8PeekOne_next (h : pos < s.length) : pos < (utf8PeekOne s pos).2 ∧ (utf8PeekOne s pos).2 ≤ s.length := by
  have hpos := utf8LenFromFirstByte_pos (s.getD pos 0)
  unfold utf8PeekOne
  dsimp only
  split <;> omega

/-- A character within the text takes a byte or more, and stays within the text. -/
theorem glm4CharAt_next (h : pos < s.length) :
    (glm4CharAt s pos).valid = true ∧ pos < (glm4CharAt s pos).next ∧ (glm4CharAt s pos).next ≤ s.length := by
  unfold glm4CharAt
  rw [if_neg (Nat.not_le.mpr h)]
  exact ⟨rfl, utf8PeekOne_next h⟩

theorem glm4Scan_bounds (p : Glm4CharInfo → Bool) (fuel : Nat) (h : pos ≤ s.length) :
    pos ≤ glm4Scan p s fuel pos ∧ glm4Scan p s fuel pos ≤ s.length := by
  induction fuel generalizing pos with
  | zero => exact ⟨Nat.le_refl _, h⟩
  | succ fuel ih =>
    rw [glm4Scan]
    split
    case isTrue hlt =>
      split
      case isTrue =>
        obtain ⟨-, hnext, hle⟩ := glm4CharAt_next hlt
        obtain ⟨hfront, hback⟩ := ih hle
        exact ⟨by omega, hback⟩
      case isFalse => exact ⟨Nat.le_refl _, h⟩
    case isFalse => exact ⟨Nat.le_refl _, h⟩

/-- A scan that goes over its first character moves on. -/
theorem glm4Scan_first (h : pos < s.length) (hp : p (glm4CharAt s pos) = true) :
    pos < glm4Scan p s (fuel + 1) pos := by
  obtain ⟨hvalid, hnext, hle⟩ := glm4CharAt_next h
  rw [glm4Scan, if_pos h, if_pos (by rw [hvalid, hp]; rfl)]
  exact Nat.lt_of_lt_of_le hnext (glm4Scan_bounds p fuel hle).1

theorem glm4Contraction_bounds (h : glm4Contraction s (glm4CharAt s 0) = some pos) : 0 < pos ∧ pos ≤ s.length := by
  unfold glm4Contraction at h
  split at h
  case isFalse => cases h
  case isTrue hcur =>
    obtain ⟨-, hnext, hle⟩ := glm4CharAt_next hcur.2
    dsimp only at h
    split at h
    case isTrue =>
      cases h
      exact ⟨by omega, hle⟩
    case isFalse =>
      split at h
      case isFalse => cases h
      case isTrue hmore =>
        obtain ⟨-, hnext2, hle2⟩ := glm4CharAt_next hmore.2
        split at h
        case isFalse => cases h
        case isTrue =>
          cases h
          exact ⟨by omega, hle2⟩

theorem glm4Word_bounds (hs : 0 < s.length) (h : glm4Word s (glm4CharAt s 0) = some pos) :
    0 < pos ∧ pos ≤ s.length := by
  obtain ⟨-, hnext, hle⟩ := glm4CharAt_next hs
  unfold glm4Word at h
  split at h
  case isTrue => cases h
  case isFalse =>
    split at h
    case isFalse => cases h
    case isTrue =>
      cases h
      obtain ⟨hfront, hback⟩ := glm4Scan_bounds Glm4CharInfo.isLetter s.length hle
      exact ⟨by omega, hback⟩

theorem glm4Punct_bounds (hs : 0 < s.length) (h : glm4Punct s (glm4CharAt s 0) = some pos) :
    0 < pos ∧ pos ≤ s.length := by
  obtain ⟨-, hnext, hle⟩ := glm4CharAt_next hs
  unfold glm4Punct at h
  by_cases hspace : (glm4CharAt s 0).cp = 0x20
  · -- behind a space
    simp only [hspace, if_true] at h
    split at h
    case isFalse => cases h
    case isTrue =>
      cases h
      obtain ⟨hfront, hback⟩ := glm4Scan_bounds Glm4CharInfo.isOther s.length hle
      obtain ⟨hfront', hback'⟩ := glm4Scan_bounds Glm4CharInfo.isNewline s.length hback
      exact ⟨by omega, hback'⟩
  · simp only [hspace, if_false] at h
    split at h
    case isFalse => cases h
    case isTrue hpunct =>
      cases h
      obtain ⟨fuel, hfuel⟩ := Nat.exists_eq_add_of_lt hs
      rw [Nat.zero_add] at hfuel
      have hfirst : 0 < glm4Scan Glm4CharInfo.isOther s s.length 0 := by
        rw [hfuel]
        exact glm4Scan_first hs (Bool.and_eq_true_iff.mp hpunct).2
      obtain ⟨-, hback⟩ := glm4Scan_bounds Glm4CharInfo.isOther s.length (Nat.zero_le s.length)
      obtain ⟨hfront', hback'⟩ := glm4Scan_bounds Glm4CharInfo.isNewline s.length hback
      exact ⟨by omega, hback'⟩

/-- The variables of the loop over white space, after some characters. -/
structure SpaceScan.Sound (s : List UInt8) (scan : SpaceScan) : Prop where
  within : scan.p ≤ s.length
  newline : scan.lastNewlineEnd ≤ scan.p
  start : scan.lastWsStart ≤ scan.p
  one : 1 ≤ scan.nspace → 0 < scan.p
  two : 2 ≤ scan.nspace → 0 < scan.lastWsStart

theorem glm4Spaces_nspace (fuel : Nat) (scan : SpaceScan) : scan.nspace ≤ (glm4Spaces s fuel scan).nspace := by
  induction fuel generalizing scan with
  | zero => exact Nat.le_refl _
  | succ fuel ih =>
    rw [glm4Spaces]
    split
    case isFalse => exact Nat.le_refl _
    case isTrue hlt =>
      dsimp only
      split
      case isFalse => exact Nat.le_refl _
      case isTrue =>
        apply Nat.le_trans _ (ih _)
        exact Nat.le_succ _

theorem glm4Spaces_sound {scan : SpaceScan} (fuel : Nat) (h : scan.Sound s) : (glm4Spaces s fuel scan).Sound s := by
  induction fuel generalizing scan with
  | zero => exact h
  | succ fuel ih =>
    rw [glm4Spaces]
    split
    case isFalse => exact h
    case isTrue hlt =>
      dsimp only
      split
      case isFalse => exact h
      case isTrue =>
        obtain ⟨-, hnext, hle⟩ := glm4CharAt_next hlt
        have hnewline := h.newline
        have hstep : SpaceScan.Sound s ⟨(glm4CharAt s scan.p).next,
            if (glm4CharAt s scan.p).isNewline then (glm4CharAt s scan.p).next else scan.lastNewlineEnd, scan.p,
            scan.nspace + 1⟩ := by
          refine ⟨hle, ?_, Nat.le_of_lt hnext, fun _ => Nat.zero_lt_of_lt hnext, fun htwo => h.one ?_⟩
          · dsimp only
            split <;> omega
          · exact Nat.le_of_succ_le_succ htwo
        exact ih hstep

theorem glm4Whitespace_bounds (hs : 0 < s.length) (h : (glm4CharAt s 0).isWhitespace = true) :
    0 < glm4Whitespace s ∧ glm4Whitespace s ≤ s.length := by
  have hzero : SpaceScan.Sound s ⟨0, 0, 0, 0⟩ :=
    ⟨Nat.zero_le _, Nat.le_refl _, Nat.le_refl _, fun h => absurd h (by decide), fun h => absurd h (by decide)⟩
  have hsound := glm4Spaces_sound s.length hzero
  have hone : 1 ≤ (glm4Spaces s s.length ⟨0, 0, 0, 0⟩).nspace := by
    obtain ⟨fuel, hfuel⟩ := Nat.exists_eq_add_of_lt hs
    rw [Nat.zero_add] at hfuel
    obtain ⟨hvalid, -, -⟩ := glm4CharAt_next hs
    have hcount : ((glm4CharAt s 0).valid && (glm4CharAt s 0).isWhitespace) = true := by
      rw [hvalid, h]
      rfl
    rw [hfuel, glm4Spaces, if_pos hs]
    dsimp only
    rw [if_pos hcount]
    apply Nat.le_trans _ (glm4Spaces_nspace fuel _)
    exact Nat.le_refl 1
  unfold glm4Whitespace
  dsimp only
  generalize glm4Spaces s s.length ⟨0, 0, 0, 0⟩ = scan at hsound hone
  have hwithin := hsound.within
  have hnewline := hsound.newline
  have hstart := hsound.start
  have hp := hsound.one hone
  split
  case isTrue hnl => exact ⟨Nat.pos_of_ne_zero hnl, by omega⟩
  case isFalse =>
    split
    case isTrue hword => exact ⟨hsound.two hword.1, by omega⟩
    case isFalse => exact ⟨hp, hwithin⟩

/-- A piece takes a byte or more, and stays within the text. -/
theorem glm4Piece_bounds (hs : 0 < s.length) : 0 < glm4Piece s ∧ glm4Piece s ≤ s.length := by
  obtain ⟨-, hnext, hle⟩ := glm4CharAt_next hs
  unfold glm4Piece
  dsimp only
  cases hcontraction : glm4Contraction s (glm4CharAt s 0) with
  | some pos => exact glm4Contraction_bounds hcontraction
  | none =>
    cases hword : glm4Word s (glm4CharAt s 0) with
    | some pos => exact glm4Word_bounds hs hword
    | none =>
      dsimp only
      split
      case isTrue hnumber => exact ⟨glm4Scan_first hs hnumber, (glm4Scan_bounds _ 3 (Nat.zero_le _)).2⟩
      case isFalse =>
        cases hpunct : glm4Punct s (glm4CharAt s 0) with
        | some pos => exact glm4Punct_bounds hs hpunct
        | none =>
          dsimp only
          split
          case isTrue hspace => exact glm4Whitespace_bounds hs hspace
          case isFalse =>
            rw [if_neg (Nat.pos_iff_ne_zero.mp hnext)]
            exact ⟨hnext, hle⟩

/-- The pieces are the text, none of them is empty, and the loop has no more turns than the text has bytes. -/
theorem glm4Pieces_flatten (h : s.length ≤ fuel) :
    (glm4Pieces fuel s).flatten = s ∧ ∀ piece ∈ glm4Pieces fuel s, piece ≠ [] := by
  induction fuel generalizing s with
  | zero =>
    have hnil : s = [] := List.length_eq_zero_iff.mp (Nat.le_zero.mp h)
    subst hnil
    exact ⟨rfl, fun piece hpiece => absurd hpiece List.not_mem_nil⟩
  | succ fuel ih =>
    cases s with
    | nil => exact ⟨rfl, fun piece hpiece => absurd hpiece List.not_mem_nil⟩
    | cons c s =>
      obtain ⟨hpos, hle⟩ := glm4Piece_bounds (s := c :: s) (Nat.succ_pos _)
      have hrest : ((c :: s).drop (glm4Piece (c :: s))).length ≤ fuel := by
        rw [List.length_drop]
        omega
      obtain ⟨hflat, hne⟩ := ih hrest
      rw [glm4Pieces]
      refine ⟨?_, fun piece hpiece => ?_⟩
      · rw [List.flatten_cons, hflat, List.take_append_drop]
      · rcases List.mem_cons.mp hpiece with rfl | hpiece
        · apply List.ne_nil_of_length_pos
          rw [List.length_take]
          omega
        · exact hne piece hpiece

end Pieces

/-! ## The round trip -/

section RoundTrip

variable {vocab : Vocab}

theorem flatMap_pieces (hv : vocab.Complete) (pieces : List (List UInt8)) :
    (pieces.flatMap (bpeEmitPiece vocab)).flatMap (ds4TokenText vocab) = pieces.flatten ∧
      (pieces.flatMap (bpeEmitPiece vocab)).length ≤ pieces.flatten.length := by
  induction pieces with
  | nil => exact ⟨rfl, Nat.le_refl _⟩
  | cons piece pieces ih =>
    rw [List.flatMap_cons, List.flatMap_append, List.flatten_cons, bpeEmitPiece_text hv, ih.1, List.length_append,
      List.length_append]
    exact ⟨rfl, Nat.add_le_add (bpeEmitPiece_length hv piece) ih.2⟩

/-- The tokens of a text are the text, up to its first zero byte. -/
theorem ds4TokenizeText_text (hv : vocab.Complete) (text : List UInt8) :
    (ds4TokenizeText vocab text).flatMap (ds4TokenText vocab) = cString text := by
  have hpieces := (flatMap_pieces hv (glm4Pieces (cString text).length (cString text))).1
  rwa [(glm4Pieces_flatten (Nat.le_refl _)).1] at hpieces

/-- With a vocabulary that has every byte and every merge, the tokens of a text are the text, and no more than its
bytes. They are those of its pieces, and the symbols of a piece are merged until no neighbours have a rank. -/
theorem tokenize_round_trip (hv : vocab.Complete) (text : List UInt8) :
    (ds4TokenizeText vocab text).flatMap (ds4TokenText vocab) = cString text ∧
      (ds4TokenizeText vocab text).length ≤ (cString text).length ∧
      (glm4Pieces (cString text).length (cString text)).flatten = cString text ∧
      ∀ piece ∈ glm4Pieces (cString text).length (cString text), piece ≠ [] ∧
        ∃ sym, Words vocab piece sym ∧ Merged vocab sym ∧
          bpeEmitPiece vocab piece = sym.flatMap (emitSymbol vocab) := by
  obtain ⟨hflat, hne⟩ := glm4Pieces_flatten (Nat.le_refl (cString text).length)
  have hlength := (flatMap_pieces hv (glm4Pieces (cString text).length (cString text))).2
  rw [hflat] at hlength
  refine ⟨ds4TokenizeText_text hv text, hlength, hflat, fun piece hpiece => ⟨hne piece hpiece, ?_⟩⟩
  exact ⟨pieceSymbols vocab piece, pieceSymbols_words vocab piece, pieceSymbols_merged vocab piece, rfl⟩

/-- The bytes and one merge are a vocabulary. -/
theorem tokenize_round_trip_sample :
    (ds4TokenizeText ⟨[104, 105] :: (List.range 256).map fun b => byteSymbol (UInt8.ofNat b), [[104, 32, 105]]⟩
        [104, 105, 32, 33, 0, 7]).flatMap
      (ds4TokenText ⟨[104, 105] :: (List.range 256).map fun b => byteSymbol (UInt8.ofNat b), [[104, 32, 105]]⟩)
      = [104, 105, 32, 33] := by
  apply (tokenize_round_trip ⟨fun b => ?_, fun a b h => ?_⟩ [104, 105, 32, 33, 0, 7]).1
  · apply List.mem_cons_of_mem
    apply List.mem_map.mpr
    exact ⟨b.toNat, List.mem_range.mpr b.toNat_lt, by rw [UInt8.ofNat_toNat]⟩
  · -- the space of the merge is its only one
    have hsplit : a = [104] ∧ b = [105] := by
      rw [List.mem_singleton] at h
      rcases a with _ | ⟨x, _ | ⟨y, _ | ⟨z, a⟩⟩⟩ <;> simp_all
    rw [hsplit.1, hsplit.2]
    exact List.mem_cons_self

end RoundTrip

end Spark.Tokenizer
