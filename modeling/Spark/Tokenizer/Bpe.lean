import Mathlib.Data.List.Basic
import Mathlib.Data.List.TakeDrop

/-!
# Byte-level BPE

The tokenizer of the engine (`engine.c`, `bpe_emit_piece`): a piece of text is written as printable characters, one a
byte, and neighbours are merged in the order of their ranks.

* **`Vocab`** — the tokens and the merges of the model file.
* **`byteEncode`**, **`ds4TokenText`** — bytes to characters, and a token back to bytes.
* **`mergeLoop_words`** — the symbols are the piece all the way.
* **`mergeLoop_done`** — and at the end no neighbours have a rank.
* **`bpeEmitPiece_text`** — the tokens of a piece are its text; **`bpeEmitPiece_made`**, each is a byte or a merge.
-/

namespace Spark.Tokenizer

/-! ## The vocabulary -/

/-- The tables of `ds4_vocab`. -/
structure Vocab where
  token : List (List UInt8)
  merges : List (List UInt8)

/-- `table_get`, where each string was put under its index: of equal strings the last one counts. -/
def tableGet (key : List UInt8) : List (List UInt8) → Nat → Option Nat
  | [], _ => none
  | k :: keys, i => (tableGet key keys (i + 1)).or (if k = key then some i else none)

section Table

variable {key : List UInt8} {keys : List (List UInt8)} {i j : Nat}

theorem tableGet_eq_some (h : tableGet key keys i = some j) : i ≤ j ∧ keys[j - i]? = some key := by
  induction keys generalizing i with
  | nil => cases h
  | cons k keys ih =>
    rw [tableGet] at h
    cases hrest : tableGet key keys (i + 1) with
    | some j' =>
      rw [hrest, Option.some_or] at h
      obtain ⟨hle, hget⟩ := ih (hrest.trans h)
      refine ⟨by omega, ?_⟩
      rw [show j - i = j - (i + 1) + 1 by omega, List.getElem?_cons_succ]
      exact hget
    | none =>
      rw [hrest, Option.none_or] at h
      split at h
      case isTrue hk =>
        cases h
        rw [Nat.sub_self, hk]
        exact ⟨Nat.le_refl _, rfl⟩
      case isFalse => cases h

theorem tableGet_of_mem (h : key ∈ keys) (i : Nat) : ∃ j, tableGet key keys i = some j := by
  induction keys generalizing i with
  | nil => exact absurd h List.not_mem_nil
  | cons k keys ih =>
    rw [tableGet]
    cases hrest : tableGet key keys (i + 1) with
    | some j => exact ⟨j, rfl⟩
    | none =>
      rcases List.mem_cons.mp h with rfl | hmem
      · exact ⟨i, by simp⟩
      · obtain ⟨j, hj⟩ := ih hmem (i + 1)
        rw [hrest] at hj
        cases hj

end Table

/-! ## Bytes and characters -/

/-- The bytes that stand for themselves. -/
def gpt2Printable (x : Nat) : Bool :=
  (decide (33 ≤ x) && decide (x ≤ 126)) || (decide (161 ≤ x) && decide (x ≤ 172)) || decide (174 ≤ x)

/-- The counter `n` of the loops below, at the byte `x`. -/
def gpt2Count : Nat → Nat
  | 0 => 0
  | x + 1 => if gpt2Printable x then gpt2Count x else gpt2Count x + 1

/-- `gpt2_byte_to_codepoint`. -/
def gpt2ByteToCodepoint (b : UInt8) : Nat :=
  if gpt2Printable b.toNat then b.toNat else 256 + gpt2Count b.toNat

/-- `gpt2_codepoint_to_byte`; none is -1. -/
def gpt2CodepointToByte (cp : Nat) : Option UInt8 :=
  if (33 ≤ cp ∧ cp ≤ 126) ∨ (161 ≤ cp ∧ cp ≤ 172) ∨ (174 ≤ cp ∧ cp ≤ 255) then some (UInt8.ofNat cp)
  else ((List.range 256).find? fun b => !gpt2Printable b && decide (cp = 256 + gpt2Count b)).map UInt8.ofNat

/-- `utf8_put`. -/
def utf8Put (cp : Nat) : List UInt8 :=
  if cp ≤ 0x7f then [UInt8.ofNat cp]
  else if cp ≤ 0x7ff then [UInt8.ofNat (0xc0 ||| (cp >>> 6)), UInt8.ofNat (0x80 ||| (cp &&& 0x3f))]
  else if cp ≤ 0xffff then
    [UInt8.ofNat (0xe0 ||| (cp >>> 12)), UInt8.ofNat (0x80 ||| ((cp >>> 6) &&& 0x3f)),
      UInt8.ofNat (0x80 ||| (cp &&& 0x3f))]
  else
    [UInt8.ofNat (0xf0 ||| (cp >>> 18)), UInt8.ofNat (0x80 ||| ((cp >>> 12) &&& 0x3f)),
      UInt8.ofNat (0x80 ||| ((cp >>> 6) &&& 0x3f)), UInt8.ofNat (0x80 ||| (cp &&& 0x3f))]

def byteSymbol (b : UInt8) : List UInt8 := utf8Put (gpt2ByteToCodepoint b)

/-- `byte_encode`. -/
def byteEncode (s : List UInt8) : List UInt8 := s.flatMap byteSymbol

/-- `utf8_len_from_first_byte`. -/
def utf8LenFromFirstByte (c : UInt8) : Nat :=
  if c < 0x80 then 1
  else if c &&& 0xe0 = 0xc0 then 2
  else if c &&& 0xf0 = 0xe0 then 3
  else if c &&& 0xf8 = 0xf0 then 4
  else 1

/-- `utf8_decode_one`: the character, and the text behind it. -/
def utf8DecodeOne : List UInt8 → Nat × List UInt8
  | [] => (0, [])
  | c :: s =>
    if c < 0x80 ∨ s = [] then (c.toNat, s)
    else if c &&& 0xe0 = 0xc0 ∧ 1 ≤ s.length then
      (((c &&& 0x1f).toNat <<< 6) ||| (s.getD 0 0 &&& 0x3f).toNat, s.drop 1)
    else if c &&& 0xf0 = 0xe0 ∧ 2 ≤ s.length then
      (((c &&& 0x0f).toNat <<< 12) ||| ((s.getD 0 0 &&& 0x3f).toNat <<< 6) ||| (s.getD 1 0 &&& 0x3f).toNat, s.drop 2)
    else if c &&& 0xf8 = 0xf0 ∧ 3 ≤ s.length then
      (((c &&& 0x07).toNat <<< 18) ||| ((s.getD 0 0 &&& 0x3f).toNat <<< 12) |||
        ((s.getD 1 0 &&& 0x3f).toNat <<< 6) ||| (s.getD 2 0 &&& 0x3f).toNat, s.drop 3)
    else (c.toNat, s)

/-- `vocab_token_is_literal_special`: a fullwidth vertical bar. -/
def vocabTokenIsLiteralSpecial : List UInt8 → Bool
  | [] => false
  | c :: s => [0xef, 0xbd, 0x9c].isPrefixOf (c :: s) || vocabTokenIsLiteralSpecial s

/-- The loop of `ds4_token_text`. -/
def decodeSymbols : Nat → List UInt8 → List UInt8
  | 0, _ => []
  | _, [] => []
  | fuel + 1, c :: s =>
    (gpt2CodepointToByte (utf8DecodeOne (c :: s)).1).toList ++ decodeSymbols fuel (utf8DecodeOne (c :: s)).2

/-- `ds4_token_text`. -/
def ds4TokenText (vocab : Vocab) (token : Nat) : List UInt8 :=
  match vocab.token[token]? with
  | none => []
  | some s => if vocabTokenIsLiteralSpecial s then s else decodeSymbols s.length s

section Bytes

variable {b c : UInt8} {s w : List UInt8} {fuel : Nat}

theorem gpt2Count_le (x : Nat) : gpt2Count x ≤ x := by
  induction x with
  | zero => exact Nat.le_refl _
  | succ x ih =>
    rw [gpt2Count]
    split <;> omega

theorem gpt2Count_mono {x y : Nat} (h : x ≤ y) : gpt2Count x ≤ gpt2Count y := by
  induction h with
  | refl => exact Nat.le_refl _
  | step _ ih =>
    rw [gpt2Count]
    split <;> omega

/-- The bytes that do not stand for themselves are counted one by one. -/
theorem gpt2Count_lt {x y : Nat} (hx : gpt2Printable x = false) (h : x < y) : gpt2Count x < gpt2Count y := by
  have hmono := gpt2Count_mono h
  rw [Nat.succ_eq_add_one, gpt2Count, hx] at hmono
  exact hmono

theorem gpt2CodepointToByte_byte (b : UInt8) : gpt2CodepointToByte (gpt2ByteToCodepoint b) = some b := by
  have hb := b.toNat_lt
  unfold gpt2CodepointToByte gpt2ByteToCodepoint
  cases hprint : gpt2Printable b.toNat with
  | true =>
    rw [if_pos rfl, if_pos]
    · rw [UInt8.ofNat_toNat]
    · unfold gpt2Printable at hprint
      simp only [Bool.or_eq_true, Bool.and_eq_true, decide_eq_true_eq] at hprint
      omega
  | false =>
    rw [if_neg Bool.false_ne_true, if_neg (by omega)]
    have hsome : ((List.range 256).find? fun x =>
        !gpt2Printable x && decide (256 + gpt2Count b.toNat = 256 + gpt2Count x)).isSome := by
      rw [List.find?_isSome]
      exact ⟨b.toNat, List.mem_range.mpr hb, by simp [hprint]⟩
    obtain ⟨x, hx⟩ := Option.isSome_iff_exists.mp hsome
    have hfound := List.find?_some hx
    simp only [Bool.and_eq_true, Bool.not_eq_true', decide_eq_true_eq] at hfound
    -- the count tells two of these bytes apart
    have heq : x = b.toNat := by
      rcases Nat.lt_trichotomy x b.toNat with hlt | heq | hlt
      · have hless := gpt2Count_lt hfound.1 hlt
        omega
      · exact heq
      · have hless := gpt2Count_lt hprint hlt
        omega
    rw [hx, heq]
    show some (UInt8.ofNat b.toNat) = some b
    rw [UInt8.ofNat_toNat]

/-- A byte as a character of one or two bytes. -/
inductive Symbol (b : UInt8) : List UInt8 → Prop where
  | one {x : UInt8} (hx : x < 0x80) (hcp : x.toNat = gpt2ByteToCodepoint b) : Symbol b [x]
  | two {x y : UInt8} (hx : ¬ x < 0x80) (hlead : x &&& 0xe0 = 0xc0) (hy : y < 0xc0)
      (hcp : ((x &&& 0x1f).toNat <<< 6) ||| (y &&& 0x3f).toNat = gpt2ByteToCodepoint b) : Symbol b [x, y]

theorem utf8Put_two : ∀ cp : Fin 512, 0x7f < cp.val →
    ¬ UInt8.ofNat (0xc0 ||| (cp.val >>> 6)) < 0x80 ∧ UInt8.ofNat (0xc0 ||| (cp.val >>> 6)) &&& 0xe0 = 0xc0 ∧
      UInt8.ofNat (0x80 ||| (cp.val &&& 0x3f)) < 0xc0 ∧
      ((UInt8.ofNat (0xc0 ||| (cp.val >>> 6)) &&& 0x1f).toNat <<< 6) |||
        (UInt8.ofNat (0x80 ||| (cp.val &&& 0x3f)) &&& 0x3f).toNat = cp.val := by
  decide +kernel

theorem byteSymbol_symbol (b : UInt8) : Symbol b (byteSymbol b) := by
  have hb := b.toNat_lt
  have hcp : gpt2ByteToCodepoint b < 512 := by
    have hle := gpt2Count_le b.toNat
    unfold gpt2ByteToCodepoint
    split <;> omega
  unfold byteSymbol utf8Put
  by_cases hone : gpt2ByteToCodepoint b ≤ 0x7f
  · rw [if_pos hone]
    have hnat : (UInt8.ofNat (gpt2ByteToCodepoint b)).toNat = gpt2ByteToCodepoint b := by
      rw [UInt8.toNat_ofNat']
      omega
    refine .one ?_ hnat
    rw [UInt8.lt_iff_toNat_lt, hnat]
    exact Nat.lt_succ_of_le hone
  · rw [if_neg hone, if_pos (by omega)]
    obtain ⟨hx, hlead, hy, hvalue⟩ := utf8Put_two ⟨_, hcp⟩ (Nat.lt_of_not_le hone)
    exact .two hx hlead hy hvalue

/-- The character of a byte is read as one character. -/
theorem utf8DecodeOne_symbol (b : UInt8) (s : List UInt8) :
    utf8DecodeOne (byteSymbol b ++ s) = (gpt2ByteToCodepoint b, s) := by
  have hsymbol := byteSymbol_symbol b
  generalize byteSymbol b = sym at hsymbol
  cases hsymbol with
  | @one x hx hcp =>
    show utf8DecodeOne (x :: s) = _
    rw [utf8DecodeOne, if_pos (.inl hx), hcp]
  | @two x y hx hlead hy hcp =>
    show utf8DecodeOne (x :: y :: s) = _
    have hmore : ¬ (x < 0x80 ∨ y :: s = []) := by simp [hx]
    have hlong : x &&& 0xe0 = 0xc0 ∧ 1 ≤ (y :: s).length := ⟨hlead, by simp⟩
    rw [utf8DecodeOne, if_neg hmore, if_pos hlong, ← hcp]
    rfl

theorem byteEncode_cons (b : UInt8) (w : List UInt8) : byteEncode (b :: w) = byteSymbol b ++ byteEncode w := rfl

theorem byteEncode_append (s w : List UInt8) : byteEncode (s ++ w) = byteEncode s ++ byteEncode w :=
  List.flatMap_append

theorem byteSymbol_ne_nil (b : UInt8) : byteSymbol b ≠ [] := by
  have hsymbol := byteSymbol_symbol b
  intro hnil
  rw [hnil] at hsymbol
  cases hsymbol

/-- What is encoded is decoded. -/
theorem decodeSymbols_byteEncode (hfuel : (byteEncode w).length ≤ fuel) : decodeSymbols fuel (byteEncode w) = w := by
  induction w generalizing fuel with
  | nil => cases fuel <;> rfl
  | cons b w ih =>
    rw [byteEncode_cons] at hfuel ⊢
    have hread := utf8DecodeOne_symbol b (byteEncode w)
    have hpos := List.length_pos_of_ne_nil (byteSymbol_ne_nil b)
    rw [List.length_append] at hfuel
    cases fuel with
    | zero => omega
    | succ fuel =>
      cases hsym : byteSymbol b with
      | nil => exact absurd hsym (byteSymbol_ne_nil b)
      | cons x sym =>
        rw [hsym] at hread hpos hfuel
        show (gpt2CodepointToByte (utf8DecodeOne (x :: sym ++ byteEncode w)).1).toList
          ++ decodeSymbols fuel (utf8DecodeOne (x :: sym ++ byteEncode w)).2 = b :: w
        rw [hread, gpt2CodepointToByte_byte, ih (by omega)]
        rfl

/-- No encoded text has a fullwidth bar. -/
theorem not_literal_byteEncode (w : List UInt8) : vocabTokenIsLiteralSpecial (byteEncode w) = false := by
  have hbar : ∀ c ∈ byteEncode w, c ≠ 0xef := by
    intro c hc
    obtain ⟨b, -, hmem⟩ := List.mem_flatMap.mp hc
    have hsymbol := byteSymbol_symbol b
    generalize byteSymbol b = sym at hsymbol hmem
    cases hsymbol with
    | @one x hx hcp =>
      rw [List.mem_singleton.mp hmem]
      rintro rfl
      exact absurd hx (by decide)
    | @two x y hx hlead hy hcp =>
      rcases List.mem_cons.mp hmem with rfl | hmem
      · rintro rfl
        exact absurd hlead (by decide)
      · rw [List.mem_singleton.mp hmem]
        rintro rfl
        exact absurd hy (by decide)
  generalize byteEncode w = s at hbar
  induction s with
  | nil => rfl
  | cons c s ih =>
    have hc : ¬ (0xef : UInt8) = c := fun h => hbar c List.mem_cons_self h.symm
    rw [vocabTokenIsLiteralSpecial, ih fun d hd => hbar d (List.mem_cons_of_mem _ hd)]
    simp [List.isPrefixOf, hc]

theorem ds4TokenText_encoded {vocab : Vocab} {token : Nat} (h : vocab.token[token]? = some (byteEncode w)) :
    ds4TokenText vocab token = w := by
  unfold ds4TokenText
  rw [h]
  dsimp only
  rw [not_literal_byteEncode, if_neg Bool.false_ne_true]
  exact decodeSymbols_byteEncode (Nat.le_refl _)

end Bytes

/-! ## Merging -/

/-- `bpe_rank`: the `int` index of a merge, or -1. -/
def bpeRank (vocab : Vocab) (a b : List UInt8) : Int :=
  match tableGet (a ++ 0x20 :: b) vocab.merges 0 with
  | none => -1
  | some i => Int.bmod (Int.ofNat i) 4294967296

def int32Max : Int := 2147483647

/-- The symbols of an encoded piece. -/
def splitSymbols : Nat → List UInt8 → List (List UInt8)
  | 0, _ => []
  | _, [] => []
  | fuel + 1, c :: s =>
    let n := utf8LenFromFirstByte c
    let n := if n > (c :: s).length then 1 else n
    (c :: s).take n :: splitSymbols fuel ((c :: s).drop n)

/-- The loop that looks for the neighbours of the lowest rank: `best_i` and `best_rank`. -/
def bestPair (vocab : Vocab) : List (List UInt8) → Nat → Option Nat × Int → Option Nat × Int
  | a :: b :: sym, i, best =>
    let rank := bpeRank vocab a b
    bestPair vocab (b :: sym) (i + 1) (if 0 ≤ rank ∧ rank < best.2 then (some i, rank) else best)
  | _, _, best => best

def mergeAt (i : Nat) (sym : List (List UInt8)) : List (List UInt8) :=
  sym.take i ++ (sym.getD i [] ++ sym.getD (i + 1) []) :: sym.drop (i + 2)

/-- The merges of `bpe_emit_piece`; each takes a symbol away. -/
def mergeLoop (vocab : Vocab) : Nat → List (List UInt8) → List (List UInt8)
  | 0, sym => sym
  | fuel + 1, sym =>
    match (bestPair vocab sym 0 (none, int32Max)).1 with
    | none => sym
    | some i => mergeLoop vocab fuel (mergeAt i sym)

/-- The tokens of a symbol; those of its bytes, as far as there are any, if it is none itself. -/
def emitSymbol (vocab : Vocab) (s : List UInt8) : List Nat :=
  match tableGet s vocab.token 0 with
  | some token => [token]
  | none => s.flatMap fun c => (tableGet [c] vocab.token 0).toList

/-- `bpe_emit_piece`. -/
def bpeEmitPiece (vocab : Vocab) (piece : List UInt8) : List Nat :=
  let sym := splitSymbols (byteEncode piece).length (byteEncode piece)
  (mergeLoop vocab sym.length sym).flatMap (emitSymbol vocab)

section Merges

variable {vocab : Vocab} {sym : List (List UInt8)} {piece : List UInt8} {fuel i j : Nat} {best : Option Nat × Int}

/-- The pair that is found has a merge. -/
theorem bestPair_eq_some (h : (bestPair vocab sym i best).1 = some j) :
    best.1 = some j ∨ ∃ left a b right, sym = left ++ a :: b :: right ∧ j = i + left.length ∧
      a ++ 0x20 :: b ∈ vocab.merges := by
  induction sym generalizing i best with
  | nil => exact .inl h
  | cons a sym ih =>
    cases sym with
    | nil => exact .inl h
    | cons b sym =>
      rw [bestPair] at h
      rcases ih h with hbest | ⟨left, a', b', right, hsym, hj, hmerge⟩
      · split at hbest
        case isTrue hrank =>
          cases hbest
          refine .inr ⟨[], a, b, sym, rfl, rfl, ?_⟩
          unfold bpeRank at hrank
          cases hget : tableGet (a ++ 0x20 :: b) vocab.merges 0 with
          | none =>
            rw [hget] at hrank
            exact absurd hrank.1 (by decide)
          | some n => exact List.mem_of_getElem? (tableGet_eq_some hget).2
        case isFalse => exact .inl hbest
      · refine .inr ⟨a :: left, a', b', right, ?_, ?_, hmerge⟩
        · rw [hsym]
          rfl
        · rw [hj, List.length_cons]
          omega

/-- Nothing is found only where no neighbours have a rank below the best one. -/
theorem bestPair_eq_none (h : (bestPair vocab sym i best).1 = none) :
    best.1 = none ∧ ∀ left a b right, sym = left ++ a :: b :: right →
      ¬ (0 ≤ bpeRank vocab a b ∧ bpeRank vocab a b < best.2) := by
  induction sym generalizing i best with
  | nil => exact ⟨h, fun left a b right hsym => absurd hsym (by simp)⟩
  | cons a sym ih =>
    cases sym with
    | nil =>
      refine ⟨h, fun left a' b' right hsym => ?_⟩
      have hlen := congrArg List.length hsym
      simp only [List.length_append, List.length_cons, List.length_nil] at hlen
      omega
    | cons b sym =>
      rw [bestPair] at h
      obtain ⟨hbest, hnone⟩ := ih h
      split at hbest
      case isTrue => cases hbest
      case isFalse hrank =>
        rw [if_neg hrank] at hnone
        refine ⟨hbest, fun left a' b' right hsym => ?_⟩
        cases left with
        | nil =>
          cases hsym
          exact hrank
        | cons a'' left =>
          rw [List.cons_append] at hsym
          exact hnone left a' b' right (List.cons.inj hsym).2

theorem mergeAt_split (left right : List (List UInt8)) (a b : List UInt8) :
    mergeAt left.length (left ++ a :: b :: right) = left ++ (a ++ b) :: right := by
  have ha : (left ++ a :: b :: right).getD left.length [] = a := by simp
  have hb : (left ++ a :: b :: right).getD (left.length + 1) [] = b := by simp
  have hdrop : (left ++ a :: b :: right).drop (left.length + 2) = right := by simp
  rw [mergeAt, ha, hb, hdrop, List.take_left]

/-- Every byte is a token, and so is every merge. -/
structure Vocab.Complete (vocab : Vocab) : Prop where
  bytes : ∀ b, byteSymbol b ∈ vocab.token
  merged : ∀ a b, a ++ 0x20 :: b ∈ vocab.merges → a ++ b ∈ vocab.token

/-- A symbol that the loop can come to: a byte, or a merge. -/
def Vocab.Made (vocab : Vocab) (s : List UInt8) : Prop :=
  (∃ b, s = byteSymbol b) ∨ ∃ a b, a ++ 0x20 :: b ∈ vocab.merges ∧ s = a ++ b

theorem Vocab.Complete.mem {s : List UInt8} (hv : vocab.Complete) (h : vocab.Made s) : s ∈ vocab.token := by
  rcases h with ⟨b, rfl⟩ | ⟨a, b, hmerge, rfl⟩
  · exact hv.bytes b
  · exact hv.merged a b hmerge

/-- The symbols of a piece: encoded words, each of them a byte or a merge. -/
def Words (vocab : Vocab) (piece : List UInt8) (sym : List (List UInt8)) : Prop :=
  ∃ words : List (List UInt8), sym = words.map byteEncode ∧ words.flatten = piece ∧ ∀ s ∈ sym, vocab.Made s

theorem mergeAt_words (h : Words vocab piece sym)
    (hi : (bestPair vocab sym 0 (none, int32Max)).1 = some i) :
    Words vocab piece (mergeAt i sym) ∧ (mergeAt i sym).length + 1 = sym.length := by
  obtain ⟨words, hsym, hflat, hmade⟩ := h
  rcases bestPair_eq_some hi with hnone | ⟨left, a, b, right, hsplit, hj, hmerge⟩
  · cases hnone
  · rw [Nat.zero_add] at hj
    subst hj
    rw [hsplit, mergeAt_split]
    have hwords := hsplit.symm.trans hsym
    obtain ⟨wleft, rest, rfl, hleft, hrest⟩ := List.map_eq_append_iff.mp hwords.symm
    obtain ⟨wa, rest', rfl, ha, hrest'⟩ := List.map_eq_cons_iff.mp hrest
    obtain ⟨wb, wright, rfl, hb, hright⟩ := List.map_eq_cons_iff.mp hrest'
    refine ⟨⟨wleft ++ (wa ++ wb) :: wright, ?_, ?_, fun s hs => ?_⟩, ?_⟩
    · rw [List.map_append, List.map_cons, byteEncode_append, hleft, ha, hb, hright]
    · rw [← hflat]
      simp
    · rw [hsplit] at hmade
      rcases List.mem_append.mp hs with hl | hr
      · exact hmade s (List.mem_append_left _ hl)
      · rcases List.mem_cons.mp hr with rfl | hr
        · exact .inr ⟨a, b, hmerge, rfl⟩
        · exact hmade s (List.mem_append_right _ (List.mem_cons_of_mem _ (List.mem_cons_of_mem _ hr)))
    · rw [List.length_append, List.length_append, List.length_cons, List.length_cons, List.length_cons]
      omega

/-- The symbols are the piece all the way. -/
theorem mergeLoop_words (h : Words vocab piece sym) :
    Words vocab piece (mergeLoop vocab fuel sym) := by
  induction fuel generalizing sym with
  | zero => exact h
  | succ fuel ih =>
    rw [mergeLoop]
    split
    case h_1 => exact h
    case h_2 i hi => exact ih (mergeAt_words h hi).1

/-- No neighbours have a rank that counts. -/
def Merged (vocab : Vocab) (sym : List (List UInt8)) : Prop :=
  ∀ left a b right, sym = left ++ a :: b :: right → ¬ (0 ≤ bpeRank vocab a b ∧ bpeRank vocab a b < int32Max)

/-- The merges end by themselves, where no neighbours have a rank. -/
theorem mergeLoop_done (h : Words vocab piece sym) (hfuel : sym.length ≤ fuel) :
    Merged vocab (mergeLoop vocab fuel sym) := by
  induction fuel generalizing sym with
  | zero =>
    have hnil : sym = [] := List.length_eq_zero_iff.mp (Nat.le_zero.mp hfuel)
    subst hnil
    intro left a b right hsym
    exact absurd hsym (by simp [mergeLoop])
  | succ fuel ih =>
    rw [mergeLoop]
    split
    case h_1 hnone => exact (bestPair_eq_none hnone).2
    case h_2 i hi =>
      obtain ⟨hwords, hlen⟩ := mergeAt_words h hi
      exact ih hwords (by omega)

theorem splitSymbols_byteEncode (hfuel : (byteEncode piece).length ≤ fuel) :
    splitSymbols fuel (byteEncode piece) = piece.map byteSymbol := by
  induction piece generalizing fuel with
  | nil => cases fuel <;> rfl
  | cons b piece ih =>
    rw [byteEncode_cons] at hfuel ⊢
    have hsymbol := byteSymbol_symbol b
    rw [List.length_append] at hfuel
    rw [List.map_cons]
    generalize byteSymbol b = s at hsymbol hfuel
    cases hsymbol with
    | @one x hx hcp =>
      rw [List.length_singleton] at hfuel
      cases fuel with
      | zero => omega
      | succ fuel =>
        have hlen : utf8LenFromFirstByte x = 1 := if_pos hx
        have hroom : ¬ 1 > (x :: byteEncode piece).length := by simp
        show splitSymbols (fuel + 1) (x :: byteEncode piece) = _
        rw [splitSymbols, hlen, if_neg hroom]
        rw [List.take_succ_cons, List.take_zero, List.drop_succ_cons, List.drop_zero, ih (by omega)]
    | @two x y hx hlead hy hcp =>
      rw [List.length_cons, List.length_singleton] at hfuel
      cases fuel with
      | zero => omega
      | succ fuel =>
        have hlen : utf8LenFromFirstByte x = 2 := by rw [utf8LenFromFirstByte, if_neg hx, if_pos hlead]
        have hroom : ¬ 2 > (x :: y :: byteEncode piece).length := by simp
        show splitSymbols (fuel + 1) (x :: y :: byteEncode piece) = _
        rw [splitSymbols, hlen, if_neg hroom]
        rw [List.take_succ_cons, List.take_succ_cons, List.take_zero, List.drop_succ_cons, List.drop_succ_cons,
          List.drop_zero, ih (by omega)]

theorem splitSymbols_words (vocab : Vocab) (piece : List UInt8) :
    Words vocab piece (splitSymbols (byteEncode piece).length (byteEncode piece)) := by
  rw [splitSymbols_byteEncode (Nat.le_refl _)]
  refine ⟨piece.map fun b => [b], ?_, ?_, fun s hs => ?_⟩
  · rw [List.map_map]
    apply List.map_congr_left
    intro b _
    exact (List.append_nil _).symm
  · induction piece with
    | nil => rfl
    | cons b piece ih => rw [List.map_cons, List.flatten_cons, ih, List.singleton_append]
  · obtain ⟨b, -, rfl⟩ := List.mem_map.mp hs
    exact .inl ⟨b, rfl⟩

theorem mergeLoop_length (h : Words vocab piece sym) :
    (mergeLoop vocab fuel sym).length ≤ sym.length := by
  induction fuel generalizing sym with
  | zero => exact Nat.le_refl _
  | succ fuel ih =>
    rw [mergeLoop]
    split
    case h_1 => exact Nat.le_refl _
    case h_2 i hi =>
      obtain ⟨hwords, hlen⟩ := mergeAt_words h hi
      have hle := ih hwords
      omega

theorem emitSymbol_text {s : List UInt8} (hs : byteEncode s ∈ vocab.token) :
    (emitSymbol vocab (byteEncode s)).flatMap (ds4TokenText vocab) = s := by
  obtain ⟨token, htoken⟩ := tableGet_of_mem hs 0
  have hget := (tableGet_eq_some htoken).2
  rw [Nat.sub_zero] at hget
  unfold emitSymbol
  rw [htoken]
  show ds4TokenText vocab token ++ [] = s
  rw [List.append_nil, ds4TokenText_encoded hget]

/-- The symbols that the loop of a piece ends with. -/
def pieceSymbols (vocab : Vocab) (piece : List UInt8) : List (List UInt8) :=
  mergeLoop vocab (splitSymbols (byteEncode piece).length (byteEncode piece)).length
    (splitSymbols (byteEncode piece).length (byteEncode piece))

theorem pieceSymbols_words (vocab : Vocab) (piece : List UInt8) : Words vocab piece (pieceSymbols vocab piece) :=
  mergeLoop_words (splitSymbols_words vocab piece)

theorem pieceSymbols_merged (vocab : Vocab) (piece : List UInt8) : Merged vocab (pieceSymbols vocab piece) :=
  mergeLoop_done (splitSymbols_words vocab piece) (Nat.le_refl _)

/-- The tokens of a piece are its text. -/
theorem bpeEmitPiece_text (hv : vocab.Complete) (piece : List UInt8) :
    (bpeEmitPiece vocab piece).flatMap (ds4TokenText vocab) = piece := by
  show ((pieceSymbols vocab piece).flatMap (emitSymbol vocab)).flatMap (ds4TokenText vocab) = piece
  obtain ⟨words, hsym, hflat, hmade⟩ := pieceSymbols_words vocab piece
  rw [hsym] at hmade ⊢
  rw [← hflat]
  clear hsym hflat
  induction words with
  | nil => rfl
  | cons w words ih =>
    rw [List.map_cons, List.flatMap_cons, List.flatMap_append, List.flatten_cons,
      emitSymbol_text (hv.mem (hmade _ List.mem_cons_self)), ih fun s hs => hmade s (List.mem_cons_of_mem _ hs)]

/-- A symbol has one token, which is its own. -/
theorem emitSymbol_one {s : List UInt8} (hs : s ∈ vocab.token) :
    ∃ token, emitSymbol vocab s = [token] ∧ vocab.token[token]? = some s := by
  obtain ⟨token, hget⟩ := tableGet_of_mem hs 0
  refine ⟨token, ?_, (tableGet_eq_some hget).2⟩
  unfold emitSymbol
  rw [hget]

/-- A piece has no more tokens than bytes. -/
theorem bpeEmitPiece_length (hv : vocab.Complete) (piece : List UInt8) :
    (bpeEmitPiece vocab piece).length ≤ piece.length := by
  have hlen : (pieceSymbols vocab piece).length ≤ piece.length := by
    apply Nat.le_trans (mergeLoop_length (splitSymbols_words vocab piece))
    exact Nat.le_of_eq (by rw [splitSymbols_byteEncode (Nat.le_refl _), List.length_map])
  apply Nat.le_trans _ hlen
  show ((pieceSymbols vocab piece).flatMap (emitSymbol vocab)).length ≤ _
  obtain ⟨words, -, -, hmade⟩ := pieceSymbols_words vocab piece
  generalize pieceSymbols vocab piece = sym at hmade
  induction sym with
  | nil => exact Nat.le_refl _
  | cons s sym ih =>
    obtain ⟨token, hone, -⟩ := emitSymbol_one (hv.mem (hmade s List.mem_cons_self))
    rw [List.flatMap_cons, List.length_append, hone, List.length_singleton, List.length_cons]
    have hle := ih fun s' hs' => hmade s' (List.mem_cons_of_mem _ hs')
    omega

/-- The token of a piece is a byte, or a merge. -/
theorem bpeEmitPiece_made (hv : vocab.Complete) {token : Nat} (h : token ∈ bpeEmitPiece vocab piece) :
    ∃ s, vocab.Made s ∧ vocab.token[token]? = some s := by
  obtain ⟨words, -, -, hmade⟩ := pieceSymbols_words vocab piece
  obtain ⟨s, hs, htoken⟩ := List.mem_flatMap.mp h
  obtain ⟨token', hone, hget⟩ := emitSymbol_one (hv.mem (hmade s hs))
  rw [hone] at htoken
  rw [List.mem_singleton.mp htoken]
  exact ⟨s, hmade s hs, hget⟩

end Merges

end Spark.Tokenizer
