import Spark.Server.Text

/-!
# SHA-1, as the disk cache computes it

* **`kvStoreSha1BytesHex`** — the digest of a text in lower-case hex.
* **`sha1Hex_digits`** — forty such digits, whatever the text is.
-/

namespace Spark.Kv

open Server

structure Sha1State where
  a : UInt32
  b : UInt32
  c : UInt32
  d : UInt32
  e : UInt32
  deriving DecidableEq, Repr

/-- `used` is the part of the block that is there. -/
structure Sha1Ctx where
  h : Sha1State
  bytes : UInt64
  used : List UInt8
  deriving DecidableEq, Repr

def rol32 (v n : UInt32) : UInt32 := (v <<< n) ||| (v >>> (32 - n))

def be32 (p : List UInt8) : UInt32 :=
  ((p.getD 0 0).toUInt32 <<< 24) ||| ((p.getD 1 0).toUInt32 <<< 16) ||| ((p.getD 2 0).toUInt32 <<< 8) |||
    (p.getD 3 0).toUInt32

/-- The words of a block, from the sixteen it has to as many as are wanted. -/
def schedule : Nat → List UInt32 → List UInt32
  | 0, w => w
  | n + 1, w =>
    let i := w.length
    schedule n (w ++ [rol32 (w.getD (i - 3) 0 ^^^ w.getD (i - 8) 0 ^^^ w.getD (i - 14) 0 ^^^ w.getD (i - 16) 0) 1])

def sha1Round (s : Sha1State) (word : UInt32 × Nat) : Sha1State :=
  let fk : UInt32 × UInt32 :=
    if word.2 < 20 then ((s.b &&& s.c) ||| ((~~~s.b) &&& s.d), 0x5a827999)
    else if word.2 < 40 then (s.b ^^^ s.c ^^^ s.d, 0x6ed9eba1)
    else if word.2 < 60 then ((s.b &&& s.c) ||| (s.b &&& s.d) ||| (s.c &&& s.d), 0x8f1bbcdc)
    else (s.b ^^^ s.c ^^^ s.d, 0xca62c1d6)
  let tmp := rol32 s.a 5 + fk.1 + s.e + fk.2 + word.1
  ⟨tmp, s.a, rol32 s.b 30, s.c, s.d⟩

def sha1Transform (h : Sha1State) (block : List UInt8) : Sha1State :=
  let w := schedule 64 ((List.range 16).map fun i => be32 (block.drop (i * 4)))
  let s := w.zipIdx.foldl sha1Round h
  ⟨h.a + s.a, h.b + s.b, h.c + s.c, h.d + s.d, h.e + s.e⟩

def sha1Init : Sha1Ctx := ⟨⟨0x67452301, 0xefcdab89, 0x98badcfe, 0x10325476, 0xc3d2e1f0⟩, 0, []⟩

/-- `sha1_update`, a byte at a time. -/
def sha1Update (c : Sha1Ctx) (p : List UInt8) : Sha1Ctx :=
  p.foldl (fun c byte =>
    let block := c.used ++ [byte]
    if block.length = 64 then ⟨sha1Transform c.h block, c.bytes + 1, []⟩ else ⟨c.h, c.bytes + 1, block⟩) c

def be32Bytes (v : UInt32) : List UInt8 :=
  [(v >>> 24).toUInt8, (v >>> 16).toUInt8, (v >>> 8).toUInt8, v.toUInt8]

def sha1Final (c : Sha1Ctx) : List UInt8 :=
  let bits := c.bytes * 8
  let c := sha1Update c [0x80]
  -- zeros up to the last eight bytes of a block
  let c := sha1Update c (List.replicate ((120 - c.used.length) % 64) 0)
  let c := sha1Update c ((List.range 8).map fun i => (bits >>> (UInt64.ofNat (8 * (7 - i)))).toUInt8)
  [c.h.a, c.h.b, c.h.c, c.h.d, c.h.e].flatMap be32Bytes

def hexDigit (n : UInt8) : UInt8 := if n < 10 then 0x30 + n else 0x57 + n

def hexByte (b : UInt8) : List UInt8 := [hexDigit (b >>> 4), hexDigit (b &&& 15)]

def hex20 (digest : List UInt8) : List UInt8 := digest.flatMap hexByte

def kvStoreSha1BytesHex (text : List UInt8) : List UInt8 := hex20 (sha1Final (sha1Update sha1Init text))

/-- A lower-case hex digit. -/
def IsHexDigit (b : UInt8) : Prop := 0x30 ≤ b ∧ b ≤ 0x39 ∨ 0x61 ≤ b ∧ b ≤ 0x66

instance (b : UInt8) : Decidable (IsHexDigit b) := inferInstanceAs (Decidable (_ ∨ _))

theorem hexDigit_digit {n : UInt8} (hn : n < 16) : IsHexDigit (hexDigit n) := by
  rw [UInt8.lt_iff_toNat_lt, show (16 : UInt8).toNat = 16 from rfl] at hn
  unfold hexDigit IsHexDigit
  simp only [UInt8.le_iff_toNat_le]
  split
  case isTrue hdigit =>
    left
    rw [UInt8.lt_iff_toNat_lt, show (10 : UInt8).toNat = 10 from rfl] at hdigit
    rw [UInt8.toNat_add, show (0x30 : UInt8).toNat = 48 from rfl, show (0x39 : UInt8).toNat = 57 from rfl]
    omega
  case isFalse hletter =>
    right
    rw [UInt8.lt_iff_toNat_lt, show (10 : UInt8).toNat = 10 from rfl] at hletter
    rw [UInt8.toNat_add, show (0x57 : UInt8).toNat = 87 from rfl, show (0x61 : UInt8).toNat = 97 from rfl,
      show (0x66 : UInt8).toNat = 102 from rfl]
    omega

theorem hexByte_digits (b : UInt8) : (hexByte b).length = 2 ∧ ∀ c ∈ hexByte b, IsHexDigit c := by
  have hhigh : b >>> 4 < 16 := by
    rw [UInt8.lt_iff_toNat_lt, UInt8.toNat_shiftRight]
    show b.toNat >>> 4 < 16
    rw [Nat.shiftRight_eq_div_pow]
    have hb := b.toNat_lt
    omega
  have hlow : b &&& 15 < 16 := by
    rw [UInt8.lt_iff_toNat_lt, UInt8.toNat_and]
    exact Nat.and_lt_two_pow _ (show 15 < 2 ^ 4 by decide)
  refine ⟨rfl, fun c hc => ?_⟩
  rcases List.mem_cons.mp hc with rfl | hc
  · exact hexDigit_digit hhigh
  · obtain rfl := List.mem_singleton.mp hc
    exact hexDigit_digit hlow

theorem length_flatMap_const {α β : Type} {f : α → List β} {n : Nat} (h : ∀ x, (f x).length = n) (xs : List α) :
    (xs.flatMap f).length = n * xs.length := by
  induction xs with
  | nil => rfl
  | cons x xs ih =>
    rw [List.flatMap_cons, List.length_append, h, ih, List.length_cons, Nat.mul_succ, Nat.add_comm]

/-- Forty hex digits, whatever the text is. -/
theorem sha1Hex_digits (text : List UInt8) :
    (kvStoreSha1BytesHex text).length = 40 ∧ ∀ b ∈ kvStoreSha1BytesHex text, IsHexDigit b := by
  constructor
  · rw [kvStoreSha1BytesHex, hex20, length_flatMap_const (fun b => (hexByte_digits b).1), sha1Final,
      length_flatMap_const (fun v => show (be32Bytes v).length = 4 from rfl)]
    rfl
  · intro b hb
    obtain ⟨c, -, hc⟩ := List.mem_flatMap.mp hb
    exact (hexByte_digits c).2 b hc

example : kvStoreSha1BytesHex (bytes "abc") = bytes "a9993e364706816aba3e25717850c26c9cd0d89d" := by decide +kernel

end Spark.Kv
