import Spark.Lib.LittleEndian

/-!
# Codecs of a fixed width

A value and its bytes determine each other where every value takes the same number of bytes. Such codecs
put together, and repeated, are the layout of a packed struct and of an array of them.
-/

namespace Spark

/-- A bijection between the values and the byte strings of one length. -/
structure FixedCodec (α : Type) where
  size : Nat
  enc : α → List UInt8
  dec : List UInt8 → α
  length_enc : ∀ a, (enc a).length = size
  dec_enc : ∀ a, dec (enc a) = a
  enc_dec : ∀ b, b.length = size → enc (dec b) = b

namespace FixedCodec

variable {α β : Type}

attribute [simp] length_enc dec_enc

/-- A 32-bit word, little end first. -/
def word32 : FixedCodec UInt32 where
  size := 4
  enc v := leBytes 4 v.toNat
  dec b := UInt32.ofNat (leNat b)
  length_enc v := length_leBytes 4 v.toNat
  dec_enc := leNat_word32
  enc_dec b hb := by
    have hlt : leNat b < 2 ^ 32 := by
      have hlt := leNat_lt b
      rw [hb] at hlt
      exact hlt
    rw [UInt32.toNat_ofNat_of_lt' hlt, ← hb, leBytes_leNat]

/-- A 64-bit word, little end first. -/
def word64 : FixedCodec UInt64 where
  size := 8
  enc v := leBytes 8 v.toNat
  dec b := UInt64.ofNat (leNat b)
  length_enc v := length_leBytes 8 v.toNat
  dec_enc := leNat_word64
  enc_dec b hb := by
    have hlt : leNat b < 2 ^ 64 := by
      have hlt := leNat_lt b
      rw [hb] at hlt
      exact hlt
    rw [UInt64.toNat_ofNat_of_lt' hlt, ← hb, leBytes_leNat]

/-- One value behind the other. -/
def pair (c : FixedCodec α) (d : FixedCodec β) : FixedCodec (α × β) where
  size := c.size + d.size
  enc v := c.enc v.1 ++ d.enc v.2
  dec b := (c.dec (b.take c.size), d.dec (b.drop c.size))
  length_enc v := by rw [List.length_append, c.length_enc, d.length_enc]
  dec_enc v := by
    have hlen : (c.enc v.1).length = c.size := c.length_enc v.1
    rw [← hlen, List.take_left, List.drop_left, c.dec_enc, d.dec_enc]
  enc_dec b hb := by
    have hfront : (b.take c.size).length = c.size := by
      rw [List.length_take]
      omega
    have hback : (b.drop c.size).length = d.size := by
      rw [List.length_drop]
      omega
    rw [c.enc_dec _ hfront, d.enc_dec _ hback, List.take_append_drop]

/-- The same bytes for another type of values. -/
def map (c : FixedCodec α) (f : α → β) (g : β → α) (hfg : ∀ b, f (g b) = b) (hgf : ∀ a, g (f a) = a) :
    FixedCodec β where
  size := c.size
  enc v := c.enc (g v)
  dec b := f (c.dec b)
  length_enc v := c.length_enc (g v)
  dec_enc v := by rw [c.dec_enc, hfg]
  enc_dec b hb := by rw [hgf, c.enc_dec b hb]

/-! ## Arrays -/

def encAll (c : FixedCodec α) (l : List α) : List UInt8 := l.flatMap c.enc

/-- The first `n` values of a byte string. -/
def decAll (c : FixedCodec α) : Nat → List UInt8 → List α
  | 0, _ => []
  | n + 1, b => c.dec (b.take c.size) :: c.decAll n (b.drop c.size)

variable (c : FixedCodec α)

@[simp] theorem length_encAll (l : List α) : (c.encAll l).length = l.length * c.size := by
  induction l with
  | nil => simp [encAll]
  | cons a l ih =>
    rw [encAll, List.flatMap_cons, List.length_append, c.length_enc, List.length_cons, Nat.succ_mul,
      Nat.add_comm]
    exact congrArg (· + c.size) ih

@[simp] theorem length_decAll (n : Nat) (b : List UInt8) : (c.decAll n b).length = n := by
  induction n generalizing b with
  | zero => rfl
  | succ n ih => rw [decAll, List.length_cons, ih]

theorem decAll_encAll (l : List α) : c.decAll l.length (c.encAll l) = l := by
  induction l with
  | nil => rfl
  | cons a l ih =>
    have hlen : (c.enc a).length = c.size := c.length_enc a
    rw [List.length_cons, decAll, encAll, List.flatMap_cons, ← hlen, List.take_left, List.drop_left, c.dec_enc]
    exact congrArg (a :: ·) ih

theorem encAll_decAll (n : Nat) (b : List UInt8) (hb : b.length = n * c.size) : c.encAll (c.decAll n b) = b := by
  induction n generalizing b with
  | zero =>
    rw [Nat.zero_mul] at hb
    rw [List.eq_nil_of_length_eq_zero hb]
    rfl
  | succ n ih =>
    rw [Nat.succ_mul] at hb
    have hfront : (b.take c.size).length = c.size := by
      rw [List.length_take]
      omega
    have hback : (b.drop c.size).length = n * c.size := by
      rw [List.length_drop]
      omega
    rw [decAll, encAll, List.flatMap_cons, c.enc_dec _ hfront]
    rw [show (c.decAll n (b.drop c.size)).flatMap c.enc = b.drop c.size from ih _ hback, List.take_append_drop]

/-- Reading `n` values reads no further. -/
theorem decAll_take (n : Nat) (b : List UInt8) : c.decAll n (b.take (n * c.size)) = c.decAll n b := by
  induction n generalizing b with
  | zero => rfl
  | succ n ih =>
    have hsize : c.size ≤ (n + 1) * c.size := Nat.le_mul_of_pos_left _ (Nat.succ_pos n)
    have hsub : (n + 1) * c.size - c.size = n * c.size := by
      rw [Nat.succ_mul, Nat.add_sub_cancel]
    rw [decAll, decAll, List.take_take, Nat.min_eq_left hsize, List.drop_take, hsub, ih]

/-- A value in front is read back. -/
theorem take_drop_enc (a : α) (rest : List UInt8) :
    c.dec ((c.enc a ++ rest).take c.size) = a ∧ (c.enc a ++ rest).drop c.size = rest := by
  have hlen : (c.enc a).length = c.size := c.length_enc a
  rw [← hlen, List.take_left, List.drop_left, c.dec_enc]
  exact ⟨rfl, rfl⟩

end FixedCodec

end Spark
