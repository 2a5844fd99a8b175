import Mathlib.Algebra.CharP.Two
import Mathlib.Algebra.Field.ZMod
import Mathlib.RingTheory.AdjoinRoot

/-!
# Cyclic redundancy checks

A list of bits, first bit first, is a polynomial over GF(2), and a checksum register is the remainder of what
was read by a generator. The register is shifted bit by bit, or a byte at a time from a table; all that counts
is what one round does modulo the generator.

* **`residue_step`** — shifting a register by one bit multiplies it by `X`.
* **`Reads.run`** — from what one byte does to the register, what a byte string does.
* **`Reads.remainder`** — the register after a byte string is a remainder.
* **`Reads.burst`** — byte strings that differ within the width of the register have different registers.
-/

namespace Spark.Crc

open Polynomial

noncomputable section

/-! ## Bits as polynomials -/

def bit (b : Bool) : (ZMod 2)[X] := if b then 1 else 0

/-- The first bit has the highest degree. -/
def message : List Bool → (ZMod 2)[X]
  | [] => 0
  | b :: bits => bit b * X ^ bits.length + message bits

theorem bit_xor (a b : Bool) : bit (xor a b) = bit a + bit b := by
  cases a <;> cases b <;> simp [bit, CharTwo.add_self_eq_zero]

theorem message_append (front back : List Bool) :
    message (front ++ back) = X ^ back.length * message front + message back := by
  induction front with
  | nil => simp [message]
  | cons b front ih =>
    rw [List.cons_append, message, ih, message, List.length_append]
    ring

theorem message_xor {a b : List Bool} (h : a.length = b.length) :
    message (List.zipWith xor a b) = message a + message b := by
  induction a generalizing b with
  | nil =>
    obtain rfl := List.length_eq_zero_iff.mp h.symm
    simp [message]
  | cons x a ih =>
    cases b with
    | nil => cases h
    | cons y b =>
      have hrest : a.length = b.length := Nat.succ.inj h
      have hlength : (List.zipWith xor a b).length = b.length := by rw [List.length_zipWith, hrest, Nat.min_self]
      rw [List.zipWith_cons_cons, message, message, message, bit_xor, ih hrest, hlength, hrest]
      ring

theorem message_false (n : Nat) : message (List.replicate n false) = 0 := by
  induction n with
  | zero => rfl
  | succ n ih =>
    rw [List.replicate_succ, message, ih, bit]
    simp

theorem degree_message_lt (bits : List Bool) : (message bits).degree < bits.length := by
  induction bits with
  | nil =>
    rw [message, degree_zero]
    exact WithBot.bot_lt_coe 0
  | cons b bits ih =>
    have hfirst : (bit b * X ^ bits.length).degree ≤ ((bits.length : ℕ) : WithBot ℕ) := by
      cases b
      · simp [bit]
      · simp [bit]
    have hnext : ((bits.length : ℕ) : WithBot ℕ) < ((b :: bits).length : ℕ) :=
      WithBot.coe_lt_coe.mpr (Nat.lt_succ_self _)
    exact (degree_add_le _ _).trans_lt (max_lt (hfirst.trans_lt hnext) (ih.trans hnext))

theorem coeff_message_cons (b : Bool) (bits : List Bool) :
    (message (b :: bits)).coeff bits.length = if b then 1 else 0 := by
  rw [message, coeff_add, coeff_eq_zero_of_degree_lt (degree_message_lt bits), add_zero]
  cases b
  · simp [bit]
  · simp [bit]

theorem message_injective {a b : List Bool} (hlength : a.length = b.length) (h : message a = message b) : a = b := by
  induction a generalizing b with
  | nil => exact (List.length_eq_zero_iff.mp hlength.symm).symm
  | cons x a ih =>
    cases b with
    | nil => cases hlength
    | cons y b =>
      have hrest : a.length = b.length := Nat.succ.inj hlength
      have hfirst := coeff_message_cons x a
      rw [h, hrest, coeff_message_cons] at hfirst
      have hxy : x = y := by
        cases x <;> cases y <;> simp_all
      subst hxy
      rw [message, message, hrest] at h
      rw [ih hrest (add_left_cancel h)]

/-! ## The generator -/

/-- The generator with the leading term that the register leaves out. -/
def generator (gen : List Bool) : (ZMod 2)[X] := X ^ gen.length + message gen

theorem monic_generator (gen : List Bool) : (generator gen).Monic := monic_X_pow_add (degree_message_lt gen)

theorem degree_generator (gen : List Bool) : (generator gen).degree = gen.length := by
  rw [generator, degree_add_eq_left_of_degree_lt, degree_X_pow]
  rw [degree_X_pow]
  exact degree_message_lt gen

/-- Polynomials modulo the generator. -/
abbrev residue (gen : List Bool) : (ZMod 2)[X] →+* AdjoinRoot (generator gen) := AdjoinRoot.mk (generator gen)

/-- A register is the remainder of everything it is congruent to. -/
theorem message_eq_mod {gen reg : List Bool} {p : (ZMod 2)[X]} (hlength : reg.length = gen.length)
    (h : residue gen (message reg) = residue gen p) : message reg = p %ₘ generator gen := by
  obtain ⟨q, hq⟩ := AdjoinRoot.mk_eq_mk.mp h.symm
  have hdegree : (message reg).degree < (generator gen).degree := by
    rw [degree_generator, ← hlength]
    exact degree_message_lt reg
  refine (div_modByMonic_unique q _ (monic_generator gen) ⟨?_, hdegree⟩).2.symm
  rw [← hq]
  ring

/-- One shift of a register: the bit that falls out is put back as the generator. -/
def step (gen : List Bool) : List Bool → List Bool
  | [] => []
  | top :: rest => if top then List.zipWith xor (rest ++ [false]) gen else rest ++ [false]

theorem length_step {gen reg : List Bool} (h : reg.length = gen.length) : (step gen reg).length = gen.length := by
  cases reg with
  | nil => exact h
  | cons top rest =>
    rw [List.length_cons] at h
    rw [step]
    split
    · rw [List.length_zipWith, List.length_append, List.length_singleton, h, Nat.min_self]
    · rw [List.length_append, List.length_singleton, h]

/-- Shifting a register by one bit multiplies it by `X`. -/
theorem residue_step {gen reg : List Bool} (h : reg.length = gen.length) :
    residue gen (message (step gen reg)) = residue gen (X * message reg) := by
  cases reg with
  | nil => simp [step, message]
  | cons top rest =>
    have hlength : (rest ++ [false]).length = gen.length := by rwa [List.length_append]
    have hshift : message (rest ++ [false]) = X * message rest := by
      rw [message_append]
      simp [message, bit]
    cases top with
    | false =>
      rw [step, if_neg Bool.false_ne_true, hshift, message]
      simp [bit]
    | true =>
      rw [step, if_pos rfl, message_xor hlength, hshift]
      -- the two sides differ by the generator
      refine AdjoinRoot.mk_eq_mk.mpr ⟨1, ?_⟩
      have hdiff : X * message rest + message gen - X * message (true :: rest) =
          message gen - X ^ gen.length := by
        rw [← h, List.length_cons, message, bit, if_pos rfl, pow_succ]
        ring
      rw [hdiff, generator, CharTwo.sub_eq_add]
      ring

theorem length_steps {gen reg : List Bool} (h : reg.length = gen.length) (n : Nat) :
    ((step gen)^[n] reg).length = gen.length := by
  induction n generalizing reg with
  | zero => exact h
  | succ n ih => exact ih (length_step h)

theorem residue_steps {gen reg : List Bool} (h : reg.length = gen.length) (n : Nat) :
    residue gen (message ((step gen)^[n] reg)) = residue gen (X ^ n * message reg) := by
  induction n generalizing reg with
  | zero => simp
  | succ n ih =>
    rw [Function.iterate_succ_apply, ih (length_step h), map_mul, residue_step h, ← map_mul]
    congr 1
    ring

/-! ## Words as registers -/

section Words

variable {w : Nat}

def msbFirst (v : BitVec w) : List Bool := List.ofFn fun i : Fin w => v.getMsbD i

def lsbFirst (v : BitVec w) : List Bool := List.ofFn fun i : Fin w => v.getLsbD i

@[simp] theorem length_msbFirst (v : BitVec w) : (msbFirst v).length = w := List.length_ofFn

@[simp] theorem length_lsbFirst (v : BitVec w) : (lsbFirst v).length = w := List.length_ofFn

theorem getElem_msbFirst (v : BitVec w) {i : Nat} (h : i < (msbFirst v).length) :
    (msbFirst v)[i] = v.getMsbD i := List.getElem_ofFn h

theorem getElem_lsbFirst (v : BitVec w) {i : Nat} (h : i < (lsbFirst v).length) :
    (lsbFirst v)[i] = v.getLsbD i := List.getElem_ofFn h

theorem msbFirst_xor (a b : BitVec w) : msbFirst (a ^^^ b) = List.zipWith xor (msbFirst a) (msbFirst b) := by
  refine List.ext_getElem (by simp) fun i h _ => ?_
  rw [List.getElem_zipWith, getElem_msbFirst, getElem_msbFirst, getElem_msbFirst, BitVec.getMsbD_xor]

theorem lsbFirst_xor (a b : BitVec w) : lsbFirst (a ^^^ b) = List.zipWith xor (lsbFirst a) (lsbFirst b) := by
  refine List.ext_getElem (by simp) fun i h _ => ?_
  rw [List.getElem_zipWith, getElem_lsbFirst, getElem_lsbFirst, getElem_lsbFirst, BitVec.getLsbD_xor]

theorem msbFirst_shiftLeft (v : BitVec w) {n : Nat} (hn : n ≤ w) :
    msbFirst (v <<< n) = (msbFirst v).drop n ++ List.replicate n false := by
  refine List.ext_getElem (by simp; omega) fun i h _ => ?_
  rw [length_msbFirst] at h
  rw [getElem_msbFirst, BitVec.getMsbD_shiftLeft]
  by_cases hi : i < w - n
  · rw [List.getElem_append_left (by simpa using hi), List.getElem_drop, getElem_msbFirst, Nat.add_comm]
  · rw [List.getElem_append_right (by simpa using hi), List.getElem_replicate,
      BitVec.getMsbD_of_ge _ _ (by omega)]

theorem lsbFirst_ushiftRight (v : BitVec w) {n : Nat} (hn : n ≤ w) :
    lsbFirst (v >>> n) = (lsbFirst v).drop n ++ List.replicate n false := by
  refine List.ext_getElem (by simp; omega) fun i h _ => ?_
  rw [length_lsbFirst] at h
  rw [getElem_lsbFirst, BitVec.getLsbD_ushiftRight]
  by_cases hi : i < w - n
  · rw [List.getElem_append_left (by simpa using hi), List.getElem_drop, getElem_lsbFirst]
  · rw [List.getElem_append_right (by simpa using hi), List.getElem_replicate,
      BitVec.getLsbD_of_ge _ _ (by omega)]

/-- A wider word ends with the bits of the narrow one. -/
theorem drop_msbFirst_setWidth (v : BitVec w) {m : Nat} (hm : w ≤ m) :
    (msbFirst (v.setWidth m)).drop (m - w) = msbFirst v := by
  refine List.ext_getElem (by simp; omega) fun i h hi => ?_
  rw [length_msbFirst] at hi
  rw [List.getElem_drop, getElem_msbFirst, getElem_msbFirst, BitVec.getMsbD_setWidth,
    decide_eq_true (by omega), Bool.true_and]
  congr 1
  omega

/-- The high bits of a word, shifted down. -/
theorem msbFirst_high (v : BitVec w) {m : Nat} (hm : m ≤ w) :
    msbFirst ((v >>> (w - m)).setWidth m) = (msbFirst v).take m := by
  refine List.ext_getElem (by simp; omega) fun i hi h => ?_
  rw [length_msbFirst] at hi
  rw [List.getElem_take, getElem_msbFirst, getElem_msbFirst, BitVec.getMsbD_setWidth, BitVec.getMsbD_ushiftRight,
    decide_eq_true (by omega), Bool.true_and, decide_eq_true (by omega), decide_eq_false (by omega)]
  simp only [Bool.not_false, Bool.true_and]
  congr 1
  omega

theorem lsbFirst_setWidth (v : BitVec w) {m : Nat} (hm : w ≤ m) :
    lsbFirst (v.setWidth m) = lsbFirst v ++ List.replicate (m - w) false := by
  refine List.ext_getElem (by simp; omega) fun i hi h => ?_
  rw [length_lsbFirst] at hi
  rw [getElem_lsbFirst, BitVec.getLsbD_setWidth, decide_eq_true hi, Bool.true_and]
  by_cases hw : i < w
  · rw [List.getElem_append_left (by simpa using hw), getElem_lsbFirst]
  · rw [List.getElem_append_right (by simpa using hw), List.getElem_replicate,
      BitVec.getLsbD_of_ge _ _ (by omega)]

theorem msbFirst_eq_cons (v : BitVec (w + 1)) : msbFirst v = v.msb :: (msbFirst v).drop 1 := by
  rw [msbFirst, List.ofFn_succ]
  rfl

theorem lsbFirst_eq_cons (v : BitVec (w + 1)) : lsbFirst v = v.getLsbD 0 :: (lsbFirst v).drop 1 := by
  rw [lsbFirst, List.ofFn_succ]
  rfl

theorem msbFirst_step (poly v : BitVec (w + 1)) :
    msbFirst (if v.msb then (v <<< 1) ^^^ poly else v <<< 1) = step (msbFirst poly) (msbFirst v) := by
  rw [msbFirst_eq_cons v, step]
  split
  · rw [msbFirst_xor, msbFirst_shiftLeft v (by omega)]
    rfl
  · rw [msbFirst_shiftLeft v (by omega)]
    rfl

theorem lsbFirst_step (poly v : BitVec (w + 1)) :
    lsbFirst (if v.getLsbD 0 then (v >>> 1) ^^^ poly else v >>> 1) = step (lsbFirst poly) (lsbFirst v) := by
  rw [lsbFirst_eq_cons v, step]
  split
  · rw [lsbFirst_xor, lsbFirst_ushiftRight v (by omega)]
    rfl
  · rw [lsbFirst_ushiftRight v (by omega)]
    rfl

end Words

/-! ## Reading bytes -/

/-- A register of type `R`, as the bits `bits`, that takes bytes of type `B`, as the bits `digits`. -/
structure Reads {R B : Type} (gen : List Bool) (bits : R → List Bool) (digits : B → List Bool)
    (update : R → B → R) : Prop where
  width : ∀ r, (bits r).length = gen.length
  byte : ∀ r b, residue gen (message (bits (update r b))) =
    residue gen (X ^ (digits b).length * message (bits r) + X ^ gen.length * message (digits b))

variable {R B : Type} {gen : List Bool} {bits : R → List Bool} {digits : B → List Bool} {update : R → B → R}

theorem Reads.run (h : Reads gen bits digits update) (bytes : List B) (r : R) :
    residue gen (message (bits (bytes.foldl update r))) =
      residue gen (X ^ (bytes.flatMap digits).length * message (bits r) +
        X ^ gen.length * message (bytes.flatMap digits)) := by
  induction bytes generalizing r with
  | nil => simp [message]
  | cons b bytes ih =>
    rw [List.foldl_cons, ih, map_add, map_mul, h.byte, ← map_mul, ← map_add, List.flatMap_cons, message_append,
      List.length_append]
    congr 1
    ring

/-- The register after a byte string is the remainder of what was read. -/
theorem Reads.remainder (h : Reads gen bits digits update) (bytes : List B) (r : R) :
    message (bits (bytes.foldl update r)) =
      (X ^ (bytes.flatMap digits).length * message (bits r) + X ^ gen.length * message (bytes.flatMap digits)) %ₘ
        generator gen :=
  message_eq_mod (h.width _) (h.run bytes r)

/-! ## Bursts -/

/-- The generator has a constant term, so a power of `X` has no factor in common with it. -/
theorem isCoprime_generator (front : List Bool) (k : Nat) : IsCoprime (X ^ k) (generator (front ++ [true])) := by
  refine IsCoprime.pow_left ⟨-generator front, 1, ?_⟩
  rw [generator, generator, message_append, List.length_append, message, message, bit, if_pos rfl]
  simp only [List.length_singleton, List.length_nil, pow_succ, pow_zero]
  ring

/-- The lists differ, and only within `n` consecutive places. -/
def DifferWithin (n : Nat) (a b : List Bool) : Prop :=
  a ≠ b ∧ ∃ start, ∀ i, a[i]? ≠ b[i]? → start ≤ i ∧ i < start + n

/-- Where two lists of one length differ within `n` places, the rest of them is the same. -/
theorem DifferWithin.split {n : Nat} {a b : List Bool} (hlength : a.length = b.length) (h : DifferWithin n a b) :
    ∃ front x y back, a = front ++ (x ++ back) ∧ b = front ++ (y ++ back) ∧ x.length = y.length ∧
      x.length ≤ n ∧ x ≠ y := by
  obtain ⟨hne, start, hwithin⟩ := h
  have hfront : a.take start = b.take start := by
    refine List.ext_getElem? fun i => ?_
    rw [List.getElem?_take, List.getElem?_take]
    split
    · next hi => exact not_not.mp fun hdiffer => absurd (hwithin i hdiffer).1 (Nat.not_le.mpr hi)
    · rfl
  have hback : (a.drop start).drop n = (b.drop start).drop n := by
    refine List.ext_getElem? fun i => ?_
    rw [List.getElem?_drop, List.getElem?_drop, List.getElem?_drop, List.getElem?_drop]
    refine not_not.mp fun hdiffer => ?_
    have := (hwithin _ hdiffer).2
    omega
  have ha : a.take start ++ ((a.drop start).take n ++ (a.drop start).drop n) = a := by
    rw [List.take_append_drop, List.take_append_drop]
  have hb : a.take start ++ ((b.drop start).take n ++ (a.drop start).drop n) = b := by
    rw [hfront, hback, List.take_append_drop, List.take_append_drop]
  refine ⟨_, (a.drop start).take n, (b.drop start).take n, _, ha.symm, hb.symm, ?_, List.length_take_le _ _, ?_⟩
  · simp only [List.length_take, List.length_drop, hlength]
  · intro heq
    rw [heq] at ha
    exact hne (ha.symm.trans hb)

theorem differWithin_append {n : Nat} {x y : List Bool} (front back : List Bool) (hxy : x.length = y.length)
    (hle : x.length ≤ n) (hne : x ≠ y) : DifferWithin n (front ++ (x ++ back)) (front ++ (y ++ back)) := by
  refine ⟨fun h => hne (List.append_cancel_right (List.append_cancel_left h)), front.length, fun i hi => ?_⟩
  refine ⟨not_lt.mp fun hlt => hi ?_, not_le.mp fun hge => hi ?_⟩
  · rw [List.getElem?_append_left hlt, List.getElem?_append_left hlt]
  · rw [List.getElem?_append_right (by omega), List.getElem?_append_right (by omega),
      List.getElem?_append_right (by omega), List.getElem?_append_right (by omega), hxy]

/-- The generator divides no difference that fits in its width. -/
theorem burst_detected {front : List Bool} {a b : List Bool} (hlength : a.length = b.length)
    (h : DifferWithin (front ++ [true]).length a b) (k : Nat) :
    residue (front ++ [true]) (X ^ k * message a) ≠ residue (front ++ [true]) (X ^ k * message b) := by
  obtain ⟨before, x, y, after, rfl, rfl, hxy, hle, hne⟩ := h.split hlength
  intro heq
  have hdvd := AdjoinRoot.mk_eq_mk.mp heq
  have hdiff : X ^ k * message (before ++ (x ++ after)) - X ^ k * message (before ++ (y ++ after)) =
      X ^ (k + after.length) * (message x - message y) := by
    rw [message_append, message_append, message_append, message_append, List.length_append, List.length_append, hxy]
    ring
  rw [hdiff] at hdvd
  have hdvd' := (isCoprime_generator front _).symm.dvd_of_dvd_mul_left hdvd
  have hnonzero : message x - message y ≠ 0 := sub_ne_zero.mpr fun heq => hne (message_injective hxy heq)
  refine (monic_generator _).not_dvd_of_degree_lt hnonzero ?_ hdvd'
  rw [degree_generator]
  have hwidth : ((x.length : ℕ) : WithBot ℕ) ≤ ((front ++ [true]).length : ℕ) := WithBot.coe_le_coe.mpr hle
  refine lt_of_lt_of_le ((degree_sub_le _ _).trans_lt (max_lt (degree_message_lt x) ?_)) hwidth
  rw [hxy]
  exact degree_message_lt y

/-- Byte strings of one length whose bits differ only within the width of the register are told apart. -/
theorem Reads.burst (h : Reads gen bits digits update) {front : List Bool} (hgen : gen = front ++ [true])
    {a b : List B} (r : R) (hlength : (a.flatMap digits).length = (b.flatMap digits).length)
    (hdiffer : DifferWithin gen.length (a.flatMap digits) (b.flatMap digits)) :
    a.foldl update r ≠ b.foldl update r := by
  subst hgen
  intro heq
  have ha := h.run a r
  rw [heq, h.run b r, map_add, map_add, hlength] at ha
  exact burst_detected hlength hdiffer _ (add_left_cancel ha).symm

end

end Spark.Crc
