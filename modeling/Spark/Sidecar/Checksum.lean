import Spark.Lib.Crc
import Spark.Ple.Codec
import Spark.Sidecar.Resume

/-!
# The checksums

The sidecar's CRC-64 goes through a table, first bit first. The CRC-32 of the embedding index goes bit by bit,
last bit first, and starts and ends with a complement.

* **`crc64_reads`**, **`crc32_reads`** — what a byte does to the register, modulo the generator.
* **`checksums_correct`** — both are polynomial remainders however the bytes are split, and tell bursts apart.
-/

namespace Spark.Sidecar

open Crc Polynomial

/-! ## CRC-64 -/

/-- `0x42f0_e1eb_a9ea_3693`, first bit first. -/
def crc64Gen : List Bool := msbFirst 0x42f0e1eba9ea3693#64

def bits64 (register : UInt64) : List Bool := msbFirst register.toBitVec

/-- The bits of a byte in the order the CRC-64 takes them. -/
def byteBits (byte : UInt8) : List Bool := msbFirst byte.toBitVec

/-- One round of the loop that fills the table. -/
def crc64Round (value : UInt64) : UInt64 :=
  if value &&& ((1 : UInt64) <<< 63) ≠ 0 then (value <<< 1) ^^^ 0x42f0e1eba9ea3693 else value <<< 1

/-- One round of `Crc64::update`. -/
def crc64Byte (crc : UInt64) (byte : UInt8) : UInt64 :=
  let index := (crc >>> 56).toUInt8 ^^^ byte
  crc64Table.getD index.toNat 0 ^^^ (crc <<< 8)

@[simp] theorem length_bits64 (register : UInt64) : (bits64 register).length = 64 := length_msbFirst _

@[simp] theorem length_byteBits (byte : UInt8) : (byteBits byte).length = 8 := length_msbFirst _

theorem length_crc64Gen : crc64Gen.length = 64 := length_msbFirst _

theorem bits64_xor (a b : UInt64) : bits64 (a ^^^ b) = List.zipWith xor (bits64 a) (bits64 b) :=
  msbFirst_xor a.toBitVec b.toBitVec

theorem bits64_shift (crc : UInt64) : bits64 (crc <<< 8) = (bits64 crc).drop 8 ++ List.replicate 8 false :=
  msbFirst_shiftLeft crc.toBitVec (by decide)

theorem byteBits_high (crc : UInt64) : byteBits (crc >>> 56).toUInt8 = (bits64 crc).take 8 :=
  msbFirst_high crc.toBitVec (by decide)

theorem bits64_index (index : UInt8) :
    bits64 (UInt64.ofNat index.toNat <<< 56) = byteBits index ++ List.replicate 56 false := by
  have hword : (UInt64.ofNat index.toNat <<< 56).toBitVec = (index.toBitVec.setWidth 64) <<< 56 := by
    show BitVec.ofNat 64 index.toBitVec.toNat <<< 56 = _
    rw [BitVec.ofNat_toNat]
  rw [bits64, hword, msbFirst_shiftLeft _ (by decide), byteBits,
    ← drop_msbFirst_setWidth index.toBitVec (show 8 ≤ 64 by decide)]

theorem bits64_round (value : UInt64) : bits64 (crc64Round value) = step crc64Gen (bits64 value) := by
  have hmask : (value &&& ((1 : UInt64) <<< 63)).toBitVec = value.toBitVec &&& BitVec.twoPow 64 63 := rfl
  have htop : value &&& ((1 : UInt64) <<< 63) ≠ 0 ↔ value.toBitVec.msb = true := by
    rw [ne_eq, ← UInt64.toBitVec_inj, hmask, BitVec.and_twoPow, BitVec.msb_eq_getLsbD_last]
    split
    · next h => exact iff_of_true (by decide) h
    · next h => exact iff_of_false (fun hne => hne rfl) h
  have hstep := msbFirst_step 0x42f0e1eba9ea3693#64 value.toBitVec
  rw [bits64, bits64, crc64Gen, ← hstep, crc64Round]
  by_cases h : value &&& ((1 : UInt64) <<< 63) ≠ 0
  · rw [if_pos h, if_pos (htop.mp h)]
    rfl
  · rw [if_neg h, if_neg (fun hmsb => h (htop.mpr hmsb))]
    rfl

/-- The entry of a byte is its register after eight rounds. -/
theorem bits64_entry (index : UInt8) :
    bits64 (crc64Table.getD index.toNat 0) = (step crc64Gen)^[8] (byteBits index ++ List.replicate 56 false) := by
  have hentry : crc64Table.getD index.toNat 0 = crc64Round^[8] (UInt64.ofNat index.toNat <<< 56) := by
    have hfold : crc64Entry index.toNat =
        (List.range 8).foldl (fun value _ => crc64Round value) (UInt64.ofNat index.toNat <<< 56) := rfl
    rw [crc64Table, List.getD_eq_getElem?_getD, List.getElem?_map, List.getElem?_range index.toNat_lt,
      Option.map_some, Option.getD_some, hfold, List.foldl_const, List.length_range]
  rw [hentry, ← bits64_index]
  exact Function.Semiconj.iterate_right (f := bits64) bits64_round 8 _

/-- The two halves of a register: what the table takes care of, and what is shifted. -/
theorem message_bits64 (crc : UInt64) :
    message (bits64 crc) = X ^ 56 * message ((bits64 crc).take 8) + message ((bits64 crc).drop 8) := by
  have hlength : ((bits64 crc).drop 8).length = 56 := by rw [List.length_drop, length_bits64]
  rw [← hlength, ← message_append, List.take_append_drop]

theorem message_index (crc : UInt64) (byte : UInt8) :
    message (byteBits ((crc >>> 56).toUInt8 ^^^ byte)) =
      message ((bits64 crc).take 8) + message (byteBits byte) := by
  rw [← byteBits_high, byteBits, UInt8.toBitVec_xor, msbFirst_xor, message_xor (by simp)]
  rfl

theorem bits64_byte (crc : UInt64) (byte : UInt8) :
    bits64 (crc64Byte crc byte) =
      List.zipWith xor ((step crc64Gen)^[8] (byteBits ((crc >>> 56).toUInt8 ^^^ byte) ++ List.replicate 56 false))
        ((bits64 crc).drop 8 ++ List.replicate 8 false) := by
  rw [← bits64_entry, ← bits64_shift]
  exact bits64_xor _ _

theorem crc64_reads : Reads crc64Gen bits64 byteBits crc64Byte where
  width register := (length_bits64 register).trans length_crc64Gen.symm
  byte crc byte := by
    have hindex : (byteBits ((crc >>> 56).toUInt8 ^^^ byte) ++ List.replicate 56 false).length = crc64Gen.length := by
      rw [List.length_append, length_byteBits, List.length_replicate, length_crc64Gen]
    have hentry := residue_steps hindex 8
    have hlength := length_steps hindex 8
    have hshift : message ((bits64 crc).drop 8 ++ List.replicate 8 false) =
        X ^ 8 * message ((bits64 crc).drop 8) := by
      rw [message_append, message_false, List.length_replicate, add_zero]
    have hpad : message (byteBits ((crc >>> 56).toUInt8 ^^^ byte) ++ List.replicate 56 false) =
        X ^ 56 * (message ((bits64 crc).take 8) + message (byteBits byte)) := by
      rw [message_append, message_false, List.length_replicate, add_zero, message_index]
    rw [bits64_byte, message_xor (by rw [hlength, length_crc64Gen]; simp), map_add, hentry, ← map_add, hshift, hpad]
    refine congrArg (residue crc64Gen) ?_
    rw [message_bits64, length_byteBits, length_crc64Gen]
    ring

/-! ## CRC-32 -/

/-- `0xedb8_8320`, last bit first. -/
def crc32Gen : List Bool := lsbFirst 0xedb88320#32

def bits32 (register : UInt32) : List Bool := lsbFirst register.toBitVec

/-- The bits of a byte in the order the CRC-32 takes them. -/
def reflectedBits (byte : UInt8) : List Bool := lsbFirst byte.toBitVec

/-- One round of the loop of `crc32` over the bytes. -/
def crc32Byte (crc : UInt32) (byte : UInt8) : UInt32 := Ple.crc32Round^[8] (crc ^^^ byte.toUInt32)

@[simp] theorem length_bits32 (register : UInt32) : (bits32 register).length = 32 := length_lsbFirst _

@[simp] theorem length_reflectedBits (byte : UInt8) : (reflectedBits byte).length = 8 := length_lsbFirst _

theorem length_crc32Gen : crc32Gen.length = 32 := length_lsbFirst _

theorem crc32_eq (payload : List UInt8) : Ple.crc32 payload = ~~~ payload.foldl crc32Byte (~~~ 0) := rfl

/-- The mask of a round is all ones or all zeros, so it puts the generator back exactly when a one fell out. -/
theorem bits32_round (crc : UInt32) : bits32 (Ple.crc32Round crc) = step crc32Gen (bits32 crc) := by
  have hlow : (crc &&& 1).toBitVec = crc.toBitVec &&& BitVec.twoPow 32 0 := rfl
  have hstep := lsbFirst_step 0xedb88320#32 crc.toBitVec
  rw [bits32, bits32, crc32Gen, ← hstep, Ple.crc32Round]
  rw [BitVec.and_twoPow] at hlow
  split
  · next h =>
    rw [if_pos h] at hlow
    rw [show crc &&& 1 = 1 from UInt32.toBitVec_inj.mp hlow]
    rfl
  · next h =>
    rw [if_neg h] at hlow
    rw [show crc &&& 1 = 0 from UInt32.toBitVec_inj.mp hlow, show (0xedb88320 : UInt32) &&& (0 - 0) = 0 from rfl,
      UInt32.xor_zero]
    rfl

theorem bits32_byte (crc : UInt32) (byte : UInt8) :
    bits32 (crc32Byte crc byte) =
      (step crc32Gen)^[8] (List.zipWith xor (bits32 crc) (reflectedBits byte ++ List.replicate 24 false)) := by
  have hwide : bits32 byte.toUInt32 = reflectedBits byte ++ List.replicate 24 false :=
    lsbFirst_setWidth byte.toBitVec (show 8 ≤ 32 by decide)
  have hxor : bits32 (crc ^^^ byte.toUInt32) = List.zipWith xor (bits32 crc) (bits32 byte.toUInt32) :=
    lsbFirst_xor crc.toBitVec byte.toUInt32.toBitVec
  rw [← hwide, ← hxor]
  exact Function.Semiconj.iterate_right (f := bits32) bits32_round 8 _

theorem crc32_reads : Reads crc32Gen bits32 reflectedBits crc32Byte where
  width register := (length_bits32 register).trans length_crc32Gen.symm
  byte crc byte := by
    have hword : (reflectedBits byte ++ List.replicate 24 false).length = 32 := by simp
    have hregister : (List.zipWith xor (bits32 crc) (reflectedBits byte ++ List.replicate 24 false)).length =
        crc32Gen.length := by
      rw [List.length_zipWith, hword, length_bits32, length_crc32Gen, Nat.min_self]
    have hpad : message (reflectedBits byte ++ List.replicate 24 false) = X ^ 24 * message (reflectedBits byte) := by
      rw [message_append, message_false, List.length_replicate, add_zero]
    rw [bits32_byte, residue_steps hregister, message_xor (by rw [hword, length_bits32]), hpad]
    refine congrArg (residue crc32Gen) ?_
    rw [length_reflectedBits, length_crc32Gen]
    ring

/-! ## The checksums of the files -/

/-- The register after any chunks is that after all bytes of them. -/
theorem foldl_chunks (chunks : List (List UInt8)) (crc : UInt64) :
    chunks.foldl crc64Update crc = crc64Update crc chunks.flatten := by
  induction chunks generalizing crc with
  | nil => rfl
  | cons chunk chunks ih => rw [List.foldl_cons, ih, List.flatten_cons, crc64Update_append]

/-- The CRC-64 of a byte string: its polynomial, shifted by the width of the register, modulo the generator. -/
theorem crc64Ecma_remainder (bytes : List UInt8) :
    message (bits64 (crc64Ecma bytes)) = (X ^ 64 * message (bytes.flatMap byteBits)) %ₘ generator crc64Gen := by
  have hzero : message (bits64 0) = 0 := message_false 64
  have h := crc64_reads.remainder bytes 0
  rw [hzero, mul_zero, zero_add, length_crc64Gen] at h
  exact h

theorem length_flatMap_bits {digits : UInt8 → List Bool} (h : ∀ byte, (digits byte).length = 8) {a b : List UInt8}
    (hlength : a.length = b.length) : (a.flatMap digits).length = (b.flatMap digits).length := by
  simp only [List.length_flatMap, h, List.map_const', List.sum_replicate, hlength]

/-- The CRC-64 tells strings of one length apart that differ only within 64 consecutive bits. -/
theorem crc64Ecma_burst {a b : List UInt8} (hlength : a.length = b.length)
    (h : DifferWithin 64 (a.flatMap byteBits) (b.flatMap byteBits)) : crc64Ecma a ≠ crc64Ecma b :=
  crc64_reads.burst (show crc64Gen = crc64Gen.take 63 ++ [true] by decide) 0
    (length_flatMap_bits length_byteBits hlength) (length_crc64Gen.symm ▸ h)

/-- Both checksums are polynomial remainders, in whatever chunks the bytes come, and tell two strings of one
length apart that differ only within the width of the register. -/
theorem checksums_correct :
    (∀ chunks : List (List UInt8), message (bits64 (chunks.foldl crc64Update 0)) =
      (X ^ 64 * message (chunks.flatten.flatMap byteBits)) %ₘ generator crc64Gen) ∧
    (∀ record, message (bits64 (crc64Ecma record)) =
      (X ^ 64 * message (record.flatMap byteBits)) %ₘ generator crc64Gen) ∧
    (∀ (image : Image) (offset bytes : Nat), offset + bytes ≤ image.size → image.size < 2 ^ 64 →
      ∃ sum, checksumLoop image 0 offset bytes = .ok sum ∧ message (bits64 sum) =
        (X ^ 64 * message ((image.cells.slice offset bytes).flatMap byteBits)) %ₘ generator crc64Gen) ∧
    (∀ a b : List UInt8, a.length = b.length → DifferWithin 64 (a.flatMap byteBits) (b.flatMap byteBits) →
      crc64Ecma a ≠ crc64Ecma b) ∧
    (∀ payload, message (bits32 (~~~ Ple.crc32 payload)) =
      (X ^ (payload.flatMap reflectedBits).length * message (List.replicate 32 true) +
        X ^ 32 * message (payload.flatMap reflectedBits)) %ₘ generator crc32Gen) ∧
    ∀ a b : List UInt8, a.length = b.length → DifferWithin 32 (a.flatMap reflectedBits) (b.flatMap reflectedBits) →
      Ple.crc32 a ≠ Ple.crc32 b := by
  refine ⟨fun chunks => ?_, crc64Ecma_remainder, fun image offset bytes hend hsize => ?_,
    fun a b => crc64Ecma_burst, fun payload => ?_, fun a b hlength h heq => ?_⟩
  · rw [foldl_chunks]
    exact crc64Ecma_remainder chunks.flatten
  · exact ⟨_, Plan.checksumLoop_eq 0 offset bytes hend hsize, crc64Ecma_remainder _⟩
  · have hones : bits32 (~~~ 0) = List.replicate 32 true := by decide
    have hrun := crc32_reads.remainder payload (~~~ 0)
    rw [hones, length_crc32Gen] at hrun
    rw [crc32_eq, UInt32.not_not]
    exact hrun
  · refine crc32_reads.burst (show crc32Gen = crc32Gen.take 31 ++ [true] by decide) (~~~ 0)
      (length_flatMap_bits length_reflectedBits hlength) (length_crc32Gen.symm ▸ h) ?_
    rw [crc32_eq, crc32_eq] at heq
    exact UInt32.not_inj.mp heq

end Spark.Sidecar
