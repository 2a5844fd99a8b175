import Spark.Lib.LittleEndian
import Mathlib.Algebra.BigOperators.Group.List.Basic

/-!
# Packed records

Fixed-width little-endian fields in a row, read back by offset, and overwriting a range in place: the
vocabulary of a binary header.

* **`word_field`** — a field is read back at the width of the fields before it.
* **`slice_patch`**, **`patch_patch`**, **`patch_slice`** — what an overwritten range leaves alone, and what
  undoes it.
-/

namespace Spark.Pack

/-- Fields as widths in bytes and values, one behind the other. -/
def pack (fields : List (Nat × Nat)) : List UInt8 := fields.flatMap fun field => leBytes field.1 field.2

def width (fields : List (Nat × Nat)) : Nat := (fields.map Prod.fst).sum

/-- `count` bytes from `offset`, if there are that many. -/
def slice (bytes : List UInt8) (offset count : Nat) : Option (List UInt8) :=
  if offset + count ≤ bytes.length then some ((bytes.drop offset).take count) else none

/-- The word of `count` bytes at `offset`. -/
def word (bytes : List UInt8) (offset count : Nat) : Option Nat := (slice bytes offset count).map leNat

/-- The bytes at `offset` replaced. -/
def patch (bytes : List UInt8) (offset : Nat) (new : List UInt8) : List UInt8 :=
  bytes.take offset ++ new ++ bytes.drop (offset + new.length)

theorem word_lt {bytes : List UInt8} {offset count value : Nat} (h : word bytes offset count = some value) :
    value < 256 ^ count := by
  obtain ⟨field, hfield, rfl⟩ := Option.map_eq_some_iff.mp h
  rw [slice] at hfield
  split at hfield
  · next hle =>
    cases hfield
    refine Nat.lt_of_lt_of_le (leNat_lt _) (Nat.pow_le_pow_right (by omega) ?_)
    exact List.length_take_le _ _
  · cases hfield

@[simp] theorem length_pack (fields : List (Nat × Nat)) : (pack fields).length = width fields := by
  induction fields with
  | nil => rfl
  | cons field rest ih =>
    show (leBytes field.1 field.2 ++ pack rest).length = field.1 + width rest
    rw [List.length_append, length_leBytes, ih]

theorem pack_append (a b : List (Nat × Nat)) : pack (a ++ b) = pack a ++ pack b := List.flatMap_append

theorem slice_middle (a b c : List UInt8) : slice (a ++ (b ++ c)) a.length b.length = some b := by
  have hroom : a.length + b.length ≤ (a ++ (b ++ c)).length := by
    rw [List.length_append, List.length_append]
    omega
  rw [slice, if_pos hroom, List.drop_left, List.take_left]

/-- A field read at its place in a record that stands behind `front`. -/
theorem word_field {fields : List (Nat × Nat)} {k w v : Nat} (hfield : fields[k]? = some (w, v))
    (hv : v < 256 ^ w) (front rest : List UInt8) {offset : Nat}
    (hoffset : offset = front.length + width (fields.take k)) :
    word (front ++ (pack fields ++ rest)) offset w = some v := by
  obtain ⟨hk, hget⟩ := List.getElem?_eq_some_iff.mp hfield
  have hsplit : fields = fields.take k ++ (w, v) :: fields.drop (k + 1) := by
    rw [← hget, ← List.drop_eq_getElem_cons hk, List.take_append_drop]
  have hbytes : front ++ (pack fields ++ rest) = (front ++ pack (fields.take k)) ++
      (leBytes w v ++ (pack (fields.drop (k + 1)) ++ rest)) := by
    conv_lhs => rw [hsplit, pack_append]
    simp [pack, List.append_assoc]
  have hmiddle := slice_middle (front ++ pack (fields.take k)) (leBytes w v) (pack (fields.drop (k + 1)) ++ rest)
  rw [List.length_append, length_pack, length_leBytes, ← hoffset] at hmiddle
  rw [word, hbytes, hmiddle, Option.map_some, leNat_leBytes, Nat.mod_eq_of_lt hv]

theorem slice_eq_some {bytes part : List UInt8} {offset count : Nat} (h : slice bytes offset count = some part) :
    offset + count ≤ bytes.length ∧ (bytes.drop offset).take count = part := by
  rw [slice] at h
  split at h
  · next hroom => exact ⟨hroom, Option.some.inj h⟩
  · cases h

/-! ## Overwriting -/

section Patch

variable {bytes new : List UInt8} {offset : Nat}

theorem length_patch (h : offset + new.length ≤ bytes.length) : (patch bytes offset new).length = bytes.length := by
  simp only [patch, List.length_append, List.length_take, List.length_drop]
  omega

/-- Bytes in front of an overwritten range are the old ones. -/
theorem slice_patch (h : offset + new.length ≤ bytes.length) {start count : Nat} (hfront : start + count ≤ offset) :
    slice (patch bytes offset new) start count = slice bytes start count := by
  have htake : (patch bytes offset new).take offset = bytes.take offset := by
    rw [patch, List.append_assoc, List.take_append_of_le_length (by rw [List.length_take]; omega),
      List.take_take, Nat.min_self]
  have hpart : ∀ l : List UInt8, (l.drop start).take count = ((l.take offset).drop start).take count := by
    intro l
    rw [List.drop_take, List.take_take, Nat.min_eq_left (by omega)]
  rw [slice, slice, length_patch h, hpart (patch bytes offset new), hpart bytes, htake]

/-- Bytes behind an overwritten range are the old ones. -/
theorem slice_patch_behind (h : offset + new.length ≤ bytes.length) {start count : Nat}
    (hbehind : offset + new.length ≤ start) :
    slice (patch bytes offset new) start count = slice bytes start count := by
  have hdrop : (patch bytes offset new).drop (offset + new.length) = bytes.drop (offset + new.length) := by
    have hlength : (bytes.take offset ++ new).length = offset + new.length := by
      rw [List.length_append, List.length_take, Nat.min_eq_left (by omega)]
    rw [patch, ← hlength, List.drop_left, hlength]
  have hpart : ∀ l : List UInt8, l.drop start = (l.drop (offset + new.length)).drop (start - (offset + new.length)) := by
    intro l
    rw [List.drop_drop, Nat.add_sub_cancel' hbehind]
  rw [slice, slice, length_patch h, hpart (patch bytes offset new), hpart bytes, hdrop]

theorem patch_patch (h : offset + new.length ≤ bytes.length) {newer : List UInt8} (hlength : newer.length = new.length) :
    patch (patch bytes offset new) offset newer = patch bytes offset newer := by
  have hfront : (bytes.take offset).length = offset := by rw [List.length_take, Nat.min_eq_left (by omega)]
  have htake : (patch bytes offset new).take offset = bytes.take offset := by
    rw [patch, List.append_assoc, List.take_left' hfront]
  have hdrop : (patch bytes offset new).drop (offset + newer.length) = bytes.drop (offset + newer.length) := by
    rw [patch, hlength, List.drop_left' (by rw [List.length_append, hfront])]
  rw [patch, htake, hdrop, patch]

/-- Writing what is there already. -/
theorem patch_slice {part : List UInt8} {count : Nat} (h : slice bytes offset count = some part) :
    patch bytes offset part = bytes := by
  obtain ⟨hroom, rfl⟩ := slice_eq_some h
  have hlength : ((bytes.drop offset).take count).length = count := by
    rw [List.length_take, List.length_drop, Nat.min_eq_left (by omega)]
  rw [patch, hlength, List.append_assoc, ← List.drop_drop, List.take_append_drop, List.take_append_drop]

theorem slice_patched (h : offset + new.length ≤ bytes.length) :
    slice (patch bytes offset new) offset new.length = some new := by
  have hfront : (bytes.take offset).length = offset := by rw [List.length_take, Nat.min_eq_left (by omega)]
  have hmiddle := slice_middle (bytes.take offset) new (bytes.drop (offset + new.length))
  rw [hfront, ← List.append_assoc] at hmiddle
  exact hmiddle

end Patch

end Spark.Pack
