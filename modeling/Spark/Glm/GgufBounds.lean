import Mathlib.Algebra.Order.Floor.Div
import Mathlib.Algebra.BigOperators.Group.List.Basic
import Spark.Glm.Gguf
import Spark.Lib.Post

/-!
# What a GGUF file that is loaded holds

The places of a file are described without bounds and without words of 64 bits: where a value ends, and what the
tensor directory says. `model_open` is then compared with the description.

* **`modelOpen_meets`** — the cursor stays in the file, and what is recorded is what the file describes.
* **`tensorNbytes_exact_iff`** — when the recorded size of a tensor is its size.
* **`modelOpen_bounded_iff`** — when a file that is loaded has only tensors with their sizes.
-/

namespace Spark.Gguf

open Post

/-! ## The file as it is described -/

section Description

variable (file : List UInt8)

/-- Where a metadata value ends, with up to `left` levels of arrays; none where it is no value. -/
def valueEnd : Nat → Nat → Nat → Option Nat
  | 0, _, _ => none
  | left + 1, type, pos =>
    if scalarValueSize type ≠ 0 then some (pos + scalarValueSize type)
    else if type = ggufValueString then some (pos + 8 + word file pos 8)
    else if type = ggufValueArray then
      let item := word file pos 4
      let len := word file (pos + 4) 8
      if scalarValueSize item ≠ 0 then some (pos + 12 + len * scalarValueSize item)
      else (· >>= valueEnd left item)^[len] (some (pos + 12))
    else none

/-- Where an entry of the metadata ends: a key, a type and a value. -/
def kvEnd (pos : Nat) : Option Nat :=
  let keyEnd := pos + 8 + word file pos 8
  valueEnd file 9 (word file keyEnd 4) (keyEnd + 4)

/-- A tensor as the directory describes it. -/
structure Entry where
  name : Str
  dim : List Nat
  type : Nat
  relOffset : Nat
  deriving DecidableEq, Repr

/-- The entry at a position, and where it ends. -/
def entryAt (pos : Nat) : Entry × Nat :=
  let name : Str := ⟨pos + 8, word file pos 8⟩
  let dims := name.ptr + name.len + 4
  let ndim := word file (name.ptr + name.len) 4
  let type := dims + 8 * ndim
  ({ name, dim := (List.range ndim).map fun d => word file (dims + 8 * d) 8, type := word file type 4,
     relOffset := word file (type + 4) 8 }, type + 12)

def entriesAt : Nat → Nat → List Entry
  | 0, _ => []
  | n + 1, pos => (entryAt file pos).1 :: entriesAt n (entryAt file pos).2

/-- The tensors that the file describes, behind its metadata. -/
def described : Option (List Entry) :=
  ((· >>= kvEnd file)^[word file 16 8] (some 24)).map (entriesAt file (word file 8 8))

end Description

/-- The size of a tensor of a supported type. -/
def Entry.size (e : Entry) (info : TypeInfo) : Nat := e.dim.prod ⌈/⌉ info.blockElems * info.blockBytes

/-- **The condition on a tensor.** Its size, and its elements with a block behind them, are words of 64 bits. -/
def Entry.Fits (e : Entry) : Prop :=
  ∀ info, tensorType e.type = some info → e.dim.prod + info.blockElems ≤ 2 ^ 64 ∧ e.size info < 2 ^ 64

def Tensor.entry (t : Tensor) : Entry := ⟨t.name, t.dim, t.type, t.relOffset⟩

variable {file : List UInt8}

/-! ## The cursor stays in the file -/

/-- Everywhere the cursor has been is in the file or at its end. -/
structure Cursor.Inside (file : List UInt8) (c : Cursor) : Prop where
  pos : c.pos ≤ file.length
  trail : ∀ p ∈ c.trail, p ≤ file.length

def Die.Inside (file : List UInt8) (d : Die) : Prop := ∀ p ∈ d.trail, p ≤ file.length

theorem cursorSkip_meets (hsize : file.length < 2 ^ 63) {c : Cursor} (hc : c.Inside file) (n : Nat) :
    Meets (Die.Inside file) (fun later => later.Inside file ∧ later.pos = c.pos + n) (cursorSkip file c n) := by
  unfold cursorSkip
  split
  · next hhas =>
    simp only [cursorHas, Bool.not_eq_true', Bool.or_eq_false_iff, decide_eq_false_iff_not] at hhas
    have hpos : (c.pos + n) % 2 ^ 64 = c.pos + n := Nat.mod_eq_of_lt (by omega)
    have hle : (c.pos + n) % 2 ^ 64 ≤ file.length := by omega
    refine ⟨⟨hle, fun p hp => ?_⟩, hpos⟩
    rcases List.mem_append.mp hp with hp | hp
    · exact hc.trail p hp
    · rw [List.mem_singleton.mp hp]
      exact hle
  · exact hc.trail

theorem cursorRead_meets (hsize : file.length < 2 ^ 63) {c : Cursor} (hc : c.Inside file) (width : Nat) :
    Meets (Die.Inside file)
      (fun out => out.2.Inside file ∧ out.2.pos = c.pos + width ∧ out.1 = word file c.pos width)
      (cursorRead file c width) :=
  (cursorSkip_meets hsize hc width).map fun _ h => ⟨h.1, h.2, rfl⟩

theorem cursorString_meets (hsize : file.length < 2 ^ 63) {c : Cursor} (hc : c.Inside file) :
    Meets (Die.Inside file)
      (fun out => out.2.Inside file ∧ out.1 = ⟨c.pos + 8, word file c.pos 8⟩ ∧
        out.2.pos = c.pos + 8 + word file c.pos 8)
      (cursorString file c) := by
  refine (cursorRead_meets hsize hc 8).bind fun out hout => ?_
  obtain ⟨len, later⟩ := out
  obtain ⟨hlater, hpos, hlen⟩ := hout
  refine (cursorSkip_meets hsize hlater len).bind fun last hlast => ?_
  dsimp only at hpos hlen
  subst hlen
  exact ⟨hlast.1, by rw [← hpos], by rw [hlast.2, hpos]⟩

/-! ## Metadata -/

theorem skipItems_meets {skip : Cursor → Except Die Cursor} {stop : Nat → Option Nat}
    (hskip : ∀ c : Cursor, c.Inside file →
      Meets (Die.Inside file) (fun later => later.Inside file ∧ stop c.pos = some later.pos) (skip c)) (n : Nat)
    {c : Cursor} (hc : c.Inside file) :
    Meets (Die.Inside file) (fun later => later.Inside file ∧ (· >>= stop)^[n] (some c.pos) = some later.pos)
      (skipItems skip n c) := by
  induction n generalizing c with
  | zero => exact ⟨hc, rfl⟩
  | succ n ih =>
    refine (hskip c hc).bind fun later hlater => (ih hlater.1).mono fun last hlast => ⟨hlast.1, ?_⟩
    rw [Function.iterate_succ_apply, Option.bind_eq_bind, Option.bind_some, hlater.2]
    exact hlast.2

/-- A value is skipped to its end. -/
theorem skipValue_meets (hsize : file.length < 2 ^ 63) (left type : Nat) {c : Cursor} (hc : c.Inside file) :
    Meets (Die.Inside file) (fun later => later.Inside file ∧ valueEnd file left type c.pos = some later.pos)
      (skipValue file left type c) := by
  induction left generalizing type c with
  | zero => exact hc.trail
  | succ left ih =>
    unfold skipValue valueEnd
    dsimp only
    split
    · exact (cursorSkip_meets hsize hc _).mono fun later h => ⟨h.1, congrArg some h.2.symm⟩
    split
    · refine (cursorString_meets hsize hc).bind fun out hout => ?_
      exact ⟨hout.1, congrArg some hout.2.2.symm⟩
    split
    · refine (cursorRead_meets hsize hc 4).bind fun out hout => ?_
      obtain ⟨item, c₁⟩ := out
      obtain ⟨hc₁, hpos₁, rfl⟩ := hout
      refine (cursorRead_meets hsize hc₁ 8).bind fun out hout => ?_
      obtain ⟨len, c₂⟩ := out
      obtain ⟨hc₂, hpos₂, rfl⟩ := hout
      dsimp only at hpos₁ hpos₂ ⊢
      rw [hpos₁] at hpos₂ ⊢
      by_cases hitem : scalarValueSize (word file c.pos 4) ≠ 0
      · rw [if_pos hitem, if_pos hitem]
        split
        · exact hc₂.trail
        · next hfits =>
          have hpos : 0 < scalarValueSize (word file c.pos 4) := Nat.pos_of_ne_zero hitem
          have hmul := (Nat.le_div_iff_mul_le hpos).mp (Nat.le_of_not_gt hfits)
          have hlt : word file (c.pos + 4) 8 * scalarValueSize (word file c.pos 4) < 2 ^ 64 := by
            unfold uint64Max at hmul
            omega
          rw [Nat.mod_eq_of_lt hlt]
          refine (cursorSkip_meets hsize hc₂ _).mono fun later h => ⟨h.1, ?_⟩
          rw [h.2, hpos₂]
      · rw [if_neg hitem, if_neg hitem]
        have hitems := @skipItems_meets file _ _ (fun _ hc => ih (word file c.pos 4) hc) (word file (c.pos + 4) 8)
          c₂ hc₂
        rw [hpos₂] at hitems
        exact hitems
    · exact hc.trail

/-- The key and the value of an entry lie in the file. -/
structure Kv.Inside (file : List UInt8) (kv : Kv) : Prop where
  key : kv.key.ptr + kv.key.len ≤ file.length
  value : ∃ stop, valueEnd file 9 kv.type kv.valuePos = some stop ∧ stop ≤ file.length

theorem parseKv_meets (hsize : file.length < 2 ^ 63) (alignment : Nat) {c : Cursor} (hc : c.Inside file) :
    Meets (Die.Inside file)
      (fun out => out.2.Inside file ∧ out.1.1.Inside file ∧ kvEnd file c.pos = some out.2.pos)
      (parseKv file alignment c) := by
  refine (cursorString_meets hsize hc).bind fun out hout => ?_
  obtain ⟨key, c₁⟩ := out
  obtain ⟨hc₁, rfl, hpos₁⟩ := hout
  refine (cursorRead_meets hsize hc₁ 4).bind fun out hout => ?_
  obtain ⟨type, c₂⟩ := out
  obtain ⟨hc₂, hpos₂, rfl⟩ := hout
  dsimp only at hpos₁ hpos₂ hc₁ hc₂ ⊢
  -- the cursor that reads the alignment stays in the file as well
  have htmp : ∀ out : Nat × Cursor, cursorU32 file { pos := c₂.pos } = .ok out →
      Cursor.Inside file { c₂ with trail := c₂.trail ++ out.2.trail } := by
    intro out hout
    have hread := cursorRead_meets hsize (c := { pos := c₂.pos }) ⟨hc₂.pos, by simp⟩ 4
    exact ⟨hc₂.pos, List.forall_mem_append.mpr ⟨hc₂.trail, (hread.of_ok hout).1.trail⟩⟩
  have hvalue (alignment : Nat) {c₃ : Cursor} (hc₃ : c₃.Inside file) (hpos₃ : c₃.pos = c₂.pos) :
      Meets (Die.Inside file)
        (fun out : (Kv × Nat) × Cursor =>
          out.2.Inside file ∧ out.1.1.Inside file ∧ kvEnd file c.pos = some out.2.pos)
        (do
          let later ← skipValue file 9 (word file c₁.pos 4) c₃
          return ((⟨⟨c.pos + 8, word file c.pos 8⟩, word file c₁.pos 4, c₂.pos⟩, alignment), later)) := by
    refine (skipValue_meets hsize 9 _ hc₃).bind fun later hlater => ?_
    obtain ⟨hlater, hstop⟩ := hlater
    rw [hpos₃] at hstop
    refine ⟨hlater, ⟨?_, later.pos, hstop, hlater.pos⟩, ?_⟩
    · have hkey := hc₁.pos
      rw [hpos₁] at hkey
      exact hkey
    · rw [hpos₂, hpos₁] at hstop
      exact hstop
  split
  · split
    · next word tmp hread => exact hvalue _ (htmp _ hread) rfl
    · exact hvalue _ hc₂ rfl
  · exact hvalue _ hc₂ rfl

theorem parseKvs_meets (hsize : file.length < 2 ^ 63) (n alignment : Nat) {c : Cursor} (hc : c.Inside file) :
    Meets (Die.Inside file)
      (fun out => out.2.Inside file ∧ (∀ kv ∈ out.1.1, Kv.Inside file kv) ∧
        (· >>= kvEnd file)^[n] (some c.pos) = some out.2.pos)
      (parseKvs file n alignment c) := by
  induction n generalizing alignment c with
  | zero => exact ⟨hc, by simp, rfl⟩
  | succ n ih =>
    refine (parseKv_meets hsize alignment hc).bind fun out hout => ?_
    obtain ⟨⟨kv, alignment'⟩, c₁⟩ := out
    obtain ⟨hc₁, hkv, hend⟩ := hout
    refine (ih alignment' hc₁).bind fun out hout => ?_
    obtain ⟨⟨kvs, alignment''⟩, c₂⟩ := out
    obtain ⟨hc₂, hkvs, hends⟩ := hout
    refine ⟨hc₂, List.forall_mem_cons.mpr ⟨hkv, hkvs⟩, ?_⟩
    rw [Function.iterate_succ_apply, Option.bind_eq_bind, Option.bind_some, hend]
    exact hends

/-! ## Tensors -/

/-- The elements are counted without overflow. -/
theorem parseDims_meets (hsize : file.length < 2 ^ 63) (n elements : Nat) (helements : elements < 2 ^ 64) {c : Cursor}
    (hc : c.Inside file) :
    Meets (Die.Inside file)
      (fun out => out.2.Inside file ∧ out.1.1 = (List.range n).map (fun d => word file (c.pos + 8 * d) 8) ∧
        out.1.2 = elements * out.1.1.prod ∧ out.1.2 < 2 ^ 64 ∧ out.2.pos = c.pos + 8 * n)
      (parseDims file n elements c) := by
  induction n generalizing elements c with
  | zero => exact ⟨hc, rfl, by simp, helements, rfl⟩
  | succ n ih =>
    refine (cursorRead_meets hsize hc 8).bind fun out hout => ?_
    obtain ⟨dim, c₁⟩ := out
    obtain ⟨hc₁, hpos₁, rfl⟩ := hout
    dsimp only at hc₁ hpos₁ ⊢
    split
    · exact hc₁.trail
    · next hfits =>
      have hmul : elements * word file c.pos 8 < 2 ^ 64 := by
        by_cases hzero : word file c.pos 8 = 0
        · simp [hzero]
        · rw [not_and, Nat.not_lt] at hfits
          have hle := (Nat.le_div_iff_mul_le (Nat.pos_of_ne_zero hzero)).mp (hfits hzero)
          unfold uint64Max at hle
          omega
      rw [Nat.mod_eq_of_lt hmul]
      refine (ih _ hmul hc₁).bind fun out hout => ?_
      obtain ⟨⟨dims, total⟩, c₂⟩ := out
      obtain ⟨hc₂, hdims, htotal, hlt, hpos₂⟩ := hout
      dsimp only at hdims htotal hlt hpos₂
      refine ⟨hc₂, ?_, ?_, hlt, ?_⟩
      · show word file c.pos 8 :: dims = _
        rw [List.range_succ_eq_map, List.map_cons, List.map_map, hdims, hpos₁]
        congr 1
        refine List.map_congr_left fun d _ => ?_
        show _ = word file (c.pos + 8 * (d + 1)) 8
        congr 1
        omega
      · show total = elements * (word file c.pos 8 :: dims).prod
        rw [htotal, List.prod_cons, Nat.mul_assoc]
      · show c₂.pos = _
        rw [hpos₂, hpos₁]
        omega

/-- A tensor as `parse_tensors` records it before it is placed. -/
structure Tensor.Recorded (file : List UInt8) (t : Tensor) : Prop where
  name : t.name.ptr + t.name.len ≤ file.length
  elements : t.dim.prod < 2 ^ 64
  bytes : t.bytes = (tensorNbytes t.type t.dim.prod).getD 0

theorem parseTensor_meets (hsize : file.length < 2 ^ 63) {c : Cursor} (hc : c.Inside file) :
    Meets (Die.Inside file)
      (fun out => out.2.Inside file ∧ out.1.Recorded file ∧ (out.1.entry, out.2.pos) = entryAt file c.pos)
      (parseTensor file c) := by
  refine (cursorString_meets hsize hc).bind fun out hout => ?_
  obtain ⟨name, c₁⟩ := out
  obtain ⟨hc₁, rfl, hpos₁⟩ := hout
  refine (cursorRead_meets hsize hc₁ 4).bind fun out hout => ?_
  obtain ⟨ndim, c₂⟩ := out
  obtain ⟨hc₂, hpos₂, rfl⟩ := hout
  dsimp only at hc₁ hpos₁ hc₂ hpos₂ ⊢
  split
  · exact hc₂.trail
  refine (parseDims_meets hsize _ 1 (by decide) hc₂).bind fun out hout => ?_
  obtain ⟨⟨dim, elements⟩, c₃⟩ := out
  obtain ⟨hc₃, hdim, helements, hlt, hpos₃⟩ := hout
  refine (cursorRead_meets hsize hc₃ 4).bind fun out hout => ?_
  obtain ⟨type, c₄⟩ := out
  obtain ⟨hc₄, hpos₄, rfl⟩ := hout
  refine (cursorRead_meets hsize hc₄ 8).bind fun out hout => ?_
  obtain ⟨relOffset, c₅⟩ := out
  obtain ⟨hc₅, hpos₅, rfl⟩ := hout
  dsimp only at hdim helements hlt hpos₃ hpos₄ hpos₅
  rw [Nat.one_mul] at helements
  subst helements
  refine ⟨hc₅, ⟨?_, hlt, rfl⟩, ?_⟩
  · have hname := hc₁.pos
    rw [hpos₁] at hname
    exact hname
  · have hat₂ : c₂.pos = c.pos + 8 + word file c.pos 8 + 4 := by rw [hpos₂, hpos₁]
    have hat₃ : c₃.pos = c₂.pos + 8 * word file c₁.pos 4 := hpos₃
    simp only [entryAt, Tensor.entry, Prod.mk.injEq, Entry.mk.injEq]
    rw [hdim, hpos₅, hpos₄, hat₃, hat₂, hpos₁]
    simp

theorem parseDirectory_meets (hsize : file.length < 2 ^ 63) (n : Nat) {c : Cursor} (hc : c.Inside file) :
    Meets (Die.Inside file)
      (fun out => out.2.Inside file ∧ (∀ t ∈ out.1, Tensor.Recorded file t) ∧
        out.1.map Tensor.entry = entriesAt file n c.pos)
      (parseDirectory file n c) := by
  induction n generalizing c with
  | zero => exact ⟨hc, by simp, rfl⟩
  | succ n ih =>
    refine (parseTensor_meets hsize hc).bind fun out hout => ?_
    obtain ⟨t, c₁⟩ := out
    obtain ⟨hc₁, ht, hentry⟩ := hout
    refine (ih hc₁).bind fun out hout => ?_
    obtain ⟨ts, c₂⟩ := out
    obtain ⟨hc₂, hts, hentries⟩ := hout
    refine ⟨hc₂, List.forall_mem_cons.mpr ⟨ht, hts⟩, ?_⟩
    show t.entry :: ts.map Tensor.entry = _
    rw [hentries, entriesAt, ← hentry]

/-- Every byte of the tensor is a byte of the file. -/
def Tensor.InRange (file : List UInt8) (t : Tensor) : Prop :=
  ∀ p, t.absOffset ≤ p → p < t.absOffset + t.bytes → p < file.length

theorem alignUp_le (value alignment : Nat) (h : value < 2 ^ 64) : alignUp value alignment ≤ uint64Max := by
  unfold alignUp uint64Max
  dsimp only
  split <;> omega

theorem placeTensor_meets {c : Cursor} (hc : c.Inside file) {tensorDataPos : Nat} (hdata : tensorDataPos ≤ uint64Max)
    (t : Tensor) :
    Meets (Die.Inside file)
      (fun placed => placed = { t with absOffset := tensorDataPos + t.relOffset } ∧ placed.InRange file)
      (placeTensor file c tensorDataPos t) := by
  unfold placeTensor
  split
  · exact hc.trail
  next hoffset =>
  have habs : (tensorDataPos + t.relOffset) % 2 ^ 64 = tensorDataPos + t.relOffset := by
    unfold uint64Max at hdata hoffset
    exact Nat.mod_eq_of_lt (by omega)
  dsimp only
  rw [habs]
  split
  · exact hc.trail
  · next hrange =>
    refine ⟨rfl, fun p hfrom hto => ?_⟩
    dsimp only at hfrom hto
    omega

/-! ## The size of a tensor -/

theorem tensorType_pos {type : Nat} {info : TypeInfo} (h : tensorType type = some info) :
    0 < info.blockElems ∧ info.blockElems ≤ 256 ∧ 0 < info.blockBytes := by
  unfold tensorType at h
  split at h <;> cases h <;> decide

/-- The recorded size of a tensor is its size just when neither the elements with a block behind them nor the size
leave 64 bits. -/
theorem tensorNbytes_exact_iff {type elements : Nat} {info : TypeInfo} (htype : tensorType type = some info)
    (helements : elements < 2 ^ 64) :
    (tensorNbytes type elements).getD 0 = elements ⌈/⌉ info.blockElems * info.blockBytes ↔
      elements + info.blockElems ≤ 2 ^ 64 ∧ elements ⌈/⌉ info.blockElems * info.blockBytes < 2 ^ 64 := by
  obtain ⟨helems, hsmall, hbytes⟩ := tensorType_pos htype
  rw [Nat.ceilDiv_eq_add_pred_div]
  simp only [tensorNbytes, htype, if_neg (Nat.ne_of_gt helems)]
  by_cases hround : elements + info.blockElems ≤ 2 ^ 64
  · -- the blocks are counted without overflow
    have hblocks : (elements + info.blockElems + uint64Max) % 2 ^ 64 = elements + info.blockElems - 1 := by
      unfold uint64Max
      omega
    rw [hblocks, and_iff_right hround]
    split
    · next hmany =>
      have hlarge := (Nat.div_lt_iff_lt_mul hbytes).mp hmany
      unfold uint64Max at hlarge
      rw [Option.getD_none]
      omega
    · next hfew =>
      have hsize := (Nat.le_div_iff_mul_le hbytes).mp (Nat.le_of_not_gt hfew)
      unfold uint64Max at hsize
      have hlt : (elements + info.blockElems - 1) / info.blockElems * info.blockBytes < 2 ^ 64 := by omega
      rw [Option.getD_some, Nat.mod_eq_of_lt hlt]
      exact iff_of_true rfl hlt
  · -- the count wraps around, and no block is left
    have hblocks : (elements + info.blockElems + uint64Max) % 2 ^ 64 < info.blockElems := by
      unfold uint64Max
      omega
    rw [Nat.div_eq_of_lt hblocks, if_neg (Nat.not_lt_zero _), Option.getD_some, Nat.zero_mul, Nat.zero_mod]
    refine iff_of_false (fun hzero => ?_) fun h => hround h.1
    have hpos : 0 < (elements + info.blockElems - 1) / info.blockElems := Nat.div_pos (by omega) helems
    exact Nat.ne_of_lt (Nat.mul_pos hpos hbytes) hzero

/-! ## The loaded file -/

/-- Everything that is recorded lies in the file. -/
structure Model.Inside (file : List UInt8) (m : Model) : Prop where
  kv : ∀ kv ∈ m.kv, kv.Inside file
  names : ∀ t ∈ m.directory.tensors, t.name.ptr + t.name.len ≤ file.length
  placed : ∀ t ∈ m.directory.tensors, t.absOffset = m.directory.tensorDataPos + t.relOffset
  ranges : ∀ t ∈ m.directory.tensors, t.InRange file

theorem parseTensors_meets (hsize : file.length < 2 ^ 63) (alloc : Nat → Bool) (n alignment : Nat) {c : Cursor}
    (hc : c.Inside file) :
    Meets (Die.Inside file)
      (fun out => out.2.Inside file ∧
        (∀ t ∈ out.1.tensors, t.Recorded file ∧ t.absOffset = out.1.tensorDataPos + t.relOffset ∧ t.InRange file) ∧
        out.1.tensors.map Tensor.entry = entriesAt file n c.pos)
      (parseTensors file alloc n alignment c) := by
  unfold parseTensors
  split
  · exact hc.trail
  split
  · exact hc.trail
  refine (parseDirectory_meets hsize n hc).bind fun out hout => ?_
  obtain ⟨directory, c₁⟩ := out
  obtain ⟨hc₁, hrecorded, hentries⟩ := hout
  have hdata := alignUp_le c₁.pos alignment (hc₁.pos.trans_lt (hsize.trans (by decide)))
  refine (Meets.mapM fun t _ => placeTensor_meets hc₁ hdata t).bind fun tensors htensors => ?_
  refine ⟨hc₁, fun t ht => ?_, ?_⟩
  · obtain ⟨recorded, hmem, hplaced, hrange⟩ := Traverse.forall₂_exists_left htensors ht
    have hold := hrecorded recorded hmem
    refine ⟨⟨?_, ?_, ?_⟩, ?_, hrange⟩ <;> rw [hplaced]
    · exact hold.name
    · exact hold.elements
    · exact hold.bytes
  · have hmap : List.Forall₂ Eq (tensors.map Tensor.entry) (directory.map Tensor.entry) := by
      rw [List.forall₂_map_left_iff, List.forall₂_map_right_iff]
      exact htensors.flip.imp fun placed t h => by rw [h.1]; rfl
    rw [List.forall₂_eq_eq_eq] at hmap
    exact hmap.trans hentries

theorem modelOpen_meets (hsize : file.length < 2 ^ 63) (allocKv allocTensors : Nat → Bool) :
    Meets (Die.Inside file)
      (fun m => m.cursor.Inside file ∧ m.Inside file ∧ (∀ t ∈ m.directory.tensors, t.Recorded file) ∧
        described file = some (m.directory.tensors.map Tensor.entry))
      (modelOpen file allocKv allocTensors) := by
  have hstart : Cursor.Inside file { pos := 0 } := ⟨Nat.zero_le _, by simp⟩
  unfold modelOpen
  dsimp only
  split
  · exact hstart.trail
  refine (cursorRead_meets hsize hstart 4).bind fun out hout => ?_
  obtain ⟨magic, c₁⟩ := out
  obtain ⟨hc₁, hpos₁, rfl⟩ := hout
  dsimp only at hc₁ hpos₁ ⊢
  split
  · exact hc₁.trail
  refine (cursorRead_meets hsize hc₁ 4).bind fun out hout => ?_
  obtain ⟨version, c₂⟩ := out
  obtain ⟨hc₂, hpos₂, rfl⟩ := hout
  refine (cursorRead_meets hsize hc₂ 8).bind fun out hout => ?_
  obtain ⟨nTensors, c₃⟩ := out
  obtain ⟨hc₃, hpos₃, rfl⟩ := hout
  refine (cursorRead_meets hsize hc₃ 8).bind fun out hout => ?_
  obtain ⟨nKv, c₄⟩ := out
  obtain ⟨hc₄, hpos₄, rfl⟩ := hout
  dsimp only at hpos₂ hpos₃ hpos₄ hc₄ ⊢
  split
  · exact hc₄.trail
  unfold parseMetadata
  split
  · exact hc₄.trail
  split
  · exact hc₄.trail
  refine (parseKvs_meets hsize _ 32 hc₄).bind fun out hout => ?_
  obtain ⟨⟨kv, alignment⟩, c₅⟩ := out
  obtain ⟨hc₅, hkv, hends⟩ := hout
  refine (parseTensors_meets hsize allocTensors _ alignment hc₅).bind fun out hout => ?_
  obtain ⟨directory, c₆⟩ := out
  obtain ⟨hc₆, htensors, hentries⟩ := hout
  refine ⟨hc₆, ⟨hkv, fun t ht => (htensors t ht).1.name, fun t ht => (htensors t ht).2.1,
    fun t ht => (htensors t ht).2.2⟩, fun t ht => (htensors t ht).1, ?_⟩
  dsimp only at hends hentries
  rw [hpos₁] at hpos₂
  rw [hpos₂] at hpos₃ hentries
  rw [hpos₃] at hpos₄ hends
  rw [hpos₄] at hends
  have hdescribed : described file = (some c₅.pos).map (entriesAt file (word file 8 8)) := congrArg _ hends
  rw [hdescribed, Option.map_some]
  exact congrArg some hentries.symm

/-- The recorded size of a tensor of a supported type is its size. -/
def Tensor.Exact (t : Tensor) : Prop := ∀ info, tensorType t.type = some info → t.bytes = t.entry.size info

/-- What a loader that admits only tensors of the file has: the cursor stays in it, and so does what is recorded, with
the sizes of the tensors. -/
structure Bounded (file : List UInt8) (allocKv allocTensors : Nat → Bool) : Prop where
  cursor : Meets (Die.Inside file) (fun m => m.cursor.Inside file) (modelOpen file allocKv allocTensors)
  inside : ∀ m, modelOpen file allocKv allocTensors = .ok m → m.Inside file
  sizes : ∀ m, modelOpen file allocKv allocTensors = .ok m → ∀ t ∈ m.directory.tensors, t.Exact

theorem exact_iff_fits {t : Tensor} (h : t.Recorded file) : t.Exact ↔ t.entry.Fits := by
  constructor
  · intro hexact info htype
    have hbytes := hexact info htype
    rw [h.bytes] at hbytes
    exact (tensorNbytes_exact_iff htype h.elements).mp hbytes
  · intro hfits info htype
    rw [h.bytes]
    exact (tensorNbytes_exact_iff htype h.elements).mpr (hfits info htype)

/-- **What a loaded file holds.** The cursor never leaves the file, and the keys, the values, the names and the
recorded bytes of the tensors of a file that is loaded lie in it. The sizes of its tensors are recorded just when every
tensor of a supported type fits in 64 bits. -/
theorem modelOpen_bounded_iff (file : List UInt8) (allocKv allocTensors : Nat → Bool) (hsize : file.length < 2 ^ 63) :
    Meets (Die.Inside file) (fun m => m.cursor.Inside file ∧ m.Inside file) (modelOpen file allocKv allocTensors) ∧
    (Bounded file allocKv allocTensors ↔ ((∃ m, modelOpen file allocKv allocTensors = .ok m) →
      ∀ entries, described file = some entries → ∀ e ∈ entries, e.Fits)) := by
  have hmeets := modelOpen_meets hsize allocKv allocTensors
  refine ⟨hmeets.mono fun m h => ⟨h.1, h.2.1⟩, ?_, ?_⟩
  · rintro hbounded ⟨m, hm⟩ entries hentries e he
    obtain ⟨-, -, hrecorded, hdescribed⟩ := hmeets.of_ok hm
    obtain rfl := Option.some.inj (hentries.symm.trans hdescribed)
    obtain ⟨t, ht, rfl⟩ := List.mem_map.mp he
    exact (exact_iff_fits (hrecorded t ht)).mp (hbounded.sizes m hm t ht)
  · intro hfits
    refine ⟨hmeets.mono fun m h => h.1, fun m hm => (hmeets.of_ok hm).2.1, fun m hm t ht => ?_⟩
    obtain ⟨-, -, hrecorded, hdescribed⟩ := hmeets.of_ok hm
    exact (exact_iff_fits (hrecorded t ht)).mpr (hfits ⟨m, hm⟩ _ hdescribed _ (List.mem_map_of_mem ht))

/-! ## Two files -/

/-- A file without metadata and with one tensor: its dimension, its type and its bytes. -/
def sampleFile (dim type : Nat) (data : List UInt8) : List UInt8 :=
  leBytes 4 ggufMagic ++ leBytes 4 3 ++ leBytes 8 1 ++ leBytes 8 0 ++
    (leBytes 8 1 ++ [0x61] ++ leBytes 4 1 ++ leBytes 8 dim ++ leBytes 4 type ++ leBytes 8 0) ++
    List.replicate 7 0 ++ data

theorem sampleFile_bounded : Bounded (sampleFile 1 0 [0, 0, 0x80, 0x3f]) (fun _ => true) fun _ => true := by
  refine (modelOpen_bounded_iff _ _ _ (by decide +kernel)).2.mpr fun _ entries hentries e he => ?_
  have hdescribed : described (sampleFile 1 0 [0, 0, 0x80, 0x3f]) = some [⟨⟨32, 1⟩, [1], 0, 0⟩] := by decide +kernel
  obtain rfl := Option.some.inj (hdescribed.symm.trans hentries)
  obtain rfl := List.mem_singleton.mp he
  intro info htype
  cases htype
  exact ⟨by decide, by decide⟩

/-- The size of this tensor has 65 bits. `tensor_nbytes` returns false, and the tensor is recorded with no bytes at
all. -/
theorem oversized_tensor_loaded : ¬ Bounded (sampleFile (2 ^ 62) 0 []) (fun _ => true) fun _ => true := by
  intro h
  have hopen : modelOpen (sampleFile (2 ^ 62) 0 []) (fun _ => true) (fun _ => true) =
      .ok ⟨3, 32, [], ⟨[⟨⟨32, 1⟩, [2 ^ 62], 0, 0, 64, 2 ^ 62, 0⟩], 64, 0⟩,
        ⟨57, [4, 8, 16, 24, 32, 33, 37, 45, 49, 57]⟩⟩ := rfl
  have hsize := h.sizes _ hopen _ List.mem_cons_self ⟨1, 4⟩ rfl
  exact absurd hsize (by decide)

end Spark.Gguf
