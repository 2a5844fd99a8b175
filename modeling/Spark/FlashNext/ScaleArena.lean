import Mathlib.Algebra.BigOperators.Group.List.Basic
import Mathlib.Order.Interval.Finset.Nat
import Spark.FlashNext.GroupedLayout

/-!
# The arena of the expert scales

The row counts of the experts determine a layout: expert `i` begins at `rowStart`, the sum of the padded counts
before it, and its scales at `scaleOffset`, that sum spread by 127 rows for each expert and rounded down to a tile.

* **`ends_fromExpertRows`** — what a layout that is returned looks like, and when none is.
* **`scaleOffset_step`** — the scales of an expert end before those of the next begin.
* **`scale_arenas_disjoint`** — no two experts share a scale tile, and all are inside the arena.
-/

namespace Spark.FlashNext

open Outcome

/-! ## The layout in closed form -/

/-- The next multiple of `alignment`. -/
def roundUp (value alignment : Nat) : Nat := (value + (alignment - 1)) / alignment * alignment

/-- The rows of an expert, padded for the GEMM. -/
def padRows (rows : Nat) : Nat := roundUp rows 4

/-- The rows before expert `i`. -/
def rowStart (expertRows : List Nat) (i : Nat) : Nat := ((expertRows.take i).map padRows).sum

def scaleOffset (expertRows : List Nat) (i : Nat) : Nat := (rowStart expertRows i + i * 127) / 128 * 128

/-- The scale rows of an expert; one tile for an expert that has none. -/
def scaleRows (rows : Nat) : Nat := if rows = 0 then 128 else roundUp (padRows rows) 128

@[simp] theorem rowStart_zero (expertRows : List Nat) : rowStart expertRows 0 = 0 := rfl

theorem rowStart_succ {expertRows : List Nat} {i rows : Nat} (h : expertRows[i]? = some rows) :
    rowStart expertRows (i + 1) = rowStart expertRows i + padRows rows := by
  obtain ⟨hlt, hget⟩ := List.getElem?_eq_some_iff.mp h
  rw [rowStart, List.take_succ_eq_append_getElem hlt, List.map_append, List.sum_append, hget]
  simp [rowStart]

theorem rowStart_mono (expertRows : List Nat) {i j : Nat} (h : i ≤ j) :
    rowStart expertRows i ≤ rowStart expertRows j := by
  obtain ⟨rest, hrest⟩ := List.take_prefix_take_left (l := expertRows) h
  rw [rowStart, rowStart, ← hrest, List.map_append, List.sum_append]
  exact Nat.le_add_right _ _

theorem padRows_mod (rows : Nat) : padRows rows % 4 = 0 := by
  unfold padRows roundUp
  omega

theorem le_padRows (rows : Nat) : rows ≤ padRows rows := by
  unfold padRows roundUp
  omega

theorem padRows_eq_zero {rows : Nat} : padRows rows = 0 ↔ rows = 0 := by
  unfold padRows roundUp
  omega

theorem rowStart_mod (expertRows : List Nat) (i : Nat) : rowStart expertRows i % 4 = 0 := by
  unfold rowStart
  induction expertRows.take i with
  | nil => rfl
  | cons rows rest ih =>
    have := padRows_mod rows
    rw [List.map_cons, List.sum_cons]
    omega

/-- What the loop has written after `count` experts. -/
structure GroupedExpertLayout.Holds (expertRows : List Nat) (count : Nat) (layout : GroupedExpertLayout) : Prop where
  mIndptr : layout.mIndptr = (List.range (count + 1)).map fun i => (rowStart expertRows i : Int)
  scaleRowOffsets : layout.scaleRowOffsets = (List.range count).map (scaleOffset expertRows)
  totalRows : layout.totalRows = rowStart expertRows count
  inside : ∀ i rows, i < count → expertRows[i]? = some rows →
    scaleOffset expertRows i + scaleRows rows ≤ layout.inputScaleRows
  reached : count = 0 ∧ layout.inputScaleRows = 0 ∨ ∃ i rows, i < count ∧ expertRows[i]? = some rows ∧
    layout.inputScaleRows = scaleOffset expertRows i + scaleRows rows
  representable : rowStart expertRows count < 2 ^ 31

theorem ends_alignUp {value alignment : Nat} (hvalue : value ≠ 0) (hpos : 0 < alignment) :
    Ends (· = roundUp value alignment) (fun _ => 2 ^ 64 ≤ value + alignment) (alignUp value alignment) := by
  have hdiv := Nat.div_add_mod' value alignment
  rw [alignUp, if_neg hvalue]
  simp only
  split
  · next hrem =>
    show value = (value + (alignment - 1)) / alignment * alignment
    have hq : (value + (alignment - 1)) / alignment = value / alignment := by
      rw [Nat.div_eq_iff hpos]
      omega
    rw [hq]
    omega
  · next hrem =>
    have hlt := Nat.mod_lt value hpos
    refine ends_checkedAdd (fun _ => ?_) (fun h => by omega)
    show value + (alignment - value % alignment) = (value + (alignment - 1)) / alignment * alignment
    have hq : (value + (alignment - 1)) / alignment = value / alignment + 1 := by
      rw [Nat.div_eq_iff hpos, Nat.add_mul, Nat.one_mul]
      omega
    rw [hq, Nat.add_mul, Nat.one_mul]
    omega

/-- The padded rows of an expert, as the loop computes them. -/
theorem ends_padded (rows : Nat) :
    Ends (· = padRows rows) (fun _ => 2 ^ 31 ≤ padRows rows) (if rows = 0 then .ok 0 else alignUp rows 4) := by
  have hle := le_padRows rows
  split
  · next h =>
    subst h
    rfl
  · next h => exact (ends_alignUp h (by omega)).mono (fun _ => id) (fun _ he => by omega)

/-- The scale rows of an expert, as the loop computes them. -/
theorem ends_scaleRows (rows : Nat) :
    Ends (· = scaleRows rows) (fun _ => 2 ^ 31 ≤ padRows rows)
      (if padRows rows = 0 then .ok 128 else alignUp (padRows rows) 128) := by
  unfold scaleRows
  by_cases h : rows = 0
  · rw [if_pos h, if_pos (padRows_eq_zero.mpr h)]
    rfl
  · have hne : padRows rows ≠ 0 := fun hz => h (padRows_eq_zero.mp hz)
    rw [if_neg h, if_neg hne]
    exact (ends_alignUp hne (by omega)).mono (fun _ => id) (fun _ he => by omega)

theorem scaleRows_le (rows : Nat) : scaleRows rows ≤ padRows rows + 128 := by
  unfold scaleRows roundUp
  split <;> omega

/-- One round of the loop. -/
theorem ends_pushExpert {expertRows : List Nat} {i rows : Nat} {layout : GroupedExpertLayout} (hi : i < 512)
    (hrows : expertRows[i]? = some rows) (h : layout.Holds expertRows i) :
    Ends (GroupedExpertLayout.Holds expertRows (i + 1)) (fun _ => 2 ^ 31 ≤ rowStart expertRows (i + 1))
      (layout.pushExpert i rows) := by
  have hnext := rowStart_succ hrows
  have hbound := h.representable
  have htile := scaleRows_le rows
  have hoffset : scaleOffset expertRows i ≤ rowStart expertRows i + i * 127 := Nat.div_mul_le_self _ _
  unfold GroupedExpertLayout.pushExpert
  refine ((ends_padded rows).mono (fun _ => id) (fun _ he => by omega)).bind fun paddedRows hpadded => ?_
  subst hpadded
  refine (ends_checkedMul (Q := (· = i * 127)) (fun _ => rfl) (fun he => by omega)).bind fun spread hspread => ?_
  subst hspread
  rw [h.totalRows]
  refine (ends_checkedAdd (Q := (· = rowStart expertRows i + i * 127)) (fun _ => rfl)
    (fun he => by omega)).bind fun numerator hnumerator => ?_
  subst hnumerator
  refine ((ends_scaleRows rows).mono (fun _ => id) (fun _ he => by omega)).bind fun expertScaleRows hscale => ?_
  subst hscale
  refine (ends_checkedAdd (Q := (· = scaleOffset expertRows i + scaleRows rows)) (fun _ => rfl)
    (fun he => by omega)).bind fun scaleEnd hend => ?_
  subst hend
  refine (ends_checkedAdd (Q := (· = rowStart expertRows (i + 1))) (fun _ => hnext.symm)
    (fun he => by omega)).bind fun totalRows htotal => ?_
  subst htotal
  unfold i32OfU64
  split
  · next hsmall =>
    refine Ends.bind (Q := (· = (rowStart expertRows (i + 1) : Int))) rfl fun rowEnd hrowEnd => ?_
    subst hrowEnd
    refine ⟨?_, ?_, rfl, fun j r hj hr => ?_, ?_, hsmall⟩
    · rw [h.mIndptr, List.range_succ (n := i + 1), List.map_append]
      rfl
    · rw [h.scaleRowOffsets, List.range_succ, List.map_append]
      rfl
    · rcases Nat.lt_succ_iff_lt_or_eq.mp hj with hlt | rfl
      · exact Nat.le_trans (h.inside j r hlt hr) (Nat.le_max_left _ _)
      · rw [hrows] at hr
        cases hr
        exact Nat.le_max_right _ _
    · -- the larger of the old end and the new one
      right
      rcases Nat.le_total layout.inputScaleRows (scaleOffset expertRows i + scaleRows rows) with hle | hle
      · exact ⟨i, rows, Nat.lt_succ_self i, hrows, Nat.max_eq_right hle⟩
      · rcases h.reached with ⟨-, hzero⟩ | ⟨j, r, hj, hr, heq⟩
        · exact ⟨i, rows, Nat.lt_succ_self i, hrows, Nat.max_eq_right (by omega)⟩
        · exact ⟨j, r, Nat.lt_succ_of_lt hj, hr, by rw [← heq]; exact Nat.max_eq_left hle⟩
  · next hlarge => exact Nat.le_of_not_lt hlarge

/-- **What a layout looks like**, and what was wrong with the counts where there is none. -/
theorem ends_fromExpertRows (expertRows : List Nat) :
    Ends
      (fun layout => layout.Holds expertRows expertRows.length ∧ expertRows.length ≤ 512 ∧
        rowStart expertRows expertRows.length ≠ 0)
      (fun _ => expertRows = [] ∨ 512 < expertRows.length ∨ rowStart expertRows expertRows.length = 0 ∨
        2 ^ 31 ≤ rowStart expertRows expertRows.length)
      (GroupedExpertLayout.fromExpertRows expertRows) := by
  unfold GroupedExpertLayout.fromExpertRows
  refine (ends_reject (Q := fun _ => expertRows.length ≤ 512) (fun h => by omega)
    (fun h => by tauto)).bind fun _ hlen => ?_
  have hloop := ends_forEach (P := GroupedExpertLayout.Holds expertRows)
    (E := fun _ : KernelContractError => 2 ^ 31 ≤ rowStart expertRows expertRows.length)
    (f := fun i rows layout => layout.pushExpert i rows)
    (b := { mIndptr := [0], scaleRowOffsets := [], totalRows := 0, inputScaleRows := 0 })
    ⟨rfl, rfl, rfl, fun i rows hi => absurd hi (Nat.not_lt_zero i), .inl ⟨rfl, rfl⟩, by simp⟩
    fun i rows layout hrows h => by
      have hi := (List.getElem?_eq_some_iff.mp hrows).1
      exact (ends_pushExpert (by omega) hrows h).mono (fun _ => id)
        fun _ he => Nat.le_trans he (rowStart_mono expertRows (Nat.succ_le_of_lt hi))
  refine (hloop.mono (fun _ => id) (fun _ he => .inr (.inr (.inr he)))).bind fun layout hlayout => ?_
  rw [hlayout.totalRows]
  exact (ends_reject (Q := fun _ => rowStart expertRows expertRows.length ≠ 0) id
    (fun h => .inr (.inr (.inl h)))).bind fun _ hne => ⟨hlayout, hlen, hne⟩

/-! ## No two experts share a tile -/

theorem scaleOffset_dvd (expertRows : List Nat) (i : Nat) : 128 ∣ scaleOffset expertRows i :=
  Nat.dvd_mul_left _ _

theorem scaleRows_dvd (rows : Nat) : 128 ∣ scaleRows rows := by
  unfold scaleRows
  split
  · exact Nat.dvd_refl _
  · exact Nat.dvd_mul_left _ _

/-- The rows of an expert begin at or before its scales. -/
theorem rowStart_le_scaleOffset (expertRows : List Nat) (i : Nat) :
    rowStart expertRows i ≤ scaleOffset expertRows i := by
  cases i with
  | zero => exact Nat.zero_le _
  | succ i =>
    -- the 127 rows of each expert before make up for the rounding
    unfold scaleOffset
    omega

/-- The scales of an expert with rows end before those of the next begin: the 127 rows that are added for it are
what its last tile may be longer than its rows. -/
theorem scaleOffset_step {expertRows : List Nat} {i rows : Nat} (h : expertRows[i]? = some rows) (hne : rows ≠ 0) :
    scaleOffset expertRows i + scaleRows rows ≤ scaleOffset expertRows (i + 1) := by
  have hnext := rowStart_succ h
  rw [scaleRows, if_neg hne]
  unfold scaleOffset roundUp
  omega

theorem scaleOffset_mono (expertRows : List Nat) {i j : Nat} (h : i ≤ j) :
    scaleOffset expertRows i ≤ scaleOffset expertRows j := by
  have := rowStart_mono expertRows h
  refine Nat.mul_le_mul_right _ (Nat.div_le_div_right ?_)
  omega

/-- The scale rows reserved from `offset` on for an expert. -/
def scaleInterval (offset rows : Nat) : Finset Nat := Finset.Ico offset (offset + scaleRows rows)

/-- The intervals of an expert with rows and of a later one are disjoint. -/
theorem disjoint_scaleInterval {expertRows : List Nat} {i j rows : Nat} (hij : i < j)
    (h : expertRows[i]? = some rows) (hne : rows ≠ 0) (rows' : Nat) :
    Disjoint (scaleInterval (scaleOffset expertRows i) rows) (scaleInterval (scaleOffset expertRows j) rows') := by
  have hstep := scaleOffset_step h hne
  have hmono := scaleOffset_mono expertRows (show i + 1 ≤ j from hij)
  rw [scaleInterval, scaleInterval, Finset.disjoint_left]
  intro row hrow hrow'
  rw [Finset.mem_Ico] at hrow hrow'
  omega

variable {expertRows : List Nat} {layout : GroupedExpertLayout}

theorem GroupedExpertLayout.Holds.offset_eq {count i offset : Nat} (h : layout.Holds expertRows count)
    (hoffset : layout.scaleRowOffsets[i]? = some offset) : i < count ∧ offset = scaleOffset expertRows i := by
  rw [h.scaleRowOffsets, List.getElem?_map] at hoffset
  obtain ⟨j, hj, rfl⟩ := Option.map_eq_some_iff.mp hoffset
  obtain ⟨hlt, hget⟩ := List.getElem?_eq_some_iff.mp hj
  rw [List.getElem_range] at hget
  rw [List.length_range] at hlt
  exact ⟨hlt, by rw [hget]⟩

theorem GroupedExpertLayout.Holds.inputScaleRows_dvd {count : Nat} (h : layout.Holds expertRows count) :
    128 ∣ layout.inputScaleRows := by
  rcases h.reached with ⟨-, hzero⟩ | ⟨i, rows, -, -, heq⟩
  · rw [hzero]
    exact Nat.dvd_zero _
  · rw [heq]
    exact Nat.dvd_add (scaleOffset_dvd _ _) (scaleRows_dvd _)

/-- The arena is at least as long as the padded rows: it reaches to the end of the last expert. -/
theorem GroupedExpertLayout.Holds.totalRows_le (h : layout.Holds expertRows expertRows.length) :
    layout.totalRows ≤ layout.inputScaleRows := by
  rw [h.totalRows]
  rcases Nat.eq_zero_or_pos expertRows.length with hzero | hpos
  · rw [hzero]
    exact Nat.zero_le _
  · obtain ⟨last, hlast⟩ : ∃ last, expertRows.length = last + 1 := ⟨expertRows.length - 1, by omega⟩
    have hget : expertRows[last]? = some expertRows[last] := List.getElem?_eq_getElem (by omega)
    have hin := h.inside last _ (by omega) hget
    have hstart := rowStart_le_scaleOffset expertRows last
    have hpad : padRows expertRows[last] ≤ scaleRows expertRows[last] := by
      unfold scaleRows
      split
      · next hz =>
        rw [padRows_eq_zero.mpr hz]
        exact Nat.zero_le _
      · unfold roundUp
        omega
    rw [hlast, rowStart_succ hget]
    omega

/-! ## The checks of the derived specifications -/

/-- Row counts that pass the padding check. -/
structure PaddedRows (totalRows inputScaleRows : Nat) : Prop where
  nonempty : totalRows ≠ 0
  rows : totalRows % 4 = 0
  arena : totalRows ≤ inputScaleRows
  tiles : inputScaleRows % 128 = 0

/-- The call does not fail for its padding. -/
def PaddingAccepted {α : Type} (x : Except KernelContractError α) : Prop :=
  Ends (fun _ => True) (· ≠ .invalidRoutedPadding) x

theorem PaddingAccepted.bind {α β : Type} {x : Except KernelContractError α} {f : α → Except KernelContractError β}
    (hx : PaddingAccepted x) (hf : ∀ a, PaddingAccepted (f a)) : PaddingAccepted (x >>= f) :=
  Ends.bind hx fun a _ => hf a

theorem paddingAccepted_checkedProduct (values : List Nat) : PaddingAccepted (checkedProduct values) :=
  ends_forEach (P := fun _ _ => True) trivial fun _ _ _ _ _ =>
    ends_checkedMul (fun _ => trivial) (fun _ => nofun)

theorem paddingAccepted_u32OfLength (length : Nat) : PaddingAccepted (u32OfLength length) := by
  unfold u32OfLength
  split
  · trivial
  · exact nofun

/-- A check that fails with another error. -/
theorem PaddingAccepted.check {α : Type} {bad : Prop} [Decidable bad] {e : KernelContractError}
    {f : Unit → Except KernelContractError α} (he : e ≠ .invalidRoutedPadding) (hf : PaddingAccepted (f ())) :
    PaddingAccepted (reject bad e >>= f) :=
  Ends.bind (Q := fun _ => True) (ends_reject (fun _ => trivial) (fun _ => he)) fun _ _ => hf

/-- The padding check itself. -/
theorem PaddingAccepted.pass {α : Type} {bad : Prop} [Decidable bad] {e : KernelContractError}
    {f : Unit → Except KernelContractError α} (hbad : ¬ bad) (hf : PaddingAccepted (f ())) :
    PaddingAccepted (reject bad e >>= f) :=
  Ends.bind (Q := fun _ => True) (ends_reject (fun _ => trivial) (fun h => absurd h hbad)) fun _ _ => hf

theorem paddingAccepted_grouped_bufferRequirements (spec : GroupedNvfp4Spec) :
    PaddingAccepted spec.bufferRequirements := by
  unfold GroupedNvfp4Spec.bufferRequirements
  refine (paddingAccepted_checkedProduct _).bind fun _ => ?_
  refine (paddingAccepted_checkedProduct _).bind fun _ => ?_
  refine (paddingAccepted_checkedProduct _).bind fun _ => ?_
  refine (paddingAccepted_checkedProduct _).bind fun _ => ?_
  exact (paddingAccepted_checkedProduct _).bind fun _ => trivial

theorem paddingAccepted_grouped_validate {spec : GroupedNvfp4Spec}
    (h : PaddedRows spec.totalRows spec.inputScaleRows) : PaddingAccepted spec.validate := by
  have hrows := h.rows
  have harena := h.arena
  have htiles := h.tiles
  unfold GroupedNvfp4Spec.validate
  refine .check nofun ?_
  refine .check nofun ?_
  refine .pass (by omega) ?_
  refine .check nofun ?_
  refine .check nofun ?_
  refine .check nofun ?_
  refine .check nofun ?_
  refine .check nofun ?_
  exact (paddingAccepted_grouped_bufferRequirements spec).bind fun _ => trivial

theorem paddingAccepted_qwenExpertProjection (h : PaddedRows layout.totalRows layout.inputScaleRows) (n k : Nat) :
    PaddingAccepted (GroupedNvfp4Spec.qwenExpertProjection layout n k) :=
  (paddingAccepted_u32OfLength _).bind fun _ => (paddingAccepted_grouped_validate h).bind fun _ => trivial

theorem paddingAccepted_segmented_bufferRequirements (bytesPerInput : Nat) (spec : SegmentedSpec) :
    PaddingAccepted (spec.bufferRequirements bytesPerInput) := by
  unfold SegmentedSpec.bufferRequirements
  refine (paddingAccepted_checkedProduct _).bind fun _ => ?_
  refine (paddingAccepted_checkedProduct _).bind fun _ => ?_
  refine (paddingAccepted_checkedProduct _).bind fun _ => ?_
  refine (paddingAccepted_checkedProduct _).bind fun _ => ?_
  refine (paddingAccepted_checkedProduct _).bind fun _ => ?_
  have hsum : ∀ metadata, PaddingAccepted (okOr (Word.checkedAdd 64 metadata 4) .dimensionOverflow) :=
    fun metadata => ends_checkedAdd (fun _ => trivial) (fun _ => nofun)
  exact (hsum _).bind fun _ => trivial

theorem paddingAccepted_segmented_validate {backend : KernelBackend} {bytesPerInput : Nat} {spec : SegmentedSpec}
    (h : PaddedRows spec.totalRows spec.inputScaleRows) : PaddingAccepted (spec.validate backend bytesPerInput) := by
  have hne := h.nonempty
  have hrows := h.rows
  have harena := h.arena
  have htiles := h.tiles
  unfold SegmentedSpec.validate
  refine .check nofun ?_
  refine .pass (by omega) ?_
  refine .check nofun ?_
  refine .check nofun ?_
  refine .check nofun ?_
  refine .check nofun ?_
  refine .check nofun ?_
  exact (paddingAccepted_segmented_bufferRequirements bytesPerInput spec).bind fun _ => trivial

theorem paddingAccepted_fromGroupedLayout (h : PaddedRows layout.totalRows layout.inputScaleRows)
    (backend : KernelBackend) (bytesPerInput hiddenSize : Nat) :
    PaddingAccepted (SegmentedSpec.fromGroupedLayout backend bytesPerInput layout hiddenSize) :=
  (paddingAccepted_u32OfLength _).bind fun _ => (paddingAccepted_segmented_validate h).bind fun _ => trivial

/-! ## The arena -/

structure GroupedExpertLayout.ArenaSafe (expertRows : List Nat) (layout : GroupedExpertLayout) : Prop where
  offsets : layout.scaleRowOffsets.length = expertRows.length
  aligned : ∀ offset ∈ layout.scaleRowOffsets, 128 ∣ offset
  disjoint : ∀ (i j offset offset' rows rows' : Nat), i ≠ j →
    layout.scaleRowOffsets[i]? = some offset → layout.scaleRowOffsets[j]? = some offset' →
    expertRows[i]? = some rows → expertRows[j]? = some rows' → rows ≠ 0 → rows' ≠ 0 →
    Disjoint (scaleInterval offset rows) (scaleInterval offset' rows')
  inside : ∀ (i offset rows : Nat), layout.scaleRowOffsets[i]? = some offset → expertRows[i]? = some rows →
    scaleInterval offset rows ⊆ Finset.range layout.inputScaleRows
  arena_aligned : 128 ∣ layout.inputScaleRows
  arena_large : layout.totalRows ≤ layout.inputScaleRows
  grouped : ∀ n k, GroupedNvfp4Spec.qwenExpertProjection layout n k ≠ .error .invalidRoutedPadding
  silu : ∀ hiddenSize, segmentedSiluNvfp4Spec layout hiddenSize ≠ .error .invalidRoutedPadding
  quantize : ∀ hiddenSize, segmentedNvfp4QuantizeSpec layout hiddenSize ≠ .error .invalidRoutedPadding

theorem GroupedExpertLayout.Holds.padded (h : layout.Holds expertRows expertRows.length)
    (hne : rowStart expertRows expertRows.length ≠ 0) : PaddedRows layout.totalRows layout.inputScaleRows where
  nonempty := by
    rw [h.totalRows]
    exact hne
  rows := by
    rw [h.totalRows]
    exact rowStart_mod _ _
  arena := h.totalRows_le
  tiles := Nat.mod_eq_zero_of_dvd h.inputScaleRows_dvd

/-- **The scale arenas of a layout never collide**, and every specification derived from it passes its padding
check. -/
theorem scale_arenas_disjoint (h : GroupedExpertLayout.fromExpertRows expertRows = .ok layout) :
    layout.ArenaSafe expertRows := by
  obtain ⟨hholds, -, hne⟩ := (ends_fromExpertRows expertRows).of_ok h
  have hpadded := hholds.padded hne
  refine
    { offsets := by simp [hholds.scaleRowOffsets]
      aligned := fun offset hoffset => ?_
      disjoint := fun i j offset offset' rows rows' hij hi hj hrows hrows' hne hne' => ?_
      inside := fun i offset rows hi hrows => ?_
      arena_aligned := hholds.inputScaleRows_dvd
      arena_large := hholds.totalRows_le
      grouped := fun n k hbad => (paddingAccepted_qwenExpertProjection hpadded n k).of_error hbad rfl
      silu := fun hiddenSize hbad => (paddingAccepted_fromGroupedLayout hpadded _ _ hiddenSize).of_error hbad rfl
      quantize := fun hiddenSize hbad => (paddingAccepted_fromGroupedLayout hpadded _ _ hiddenSize).of_error hbad rfl }
  · rw [hholds.scaleRowOffsets] at hoffset
    obtain ⟨i, -, rfl⟩ := List.mem_map.mp hoffset
    exact scaleOffset_dvd _ _
  · obtain ⟨-, rfl⟩ := hholds.offset_eq hi
    obtain ⟨-, rfl⟩ := hholds.offset_eq hj
    rcases Nat.lt_or_gt_of_ne hij with hlt | hgt
    · exact disjoint_scaleInterval hlt hrows hne rows'
    · exact (disjoint_scaleInterval hgt hrows' hne' rows).symm
  · obtain ⟨hlt, rfl⟩ := hholds.offset_eq hi
    have hin := hholds.inside i rows hlt hrows
    intro row hrow
    rw [scaleInterval, Finset.mem_Ico] at hrow
    exact Finset.mem_range.mpr (by omega)

/-- Three experts, the second of them empty. -/
theorem scale_arenas_disjoint_sample :
    GroupedExpertLayout.ArenaSafe [1, 0, 129]
      { mIndptr := [0, 4, 4, 136], scaleRowOffsets := [0, 128, 256], totalRows := 136, inputScaleRows := 512 } :=
  scale_arenas_disjoint (by decide)

end Spark.FlashNext
