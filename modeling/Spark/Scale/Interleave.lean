import Mathlib.Data.Set.Function
import Spark.Lib.Loops
import Spark.Sidecar.Source

/-!
# The swizzle of the scales

Three copies of `interleave_128x4`. Those of the expert cache and the sidecar builder compute where each four bytes
go, that of the scale packer runs a cursor.

* **`loops_eq`**, **`cursorLoops_eq`** — the loops, as one loop over the quads of the output.
* **`interleave_agree`** — the copies are one bijection.
-/

namespace Spark.Scale

variable {σ : Type}

/-- `output[destination..destination + 4].copy_from_slice(&input[source..source + 4])`. -/
def copyFour (input : List UInt8) (source destination : Nat) (output : List UInt8) : List UInt8 :=
  output.take destination ++ (input.drop source).take 4 ++ output.drop (destination + 4)

/-- The loops of the expert cache and the sidecar builder around one copy. -/
def loops (rows columns : Nat) (copy : (source destination : Nat) → σ → σ) (output : σ) : σ :=
  let columnBlocks := columns / 4
  (List.range (rows / 128)).foldl
    (fun output rowBlock => (List.range columnBlocks).foldl
      (fun output columnBlock => (List.range 32).foldl
        (fun output rowLane => (List.range 4).foldl
          (fun output rowFour =>
            let row := rowBlock * 128 + rowFour * 32 + rowLane
            let source := row * columns + columnBlock * 4
            let destination := (((rowBlock * columnBlocks + columnBlock) * 32 + rowLane) * 4 + rowFour) * 4
            copy source destination output)
          output)
        output)
      output)
    output

/-- `interleave_128x4` of the expert cache. -/
def interleave128x4 (input output : List UInt8) (rows columns : Nat) : List UInt8 :=
  loops rows columns (copyFour input) output

/-- The addresses the copies write, in order. -/
def written (rows columns : Nat) : List Nat :=
  loops rows columns (fun _ destination written => written ++ (List.range 4).map (destination + ·)) []

/-- The loops of the scale packer around one copy. The state has the cursor with it. -/
def cursorLoops (rows columns : Nat) (copy : (source destination : Nat) → σ → σ) (output : σ) : σ × Nat :=
  (List.range (rows / 128)).foldl
    (fun state rowBlock => (List.range (columns / 4)).foldl
      (fun state columnBlock => (List.range 32).foldl
        (fun state rowMinor => (List.range 4).foldl
          (fun (output, destination) rowQuadrant =>
            let row := rowBlock * 128 + rowQuadrant * 32 + rowMinor
            let source := row * columns + columnBlock * 4
            (copy source destination output, destination + 4))
          state)
        state)
      state)
    (output, 0)

/-- `interleave_128x4` of the scale packer. -/
def packInterleave (input : List UInt8) (rows columns : Nat) : Except String (List UInt8) :=
  if rows % 128 ≠ 0 ∨ columns % 4 ≠ 0 ∨ input.length ≠ rows * columns then
    .error s!"invalid q27 scale matrix [{rows},{columns}]"
  else .ok (cursorLoops rows columns (copyFour input) (List.replicate input.length 0)).1

/-- Where the element in `row` and `column` goes: tile by tile, then by `row % 32`, by the 32 rows it is in of the
128, and by `column % 4`. -/
def tile (columns row column : Nat) : Nat :=
  (((row / 128 * (columns / 4) + column / 4) * 32 + row % 32) * 4 + row % 128 / 32) * 4 + column % 4

/-! ## One loop -/

/-- How many copies there are. -/
def quads (rows columns : Nat) : Nat := rows / 128 * (columns / 4) * 32 * 4

/-- The source of copy `k`. -/
def sourceOf (columns k : Nat) : Nat :=
  (k / 4 / 32 / (columns / 4) * 128 + k % 4 * 32 + k / 4 % 32) * columns + k / 4 / 32 % (columns / 4) * 4

theorem loops_eq (rows columns : Nat) (copy : (source destination : Nat) → σ → σ) (output : σ) :
    loops rows columns copy output =
      (List.range (quads rows columns)).foldl (fun output k => copy (sourceOf columns k) (k * 4) output) output := by
  unfold loops quads
  rw [Loops.foldl_range_mul, Loops.foldl_range_mul, Loops.foldl_range_mul]
  refine List.foldl_ext _ _ _ fun output k _ => ?_
  rw [Nat.div_add_mod', Nat.div_add_mod', Nat.div_add_mod']
  rfl

theorem cursorLoops_eq (rows columns : Nat) (copy : (source destination : Nat) → σ → σ) (output : σ) :
    cursorLoops rows columns copy output = (loops rows columns copy output, quads rows columns * 4) := by
  have hcursor (n : Nat) : (List.range n).foldl (fun (state : σ × Nat) k =>
      (copy (sourceOf columns k) state.2 state.1, state.2 + 4)) (output, 0) =
        ((List.range n).foldl (fun output k => copy (sourceOf columns k) (k * 4) output) output, n * 4) := by
    induction n with
    | zero => rfl
    | succ n ih =>
      rw [List.range_succ, List.foldl_append, List.foldl_append, ih, Nat.succ_mul]
      rfl
  rw [loops_eq, ← hcursor]
  unfold cursorLoops quads
  rw [Loops.foldl_range_mul, Loops.foldl_range_mul, Loops.foldl_range_mul]
  rfl

/-! ## The output -/

variable {input output : List UInt8} {rows columns : Nat}

theorem copyFour_append (source : Nat) {front : List UInt8} {destination : Nat} (hfront : front.length = destination)
    (back : List UInt8) : copyFour input source destination (front ++ back) =
      front ++ (input.drop source).take 4 ++ back.drop 4 := by
  subst hfront
  rw [copyFour, List.take_left, ← List.drop_drop, List.drop_left]

/-- The copies in order, where each is four bytes long. -/
theorem foldl_copyFour {source : Nat → Nat} {n : Nat} (hsource : ∀ k < n, source k + 4 ≤ input.length)
    (houtput : output.length = n * 4) :
    (List.range n).foldl (fun output k => copyFour input (source k) (k * 4) output) output =
      (List.range n).flatMap fun k => (input.drop (source k)).take 4 := by
  have hfront (m : Nat) (hm : m ≤ n) :
      (List.range m).foldl (fun output k => copyFour input (source k) (k * 4) output) output =
        ((List.range m).flatMap fun k => (input.drop (source k)).take 4) ++ output.drop (m * 4) ∧
      ((List.range m).flatMap fun k => (input.drop (source k)).take 4).length = m * 4 := by
    induction m with
    | zero => exact ⟨rfl, rfl⟩
    | succ m ih =>
      obtain ⟨hfold, hlength⟩ := ih (by omega)
      have hfour : ((input.drop (source m)).take 4).length = 4 := by
        have hend := hsource m (by omega)
        rw [List.length_take, List.length_drop]
        omega
      rw [List.range_succ, List.foldl_append, hfold, List.flatMap_append, List.flatMap_singleton]
      refine ⟨?_, by rw [List.length_append, hlength, hfour, Nat.succ_mul]⟩
      show copyFour input (source m) (m * 4) _ = _
      rw [copyFour_append (source m) hlength, List.drop_drop, Nat.succ_mul]
  obtain ⟨hall, -⟩ := hfront n le_rfl
  rw [hall, List.drop_of_length_le houtput.le, List.append_nil]

/-- The same copies in a memory. -/
theorem foldl_write {source : Nat → Nat} {n : Nat} (hsource : ∀ k < n, source k + 4 ≤ input.length) (m : Mem UInt8) :
    ((List.range n).foldl (fun (m : Mem UInt8) k => m.write (k * 4) ((input.drop (source k)).take 4)) m).slice 0
      (n * 4) = (List.range n).flatMap fun k => (input.drop (source k)).take 4 := by
  induction n with
  | zero => rfl
  | succ n ih =>
    have hfour : ((input.drop (source n)).take 4).length = 4 := by
      have hend := hsource n (by omega)
      rw [List.length_take, List.length_drop]
      omega
    rw [List.range_succ, List.foldl_append, List.flatMap_append, List.flatMap_singleton,
      ← ih fun k hk => hsource k (by omega), Nat.succ_mul, Mem.slice_add, Nat.zero_add]
    simp only [List.foldl_cons, List.foldl_nil]
    congr 1
    · exact Mem.slice_write_of_apart _ (by omega)
    · have hself := Mem.slice_write_self ((List.range n).foldl (fun (m : Mem UInt8) k =>
        m.write (k * 4) ((input.drop (source k)).take 4)) m) (n * 4) ((input.drop (source n)).take 4)
      rwa [hfour] at hself

/-- The bytes of piece `k`, where all are four bytes long. -/
theorem getElem?_flatMap_four {piece : Nat → List UInt8} {n k j : Nat} (hpiece : ∀ k < n, (piece k).length = 4)
    (hk : k < n) (hj : j < 4) : ((List.range n).flatMap piece)[k * 4 + j]? = (piece k)[j]? := by
  have hlength (m : Nat) (hm : m ≤ n) : ((List.range m).flatMap piece).length = m * 4 := by
    induction m with
    | zero => rfl
    | succ m ih =>
      rw [List.range_succ, List.flatMap_append, List.flatMap_singleton, List.length_append, ih (by omega),
        hpiece m (by omega), Nat.succ_mul]
  obtain ⟨rest, rfl⟩ : ∃ rest, n = (k + 1) + rest := ⟨n - (k + 1), by omega⟩
  rw [List.range_add, List.flatMap_append, List.getElem?_append_left (by rw [hlength (k + 1) (by omega)]; omega),
    List.range_succ, List.flatMap_append, List.flatMap_singleton,
    List.getElem?_append_right (by rw [hlength k (by omega)]; omega), hlength k (by omega), Nat.add_sub_cancel_left]

/-! ## Rows and columns -/

theorem quads_mul (hrows : rows % 128 = 0) (hcolumns : columns % 4 = 0) : quads rows columns * 4 = rows * columns := by
  obtain ⟨rowBlocks, rfl⟩ : ∃ rowBlocks, rows = 128 * rowBlocks := ⟨rows / 128, by omega⟩
  obtain ⟨columnBlocks, rfl⟩ : ∃ columnBlocks, columns = 4 * columnBlocks := ⟨columns / 4, by omega⟩
  rw [quads, Nat.mul_div_cancel_left _ (by omega), Nat.mul_div_cancel_left _ (by omega)]
  ring

theorem row_digits {rowBlock four lane : Nat} (hfour : four < 4) (hlane : lane < 32) :
    (rowBlock * 128 + four * 32 + lane) / 128 = rowBlock ∧ (rowBlock * 128 + four * 32 + lane) % 32 = lane ∧
      (rowBlock * 128 + four * 32 + lane) % 128 / 32 = four := by
  have hmod : (rowBlock * 128 + four * 32 + lane) % 128 = four * 32 + lane := by omega
  rw [hmod]
  omega

theorem digits_inj {a a' lane lane' four four' j j' : Nat} (hlane : lane < 32) (hlane' : lane' < 32) (hfour : four < 4)
    (hfour' : four' < 4) (hj : j < 4) (hj' : j' < 4)
    (h : ((a * 32 + lane) * 4 + four) * 4 + j = ((a' * 32 + lane') * 4 + four') * 4 + j') :
    a = a' ∧ lane = lane' ∧ four = four' ∧ j = j' := by
  omega

/-- Every copy has a row and a block of columns. -/
theorem sourceOf_eq (hrows : rows % 128 = 0) {k : Nat} (hk : k < quads rows columns) :
    ∃ row < rows, ∃ block < columns / 4, sourceOf columns k = row * columns + block * 4 ∧
      ∀ j < 4, tile columns row (block * 4 + j) = k * 4 + j := by
  unfold quads at hk
  have hpos : 0 < columns / 4 := by
    by_contra hzero
    rw [Nat.eq_zero_of_not_pos hzero] at hk
    omega
  have hblock : k / 4 / 32 / (columns / 4) < rows / 128 :=
    Nat.div_lt_of_lt_mul (by rw [Nat.mul_comm]; omega)
  refine ⟨k / 4 / 32 / (columns / 4) * 128 + k % 4 * 32 + k / 4 % 32, by omega, k / 4 / 32 % (columns / 4),
    Nat.mod_lt _ hpos, rfl, fun j hj => ?_⟩
  have hpair : k / 4 / 32 / (columns / 4) * (columns / 4) + k / 4 / 32 % (columns / 4) = k / 4 / 32 :=
    Nat.div_add_mod' _ _
  have hk : (k / 4 / 32 * 32 + k / 4 % 32) * 4 + k % 4 = k := by rw [Nat.div_add_mod', Nat.div_add_mod']
  have hfour : k % 4 < 4 := Nat.mod_lt _ (by omega)
  have hlane : k / 4 % 32 < 32 := Nat.mod_lt _ (by omega)
  unfold tile
  generalize k / 4 / 32 / (columns / 4) = rowBlock at *
  generalize k / 4 / 32 % (columns / 4) = block at *
  generalize k / 4 % 32 = lane at *
  generalize k % 4 = four at *
  obtain ⟨hrowBlock, hrowLane, hrowFour⟩ := @row_digits rowBlock four lane hfour hlane
  obtain ⟨hblock, hminor⟩ := @Loops.div_mod_pair block j 4 hj
  rw [hrowBlock, hrowLane, hrowFour, hblock, hminor, hpair, hk]

theorem tile_lt (hrows : rows % 128 = 0) (hcolumns : columns % 4 = 0) {row column : Nat} (hrow : row < rows)
    (hcolumn : column < columns) : tile columns row column < rows * columns := by
  rw [← quads_mul hrows hcolumns, quads, tile]
  have hblock : row / 128 * (columns / 4) + column / 4 < rows / 128 * (columns / 4) :=
    calc row / 128 * (columns / 4) + column / 4
        _ < row / 128 * (columns / 4) + columns / 4 := by omega
        _ = (row / 128 + 1) * (columns / 4) := by rw [Nat.succ_mul]
        _ ≤ rows / 128 * (columns / 4) := Nat.mul_le_mul_right _ (by omega)
  omega

theorem tile_inj {row column row' column' : Nat} (hcolumns : columns % 4 = 0) (hcolumn : column < columns)
    (hcolumn' : column' < columns) (h : tile columns row column = tile columns row' column') :
    row = row' ∧ column = column' := by
  obtain ⟨hpair, hlane, hfour, hminor⟩ := digits_inj (Nat.mod_lt _ (by omega)) (Nat.mod_lt _ (by omega)) (by omega)
    (by omega) (Nat.mod_lt _ (by omega)) (Nat.mod_lt _ (by omega)) h
  obtain ⟨hdiv, hmod⟩ := @Loops.div_mod_pair (row / 128) (column / 4) (columns / 4) (by omega)
  obtain ⟨hdiv', hmod'⟩ := @Loops.div_mod_pair (row' / 128) (column' / 4) (columns / 4) (by omega)
  rw [hpair] at hdiv hmod
  have hblock : row / 128 = row' / 128 := hdiv.symm.trans hdiv'
  have hcolumnBlock : column / 4 = column' / 4 := hmod.symm.trans hmod'
  refine ⟨?_, by omega⟩
  have hrow : row % 128 = row' % 128 := by omega
  omega

/-! ## The three copies -/

/-- No copy leaves its buffer. -/
theorem sourceOf_le (hrows : rows % 128 = 0) {k : Nat} (hk : k < quads rows columns) :
    sourceOf columns k + 4 ≤ rows * columns := by
  obtain ⟨row, hrow, block, hblock, hsource, -⟩ := sourceOf_eq hrows hk
  calc sourceOf columns k + 4
      _ = row * columns + (block + 1) * 4 := by rw [hsource, Nat.add_assoc, Nat.succ_mul]
      _ ≤ row * columns + columns := by omega
      _ = (row + 1) * columns := by rw [Nat.succ_mul]
      _ ≤ rows * columns := Nat.mul_le_mul_right _ hrow

theorem interleave_eq (hrows : rows % 128 = 0) (hcolumns : columns % 4 = 0) (hinput : input.length = rows * columns)
    (houtput : output.length = rows * columns) : interleave128x4 input output rows columns =
      (List.range (quads rows columns)).flatMap fun k => (input.drop (sourceOf columns k)).take 4 := by
  rw [interleave128x4, loops_eq]
  refine foldl_copyFour (fun k hk => ?_) (by rw [houtput, quads_mul hrows hcolumns])
  rw [hinput]
  exact sourceOf_le hrows hk

theorem written_eq (hrows : rows % 128 = 0) (hcolumns : columns % 4 = 0) :
    written rows columns = List.range (rows * columns) := by
  rw [written, loops_eq, Loops.foldl_range_flatMap, List.nil_append, ← Loops.range_mul, quads_mul hrows hcolumns]

theorem tile_bijOn (hrows : rows % 128 = 0) (hcolumns : columns % 4 = 0) :
    Set.BijOn (fun place : Nat × Nat => tile columns place.1 place.2) {place | place.1 < rows ∧ place.2 < columns}
      {k | k < rows * columns} := by
  refine ⟨fun place hplace => tile_lt hrows hcolumns hplace.1 hplace.2, fun place hplace place' hplace' h => ?_,
    fun k hk => ?_⟩
  · obtain ⟨hrow, hcolumn⟩ := tile_inj hcolumns hplace.2 hplace'.2 h
    exact Prod.ext hrow hcolumn
  · have hquad : k / 4 < quads rows columns := by
      have hlt : k < rows * columns := hk
      rw [← quads_mul hrows hcolumns] at hlt
      omega
    obtain ⟨row, hrow, block, hblock, -, htile⟩ := sourceOf_eq hrows hquad
    refine ⟨(row, block * 4 + k % 4), ⟨hrow, by omega⟩, ?_⟩
    show tile columns row (block * 4 + k % 4) = k
    rw [htile _ (Nat.mod_lt _ (by omega)), Nat.div_add_mod']

/-- The element of a row and a column is where the formula says. -/
theorem interleave_getElem? (hrows : rows % 128 = 0) (hcolumns : columns % 4 = 0)
    (hinput : input.length = rows * columns) (houtput : output.length = rows * columns) {row column : Nat}
    (hrow : row < rows) (hcolumn : column < columns) :
    (interleave128x4 input output rows columns)[tile columns row column]? = input[row * columns + column]? := by
  have hlt := tile_lt hrows hcolumns hrow hcolumn
  rw [← quads_mul hrows hcolumns] at hlt
  have hquad : tile columns row column / 4 < quads rows columns := by omega
  have hminor : tile columns row column % 4 < 4 := Nat.mod_lt _ (by omega)
  obtain ⟨row', -, block, hblock, hsource, htile⟩ := sourceOf_eq hrows hquad
  have hplace := htile _ hminor
  rw [Nat.div_add_mod'] at hplace
  obtain ⟨rfl, hcolumn'⟩ := tile_inj hcolumns (by omega) hcolumn hplace
  rw [interleave_eq hrows hcolumns hinput houtput]
  conv_lhs => rw [← Nat.div_add_mod' (tile columns row' column) 4]
  rw [getElem?_flatMap_four (fun k hk => ?_) hquad hminor, List.getElem?_take_of_lt hminor, List.getElem?_drop,
    hsource, Nat.add_assoc, hcolumn']
  have hend := sourceOf_le hrows hk
  rw [List.length_take, List.length_drop]
  omega

/-- The three copies of `interleave_128x4` give the same bytes, each element where the tile formula puts it, and
write every byte once. -/
theorem interleave_agree (hrows : rows % 128 = 0) (hcolumns : columns % 4 = 0) (hinput : input.length = rows * columns)
    (houtput : output.length = rows * columns) :
    (∀ row < rows, ∀ column < columns,
      (interleave128x4 input output rows columns)[tile columns row column]? = input[row * columns + column]?) ∧
    Set.BijOn (fun place : Nat × Nat => tile columns place.1 place.2) {place | place.1 < rows ∧ place.2 < columns}
      {k | k < rows * columns} ∧
    written rows columns = List.range (rows * columns) ∧
    Sidecar.interleave128x4 input rows columns = interleave128x4 input output rows columns ∧
    packInterleave input rows columns = .ok (interleave128x4 input output rows columns) := by
  refine ⟨fun row hrow column hcolumn => interleave_getElem? hrows hcolumns hinput houtput hrow hcolumn,
    tile_bijOn hrows hcolumns, written_eq hrows hcolumns, ?_, ?_⟩
  · have hloops : Sidecar.interleave128x4 input rows columns =
        (loops rows columns (fun source destination (output : Mem UInt8) =>
          output.write destination ((input.drop source).take 4)) fun _ => 0).slice 0 (rows * columns) := rfl
    rw [hloops, loops_eq, ← quads_mul hrows hcolumns, interleave_eq hrows hcolumns hinput houtput]
    refine foldl_write (fun k hk => ?_) _
    rw [hinput]
    exact sourceOf_le hrows hk
  · have hzeros : (List.replicate input.length (0 : UInt8)).length = rows * columns := by
      rw [List.length_replicate, hinput]
    rw [packInterleave, if_neg (by simp [hrows, hcolumns, hinput]), cursorLoops_eq,
      interleave_eq hrows hcolumns hinput houtput, ← interleave_eq hrows hcolumns hinput hzeros]
    rfl

/-- Two tiles side by side. -/
def twoTiles : List UInt8 := (List.range 1024).map UInt8.ofNat

theorem interleave_agree_two_tiles :
    (∀ row < 128, ∀ column < 8,
      (interleave128x4 twoTiles (List.replicate 1024 0) 128 8)[tile 8 row column]? = twoTiles[row * 8 + column]?) ∧
    Set.BijOn (fun place : Nat × Nat => tile 8 place.1 place.2) {place | place.1 < 128 ∧ place.2 < 8}
      {k | k < 128 * 8} ∧
    written 128 8 = List.range (128 * 8) ∧
    Sidecar.interleave128x4 twoTiles 128 8 = interleave128x4 twoTiles (List.replicate 1024 0) 128 8 ∧
    packInterleave twoTiles 128 8 = .ok (interleave128x4 twoTiles (List.replicate 1024 0) 128 8) ∧
    tile 8 1 5 = 529 := by
  have hlength : twoTiles.length = 128 * 8 := by rw [twoTiles, List.length_map, List.length_range]
  have hzeros : (List.replicate 1024 (0 : UInt8)).length = 128 * 8 := by rw [List.length_replicate]
  obtain ⟨hplaces, hbij, hwritten, hsidecar, hpack⟩ := interleave_agree (by decide) (by decide) hlength hzeros
  exact ⟨hplaces, hbij, hwritten, hsidecar, hpack, by decide⟩

end Spark.Scale
