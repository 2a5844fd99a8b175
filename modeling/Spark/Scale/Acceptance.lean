import Spark.Scale.Packer

/-!
# What the runtime accepts

`ScaleSidecar::open` of `scale_sidecar.rs` on a file that the packer has published. The packer compares the activation
scales of the gate and up projections; the runtime also wants their products with the weight scales to be the same,
and every scale to be finite and positive.

* **`openEntry_eq_ok`** — what the runtime says to one entry of a packed file.
* **`sidecar_accepted_iff`** — when a packed file is accepted.
* **`packed_not_accepted`** — one that is not.
-/

namespace Spark.Scale

open Outcome

/-! ## The reader -/

inductive SidecarError where
  | io
  | mapping (message : String)
  | invalid (message : String)
  deriving DecidableEq, Repr

/-- The bytes that a mapping shows to the device. -/
structure MappedFile where
  contents : List UInt8

/-- The entries have the fields of the packer's. -/
structure ScaleSidecar where
  entries : List Entry
  mapping : MappedFile

def u32Le (input : List UInt8) (offset : Nat) : Nat := leNat ((input.drop offset).take 4)

def u64Le (input : List UInt8) (offset : Nat) : Nat := leNat ((input.drop offset).take 8)

def f32Le (input : List UInt8) (offset : Nat) : F32 := UInt32.ofNat (u32Le input offset)

def tableBytes : Nat := headerBytes + entryBytes * entryCount

def readEntry (table : List UInt8) (index : Nat) : Entry :=
  let start := headerBytes + index * entryBytes
  { layer := u32Le table start
    projection := u32Le table (start + 4)
    n := u32Le table (start + 8)
    k := u32Le table (start + 12)
    offset := u64Le table (start + 16)
    bytes := u64Le table (start + 24)
    inputScaleInv := f32Le table (start + 32)
    alpha := f32Le table (start + 36) }

/-- One round of the loop over the entries. -/
def openEntry (table : List UInt8) (state : List Entry × Nat) (index : Nat) :
    Except SidecarError (List Entry × Nat) := do
  let entry := readEntry table index
  let wantedLayer := index / 3
  let wantedProjection := index % 3
  let wantedN := if wantedProjection < 2 then 17408 else 5120
  let wantedK := if wantedProjection < 2 then 5120 else 17408
  let wantedBytes := wantedN * wantedK / 16
  reject (entry.layer ≠ wantedLayer ∨ entry.projection ≠ wantedProjection ∨ entry.n ≠ wantedN ∨ entry.k ≠ wantedK ∨
      entry.offset ≠ state.2 ∨ entry.bytes ≠ wantedBytes ∨ finitePositive entry.inputScaleInv = false ∨
      finitePositive entry.alpha = false)
    (.invalid ("invalid q27 scale sidecar entry " ++ toString index))
  let expectedOffset ← okOr (Word.checkedAdd 64 state.2 entry.bytes) (.invalid "q27 scale sidecar offset overflow")
  return (state.1 ++ [entry], expectedOffset)

/-- One round of the loop over the layers. There are three entries for each. -/
def openLayer (entries : List Entry) (layer : Nat) : Except SidecarError Unit :=
  match entries[layer * 3]?, entries[layer * 3 + 1]? with
  | some gate, some up =>
    reject (gate.inputScaleInv ≠ up.inputScaleInv ∨ gate.alpha ≠ up.alpha)
      (.invalid ("layer " ++ toString layer ++ " gate/up scales cannot use the fused projection"))
  | _, _ => .error (.invalid "index out of bounds")

/-- `ScaleSidecar::open`. `mapFile` is `MappedFile::open`, which leaves the work to the driver. -/
def openSidecar (mapFile : List UInt8 → Except SidecarError MappedFile) (file : List UInt8) :
    Except SidecarError ScaleSidecar := do
  reject (file.length < tableBytes) (.invalid "q27 scale sidecar is shorter than its table")
  let table := file.take tableBytes
  reject (table.take 8 ≠ magic ∨ u32Le table 8 ≠ 1 ∨ u32Le table 12 ≠ entryCount ∨
      (table.take 56).drop 16 ≠ revision ∨ ((table.take 64).drop 56).any (· != 0) = true)
    (.invalid "q27 scale sidecar header does not match revision v1")
  let (entries, expectedOffset) ← (List.range entryCount).foldlM (openEntry table) ([], tableBytes)
  reject (expectedOffset ≠ file.length)
    (.invalid ("q27 scale sidecar must contain " ++ toString expectedOffset ++ " bytes, found " ++
      toString file.length))
  (List.range 64).foldlM (fun _ layer => openLayer entries layer) ()
  let mapping ← mapFile file
  return ⟨entries, mapping⟩

namespace ScaleSidecar

/-- `entry`. -/
def entry (sidecar : ScaleSidecar) (layer projection : Nat) : Except SidecarError Entry :=
  if layer ≥ 64 ∨ projection ≥ 3 then .error (.invalid "q27 scale sidecar index is out of range")
  else okOr sidecar.entries[layer * 3 + projection]? (.invalid "index out of bounds")

/-- What the device reads at `scale_device_address`. -/
def scale (sidecar : ScaleSidecar) (layer projection : Nat) : Except SidecarError (List UInt8) := do
  let entry ← sidecar.entry layer projection
  reject (entry.offset + entry.bytes > sidecar.mapping.contents.length) (.mapping "q27 view exceeds mapped file")
  return (sidecar.mapping.contents.drop entry.offset).take entry.bytes

end ScaleSidecar

/-! ## The table of a packed file -/

/-- An entry whose fields fit their widths. -/
def Entry.Fits (entry : Entry) : Prop := ∀ field ∈ entry.fields, field.2 < 256 ^ field.1

/-- A field of an entry, read at its place in the table. -/
theorem field_of_table {entries : List Entry} {entry : Entry} {index k width value : Nat}
    (hentry : entries[index]? = some entry) (hfits : entry.Fits) (hfield : entry.fields[k]? = some (width, value)) :
    leNat (((header ++ entries.flatMap writeEntry).drop
      (headerBytes + index * entryBytes + Pack.width (entry.fields.take k))).take width) = value := by
  obtain ⟨hlt, rfl⟩ := List.getElem?_eq_some_iff.mp hentry
  have hsplit : entries = entries.take index ++ entries[index] :: entries.drop (index + 1) := by
    rw [← List.drop_eq_getElem_cons hlt, List.take_append_drop]
  have hbytes : header ++ entries.flatMap writeEntry =
      (header ++ (entries.take index).flatMap writeEntry) ++
        (Pack.pack entries[index].fields ++ (entries.drop (index + 1)).flatMap writeEntry) := by
    conv_lhs => rw [hsplit, List.flatMap_append, List.flatMap_cons]
    rw [List.append_assoc]
    rfl
  have hfront : (header ++ (entries.take index).flatMap writeEntry).length = headerBytes + index * entryBytes := by
    rw [List.length_append, length_writeEntries, List.length_take, Nat.min_eq_left hlt.le]
    rfl
  have hword := Pack.word_field hfield (hfits _ (List.mem_of_getElem? hfield))
    (header ++ (entries.take index).flatMap writeEntry) ((entries.drop (index + 1)).flatMap writeEntry)
    (congrArg (· + Pack.width (entries[index].fields.take k)) hfront.symm)
  rw [← hbytes] at hword
  obtain ⟨bytes, hslice, hvalue⟩ := Option.map_eq_some_iff.mp hword
  rw [(Pack.slice_eq_some hslice).2]
  exact hvalue

theorem readEntry_eq {entries : List Entry} {entry : Entry} {index : Nat} (hentry : entries[index]? = some entry)
    (hfits : entry.Fits) : readEntry (header ++ entries.flatMap writeEntry) index = entry := by
  have hfield {k width value : Nat} := @field_of_table entries entry index k width value hentry hfits
  have hlayer := @hfield 0 4 entry.layer rfl
  have hprojection := @hfield 1 4 entry.projection rfl
  have hn := @hfield 2 4 entry.n rfl
  have hk := @hfield 3 4 entry.k rfl
  have hoffset := @hfield 4 8 entry.offset rfl
  have hsize := @hfield 5 8 entry.bytes rfl
  have hinput := @hfield 6 4 entry.inputScaleInv.toNat rfl
  have halpha := @hfield 7 4 entry.alpha.toNat rfl
  obtain ⟨layer, projection, n, k, offset, bytes, inputScaleInv, alpha⟩ := entry
  unfold readEntry f32Le u32Le u64Le
  simp only [Entry.mk.injEq]
  refine ⟨hlayer, hprojection, hn, hk, hoffset, hsize, ?_, ?_⟩
  · exact (congrArg UInt32.ofNat hinput).trans UInt32.ofNat_toNat
  · exact (congrArg UInt32.ofNat halpha).trans UInt32.ofNat_toNat

theorem entryOf_fits {index : Nat} (hindex : index < entryCount) (x w : F32) : (entryOf index x w).Fits := by
  unfold entryCount at hindex
  have hshape : ∀ p < 3, (projection p).2.1 < 256 ^ 4 ∧ (projection p).2.2 < 256 ^ 4 := by decide
  obtain ⟨hn, hk⟩ := hshape (index % 3) (Nat.mod_lt _ (by omega))
  unfold Entry.Fits Entry.fields entryOf
  simp only [List.forall_mem_cons, List.not_mem_nil, false_imp_iff, implies_true, and_true]
  refine ⟨by omega, by omega, hn, hk, ?_, by decide, UInt32.toNat_lt _, UInt32.toNat_lt _⟩
  unfold offsetOf headerBytes entryBytes entryCount scaleSize
  omega

/-! ## What the runtime says -/

variable {checkpoint : Q27Checkpoint} {file : List UInt8} {entries : List Entry} {scales : List (List UInt8)}
  {mapFile : List UInt8 → Except SidecarError MappedFile}

/-- What the runtime says to one entry of a packed file. -/
theorem openEntry_eq_ok {index : Nat} {x w : F32} {state state' : List Entry × Nat} (hindex : index < entryCount)
    (hentry : entries[index]? = some (entryOf index x w)) (hoffset : state.2 = offsetOf index) :
    openEntry (header ++ entries.flatMap writeEntry) state index = .ok state' ↔
      (finitePositive (recip x) = true ∧ finitePositive (mulF32 x w) = true) ∧
        state' = (state.1 ++ [entryOf index x w], offsetOf (index + 1)) := by
  have hread := readEntry_eq hentry (entryOf_fits hindex x w)
  have hwanted : ∀ p < 3, (projection p).2.1 = (if p < 2 then 17408 else 5120) ∧
      (projection p).2.2 = (if p < 2 then 5120 else 17408) ∧
      scaleSize = (if p < 2 then 17408 else 5120) * (if p < 2 then 5120 else 17408) / 16 := by decide
  obtain ⟨hn, hk, hsize⟩ := hwanted (index % 3) (Nat.mod_lt _ (by omega))
  have hnext : Word.checkedAdd 64 (offsetOf index) scaleSize = some (offsetOf (index + 1)) := by
    unfold entryCount at hindex
    refine Word.checkedAdd_eq_some.mpr ⟨?_, ?_⟩
    · unfold offsetOf headerBytes entryBytes entryCount scaleSize
      omega
    · unfold offsetOf
      rw [Nat.succ_mul, ← Nat.add_assoc]
  unfold openEntry
  simp only [Traverse.bind_eq_ok, reject_eq_ok, okOr_eq_ok, hread, hoffset, exists_const]
  rw [show (entryOf index x w).bytes = scaleSize from rfl, hnext, ← hsize, ← hn, ← hk]
  constructor
  · rintro ⟨hall, next, hsome, hstate⟩
    cases hsome
    cases hstate
    simp only [not_or, Bool.not_eq_false] at hall
    obtain ⟨-, -, -, -, -, -, hinput, halpha⟩ := hall
    exact ⟨⟨hinput, halpha⟩, rfl⟩
  · rintro ⟨⟨hinput, halpha⟩, rfl⟩
    refine ⟨?_, offsetOf (index + 1), rfl, rfl⟩
    simp only [not_or, Bool.not_eq_false]
    exact ⟨not_not.mpr rfl, not_not.mpr rfl, not_not.mpr rfl, not_not.mpr rfl, not_not.mpr rfl, not_not.mpr rfl,
      hinput, halpha⟩

/-- The scalars of a projection can be used: the reciprocal and the product, rounded, are finite and positive. -/
def Usable (checkpoint : Q27Checkpoint) (layer projectionId : Nat) : Prop :=
  ∀ x w, checkpoint.scalar (projectionName layer projectionId ++ ".input_scale") = .ok x →
    checkpoint.scalar (projectionName layer projectionId ++ ".weight_scale_2") = .ok w →
    finitePositive (recip x) = true ∧ finitePositive (mulF32 x w) = true

/-- The weight scales of the gate and up projections have the same product with the activation scale. -/
def Fusable (checkpoint : Q27Checkpoint) (layer : Nat) : Prop :=
  ∀ x w w', checkpoint.scalar (projectionName layer 0 ++ ".input_scale") = .ok x →
    checkpoint.scalar (projectionName layer 0 ++ ".weight_scale_2") = .ok w →
    checkpoint.scalar (projectionName layer 1 ++ ".weight_scale_2") = .ok w' → mulF32 x w = mulF32 x w'

theorem Packed.table_eq (h : Packed checkpoint file entries scales) :
    file.take tableBytes = header ++ entries.flatMap writeEntry := by
  have hlength : (header ++ entries.flatMap writeEntry).length = tableBytes := by
    rw [List.length_append, length_writeEntries, show entries.length = entryCount from h.table.length, Nat.mul_comm]
    rfl
  rw [h.bytes, ← List.append_assoc, ← hlength, List.take_left]

theorem header_eq (behind : List UInt8) :
    ¬ ((header ++ behind).take 8 ≠ magic ∨ u32Le (header ++ behind) 8 ≠ 1 ∨ u32Le (header ++ behind) 12 ≠ entryCount ∨
      ((header ++ behind).take 56).drop 16 ≠ revision ∨
      (((header ++ behind).take 64).drop 56).any (· != 0) = true) := by
  simp only [not_or, not_not, Bool.not_eq_true]
  exact ⟨rfl, rfl, rfl, rfl, rfl⟩

/-- The entries are read back. -/
theorem openEntries_eq_ok (h : Packed checkpoint file entries scales) {state : List Entry × Nat} :
    (List.range entryCount).foldlM (openEntry (header ++ entries.flatMap writeEntry)) ([], tableBytes) = .ok state ↔
      (∀ index < entryCount, Usable checkpoint (index / 3) (index % 3)) ∧
        state = (entries, offsetOf entryCount) := by
  have hstart : (([], tableBytes) : List Entry × Nat) = (entries.take 0, offsetOf 0) := rfl
  have htake {index : Nat} {entry : Entry} (hentry : entries[index]? = some entry) :
      entries.take index ++ [entry] = entries.take (index + 1) := by
    rw [List.take_add_one, hentry, Option.toList_some]
  have hall : entries.take entryCount = entries := List.take_of_length_le h.table.length.le
  rw [hstart]
  constructor
  · intro hrun
    have hkept := Traverse.foldlM_range_ok
      (P := fun index state => (∀ i < index, Usable checkpoint (i / 3) (i % 3)) ∧
        state = (entries.take index, offsetOf index))
      ⟨fun _ hlt => absurd hlt (Nat.not_lt_zero _), rfl⟩
      (fun index hindex state state' hstate hopen => by
        obtain ⟨husable, rfl⟩ := hstate
        obtain ⟨x, w, hreads, hentry⟩ := h.table.entry index hindex
        obtain ⟨hfinite, rfl⟩ := (openEntry_eq_ok hindex hentry rfl).mp hopen
        refine ⟨fun i hi => ?_, by rw [htake hentry]⟩
        rcases Nat.lt_succ_iff_lt_or_eq.mp hi with hold | rfl
        · exact husable i hold
        · intro x' w' hx' hw'
          cases hreads.input.symm.trans hx'
          cases hreads.factor.symm.trans hw'
          exact hfinite) hrun
    rw [hall] at hkept
    exact hkept
  · rintro ⟨husable, rfl⟩
    obtain ⟨state, hrun, hstate⟩ := Traverse.exists_foldlM_range
      (f := openEntry (header ++ entries.flatMap writeEntry)) (n := entryCount)
      (P := fun index state => state = (entries.take index, offsetOf index)) rfl
      (fun index hindex state hstate => by
        subst hstate
        obtain ⟨x, w, hreads, hentry⟩ := h.table.entry index hindex
        refine ⟨_, (openEntry_eq_ok hindex hentry rfl).mpr ⟨husable index hindex x w hreads.input hreads.factor, rfl⟩, ?_⟩
        rw [htake hentry])
    rw [hall] at hstate
    rw [hrun, hstate]

/-- The runtime compares the gate and up entries of a layer. -/
theorem openLayer_eq_ok (h : Packed checkpoint file entries scales) {layer : Nat} (hlayer : layer < 64) {u : Unit} :
    openLayer entries layer = .ok u ↔ Fusable checkpoint layer := by
  obtain ⟨x, w, hgate, hgateEntry⟩ := h.table.entry (layer * 3) (by unfold entryCount; omega)
  obtain ⟨x', w', hup, hupEntry⟩ := h.table.entry (layer * 3 + 1) (by unfold entryCount; omega)
  rw [show layer * 3 / 3 = layer by omega, show layer * 3 % 3 = 0 by omega] at hgate
  rw [show (layer * 3 + 1) / 3 = layer by omega, show (layer * 3 + 1) % 3 = 1 by omega] at hup
  -- the packer has seen that the activation scales are one
  have hsame : x' = x := by
    obtain ⟨shared, hfirst, hsecond⟩ := h.shared layer hlayer
    rw [show mlp layer ++ ".gate_proj.input_scale" = projectionName layer 0 ++ ".input_scale" by
      rw [projectionName, String.append_assoc, String.append_assoc]; rfl] at hfirst
    rw [show mlp layer ++ ".up_proj.input_scale" = projectionName layer 1 ++ ".input_scale" by
      rw [projectionName, String.append_assoc, String.append_assoc]; rfl] at hsecond
    cases hfirst.symm.trans hgate.input
    cases hsecond.symm.trans hup.input
    rfl
  subst hsame
  unfold openLayer
  rw [hgateEntry, hupEntry]
  simp only [reject_eq_ok, not_or, not_not]
  constructor
  · rintro ⟨-, halpha⟩ y v v' hy hv hv'
    cases hgate.input.symm.trans hy
    cases hgate.factor.symm.trans hv
    cases hup.factor.symm.trans hv'
    exact halpha
  · exact fun hfusable => ⟨rfl, hfusable x' w w' hgate.input hgate.factor hup.factor⟩

/-- When a packed file is accepted, and what is then open. -/
theorem openSidecar_eq_ok (h : Packed checkpoint file entries scales)
    (hmap : ∀ file, file ≠ [] → mapFile file = .ok ⟨file⟩) {sidecar : ScaleSidecar} :
    openSidecar mapFile file = .ok sidecar ↔
      ((∀ index < entryCount, Usable checkpoint (index / 3) (index % 3)) ∧
        ∀ layer < 64, Fusable checkpoint layer) ∧ sidecar = ⟨entries, ⟨file⟩⟩ := by
  have hlong : ¬ file.length < tableBytes := by
    rw [h.length, offsetOf, tableBytes]
    omega
  have hfile : file ≠ [] := by
    rintro rfl
    exact hlong (by decide)
  have hlayers : (∃ u, (List.range 64).foldlM (fun _ layer => openLayer entries layer) () = .ok u) ↔
      ∀ layer < 64, Fusable checkpoint layer := by
    constructor
    · rintro ⟨u, hrun⟩
      exact Traverse.foldlM_range_ok (P := fun count _ => ∀ layer < count, Fusable checkpoint layer)
        (fun _ hlt => absurd hlt (Nat.not_lt_zero _))
        (fun layer hlayer _ _ hkept hopen other hother => by
          rcases Nat.lt_succ_iff_lt_or_eq.mp hother with hold | rfl
          · exact hkept other hold
          · exact (openLayer_eq_ok h hlayer).mp hopen) hrun
    · intro hall
      obtain ⟨u, hrun, -⟩ := Traverse.exists_foldlM_range (f := fun _ layer => openLayer entries layer)
        (P := fun _ _ => True) (n := 64) (b := ()) trivial
        (fun layer hlayer _ _ => ⟨(), (openLayer_eq_ok h hlayer).mpr (hall layer hlayer), trivial⟩)
      exact ⟨u, hrun⟩
  unfold openSidecar
  simp only [Traverse.bind_eq_ok, reject_eq_ok, h.table_eq, openEntries_eq_ok h, hmap file hfile, exists_const]
  constructor
  · rintro ⟨-, -, ⟨entries', expectedOffset⟩, ⟨husable, hstate⟩, -, u, hrun, mapping, hmapping, hsidecar⟩
    cases hstate
    cases hmapping
    cases hsidecar
    exact ⟨⟨husable, hlayers.mp ⟨u, hrun⟩⟩, rfl⟩
  · rintro ⟨⟨husable, hfusable⟩, rfl⟩
    obtain ⟨u, hrun⟩ := hlayers.mpr hfusable
    exact ⟨hlong, header_eq _, (entries, offsetOf entryCount), ⟨husable, rfl⟩, not_not.mpr h.length.symm, u, hrun,
      ⟨file⟩, rfl, rfl⟩

/-- The sidecar gives back what the packer has computed for every projection. -/
def Serves (checkpoint : Q27Checkpoint) (sidecar : ScaleSidecar) : Prop :=
  ∀ layer < 64, ∀ projectionId < 3, ∃ x w packed entry,
    checkpoint.scalar (projectionName layer projectionId ++ ".input_scale") = .ok x ∧
    checkpoint.scalar (projectionName layer projectionId ++ ".weight_scale_2") = .ok w ∧
    packScales checkpoint layer projectionId = .ok packed ∧
    sidecar.entry layer projectionId = .ok entry ∧ entry.alpha = mulF32 x w ∧ entry.inputScaleInv = recip x ∧
    sidecar.scale layer projectionId = .ok packed

theorem Packed.serves (h : Packed checkpoint file entries scales) : Serves checkpoint ⟨entries, ⟨file⟩⟩ := by
  intro layer hlayer projectionId hprojection
  obtain ⟨hdiv, hmod⟩ := @Loops.div_mod_pair layer projectionId 3 hprojection
  have hindex : layer * 3 + projectionId < entryCount := by
    unfold entryCount
    omega
  obtain ⟨x, w, hreads, hentry⟩ := h.table.entry _ hindex
  rw [hdiv, hmod] at hreads
  -- the scales of this projection, among the others
  have hpieces := Traverse.mapM_ok_iff.mp h.scales
  obtain ⟨hcount, hsizes⟩ := length_scales h.scales
  have hpiece : packScales checkpoint layer projectionId = .ok scales[layer * 3 + projectionId] := by
    have hget := hpieces.get (by rw [List.length_range]; exact hindex) (by rw [hcount]; exact hindex)
    simp only [List.get_eq_getElem, List.getElem_range] at hget
    rwa [hdiv, hmod] at hget
  have hsplit : scales = scales.take (layer * 3 + projectionId) ++ scales[layer * 3 + projectionId] ::
      scales.drop (layer * 3 + projectionId + 1) := by
    rw [← List.drop_eq_getElem_cons, List.take_append_drop]
  have hfile : file = (header ++ entries.flatMap writeEntry ++ (scales.take (layer * 3 + projectionId)).flatten) ++
      (scales[layer * 3 + projectionId] ++ (scales.drop (layer * 3 + projectionId + 1)).flatten) := by
    rw [h.bytes]
    conv_lhs => rw [hsplit]
    simp only [List.flatten_append, List.flatten_cons, List.append_assoc]
  have hfront : (header ++ entries.flatMap writeEntry ++ (scales.take (layer * 3 + projectionId)).flatten).length =
      offsetOf (layer * 3 + projectionId) := by
    have htake : ∀ piece ∈ scales.take (layer * 3 + projectionId), piece.length = scaleSize :=
      fun piece hmem => hsizes piece (List.mem_of_mem_take hmem)
    rw [List.length_append, length_flatten_scales htake, ← h.table_eq, List.length_take, h.length, List.length_take,
      hcount, Nat.min_eq_left hindex.le, Nat.min_eq_left]
    · rfl
    · rw [tableBytes, offsetOf]
      omega
  have hslice := Pack.slice_middle (header ++ entries.flatMap writeEntry ++
    (scales.take (layer * 3 + projectionId)).flatten) scales[layer * 3 + projectionId]
    (scales.drop (layer * 3 + projectionId + 1)).flatten
  rw [← hfile, hfront, hsizes _ (List.getElem_mem _)] at hslice
  obtain ⟨hroom, hbytes⟩ := Pack.slice_eq_some hslice
  have hown : ScaleSidecar.entry ⟨entries, ⟨file⟩⟩ layer projectionId =
      .ok (entryOf (layer * 3 + projectionId) x w) := by
    unfold ScaleSidecar.entry
    rw [if_neg (by omega), hentry]
    rfl
  refine ⟨x, w, _, _, hreads.input, hreads.factor, hpiece, hown, rfl, rfl, ?_⟩
  unfold ScaleSidecar.scale
  rw [hown]
  simp only [Traverse.bind_eq_ok, reject_eq_ok, exists_const]
  exact ⟨_, rfl, not_lt.mpr hroom, congrArg Except.ok hbytes⟩

/-- **What the runtime accepts of what the packer publishes.** A file that was packed is opened, and gives back the
scales and alphas that were computed, exactly when in every layer the three projections have scalars whose reciprocal
and product are finite and positive `f32`s, and the gate and up projections have one product. The packer checks none of
this. -/
theorem sidecar_accepted_iff (mapFile : List UInt8 → Except SidecarError MappedFile)
    (hmap : ∀ file, file ≠ [] → mapFile file = .ok ⟨file⟩) (checkpoint : Q27Checkpoint) (output : String)
    (outputExists : Bool) (file : List UInt8) (hpack : pack checkpoint output outputExists = .ok file) :
    (∃ sidecar, openSidecar mapFile file = .ok sidecar ∧ Serves checkpoint sidecar) ↔
      ∀ layer < 64, (∀ projectionId < 3, Usable checkpoint layer projectionId) ∧ Fusable checkpoint layer := by
  obtain ⟨entries, scales, hpacked⟩ := pack_spec hpack
  constructor
  · rintro ⟨sidecar, hopen, -⟩ layer hlayer
    obtain ⟨⟨husable, hfusable⟩, -⟩ := (openSidecar_eq_ok hpacked hmap).mp hopen
    refine ⟨fun projectionId hprojection => ?_, hfusable layer hlayer⟩
    obtain ⟨hdiv, hmod⟩ := @Loops.div_mod_pair layer projectionId 3 hprojection
    have h := husable (layer * 3 + projectionId) (by unfold entryCount; omega)
    rwa [hdiv, hmod] at h
  · intro hall
    refine ⟨⟨entries, ⟨file⟩⟩, (openSidecar_eq_ok hpacked hmap).mpr ⟨⟨fun index hindex => ?_, fun layer hlayer => ?_⟩, rfl⟩,
      hpacked.serves⟩
    · unfold entryCount at hindex
      exact (hall (index / 3) (by omega)).1 (index % 3) (Nat.mod_lt _ (by omega))
    · exact (hall layer hlayer).2

/-! ## Two checkpoints -/

/-- Where the tensors of a checkpoint are that has one for all scalars but the weight scales of the up projections. -/
def plainLocation (name : List Char) : TensorLocation :=
  if ".up_proj.weight_scale_2".toList.isSuffixOf name then ⟨"scalars", 4, 4, "F32", []⟩
  else if ".weight_scale_2".toList.isSuffixOf name || ".input_scale".toList.isSuffixOf name then
    ⟨"scalars", 0, 4, "F32", []⟩
  else if ".down_proj.weight_scale".toList.isSuffixOf name then
    ⟨"scales", 0, 5570560, "F8_E4M3", [5120, 1088]⟩
  else ⟨"scales", 0, 5570560, "F8_E4M3", [17408, 320]⟩

def plainFile (upFactor : F32) (name : String) : Option (List UInt8) :=
  if name = "scalars" then some (leBytes 4 0x3F800000 ++ leBytes 4 upFactor.toNat)
  else if name = "scales" then some (List.replicate 5570560 0)
  else none

/-- All scalars are `1.0`, but the weight scales of the up projections. -/
def plainCheckpoint (upFactor : F32) : Q27Checkpoint where
  tensors name := some (plainLocation name.toList)
  files := plainFile upFactor
  sized name location h := by
    cases h
    unfold plainLocation
    split
    · decide
    · split
      · decide
      · split
        · decide
        · decide

/-- A suffix of a name is found in what follows the layer. -/
theorem isSuffixOf_append {suffix front back : List Char} (hshort : suffix.length ≤ back.length) :
    suffix.isSuffixOf (front ++ back) = suffix.isSuffixOf back := by
  rw [Bool.eq_iff_iff, List.isSuffixOf_iff_suffix, List.isSuffixOf_iff_suffix]
  exact ⟨fun h => List.suffix_of_suffix_length_le h (List.suffix_append front back) hshort,
    fun h => h.trans (List.suffix_append front back)⟩

theorem plainLocation_append {front back : List Char} (hlong : 23 ≤ back.length) :
    plainLocation (front ++ back) = plainLocation back := by
  have hfound {suffix : List Char} (hshort : suffix.length ≤ 23) :
      suffix.isSuffixOf (front ++ back) = suffix.isSuffixOf back := isSuffixOf_append (hshort.trans hlong)
  unfold plainLocation
  rw [hfound (by decide), hfound (by decide), hfound (by decide), hfound (by decide)]

variable (upFactor : F32) {projectionId : Nat}

theorem plain_tensors (layer : Nat) {suffix : String}
    (hlong : 23 ≤ (".mlp" ++ "." ++ (projection projectionId).1 ++ suffix).toList.length) :
    (plainCheckpoint upFactor).tensors (projectionName layer projectionId ++ suffix) =
      some (plainLocation (".mlp" ++ "." ++ (projection projectionId).1 ++ suffix).toList) := by
  have hname : projectionName layer projectionId ++ suffix =
      ("model.language_model.layers." ++ toString layer) ++ (".mlp" ++ "." ++ (projection projectionId).1 ++ suffix) := by
    unfold projectionName mlp
    simp only [String.append_assoc]
  show some (plainLocation (projectionName layer projectionId ++ suffix).toList) = _
  rw [hname, String.toList_append, plainLocation_append hlong]

theorem readTensor_eq {checkpoint : Q27Checkpoint} {location : TensorLocation} {contents : List UInt8}
    (hfile : checkpoint.files location.relativeFile = some contents)
    (hroom : location.absoluteOffset + location.dataBytes ≤ contents.length) :
    checkpoint.readTensor location = .ok ((contents.drop location.absoluteOffset).take location.dataBytes) := by
  unfold Q27Checkpoint.readTensor
  rw [hfile]
  exact if_pos hroom

/-- A scalar at its place in the file of scalars. -/
theorem plain_scalar {name : String} {offset : Nat} {value : F32}
    (hname : (plainCheckpoint upFactor).tensors name = some ⟨"scalars", offset, 4, "F32", []⟩)
    (hvalue : offset = 0 ∧ value = 0x3F800000 ∨ offset = 4 ∧ value = upFactor) :
    (plainCheckpoint upFactor).scalar name = .ok value := by
  have hread : (plainCheckpoint upFactor).readTensor ⟨"scalars", offset, 4, "F32", []⟩ = .ok (leBytes 4 value.toNat) := by
    rcases hvalue with ⟨rfl, rfl⟩ | ⟨rfl, rfl⟩
    · rfl
    · rfl
  unfold Q27Checkpoint.scalar Q27Checkpoint.tensor
  rw [hname, okOr_some]
  show ((plainCheckpoint upFactor).readTensor _ >>= fun bytes => .ok (UInt32.ofNat (leNat bytes))) = _
  rw [bind_of_ok hread, leNat_word32]

theorem plain_reads (layer : Nat) (hprojection : projectionId < 3) :
    Reads (plainCheckpoint upFactor) layer projectionId 0x3F800000
      (if projectionId = 1 then upFactor else 0x3F800000) := by
  have hlong : ∀ p < 3, 23 ≤ (".mlp" ++ "." ++ (projection p).1 ++ ".input_scale").toList.length ∧
      23 ≤ (".mlp" ++ "." ++ (projection p).1 ++ ".weight_scale_2").toList.length ∧
      23 ≤ (".mlp" ++ "." ++ (projection p).1 ++ ".weight_scale").toList.length := by decide
  have hplaces : ∀ p < 3,
      plainLocation (".mlp" ++ "." ++ (projection p).1 ++ ".input_scale").toList = ⟨"scalars", 0, 4, "F32", []⟩ ∧
      plainLocation (".mlp" ++ "." ++ (projection p).1 ++ ".weight_scale_2").toList =
        ⟨"scalars", if p = 1 then 4 else 0, 4, "F32", []⟩ ∧
      plainLocation (".mlp" ++ "." ++ (projection p).1 ++ ".weight_scale").toList =
        ⟨"scales", 0, 5570560, "F8_E4M3", [(projection p).2.1, (projection p).2.2 / 16]⟩ := by decide
  obtain ⟨hinput, hfactor, hscale⟩ := hplaces projectionId hprojection
  obtain ⟨hinputLong, hfactorLong, hscaleLong⟩ := hlong projectionId hprojection
  have hinputName := (plain_tensors upFactor layer hinputLong).trans (congrArg some hinput)
  have hfactorName := (plain_tensors upFactor layer hfactorLong).trans (congrArg some hfactor)
  refine ⟨⟨_, plain_tensors upFactor layer hscaleLong, ?_⟩, plain_scalar upFactor hinputName (Or.inl ⟨rfl, rfl⟩),
    plain_scalar upFactor hfactorName ?_⟩
  · rw [hscale]
    exact ⟨rfl, rfl⟩
  · split
    · exact Or.inr ⟨rfl, rfl⟩
    · exact Or.inl ⟨rfl, rfl⟩

theorem plain_scales (layer : Nat) (hprojection : projectionId < 3) :
    ∃ out, packScales (plainCheckpoint upFactor) layer projectionId = .ok out := by
  have hplaces : ∀ p < 3, 23 ≤ (".mlp" ++ "." ++ (projection p).1 ++ ".weight_scale").toList.length ∧
      plainLocation (".mlp" ++ "." ++ (projection p).1 ++ ".weight_scale").toList =
        ⟨"scales", 0, 5570560, "F8_E4M3", [(projection p).2.1, (projection p).2.2 / 16]⟩ := by decide
  obtain ⟨hlong, hscale⟩ := hplaces projectionId hprojection
  have hname := (plain_tensors upFactor layer hlong).trans (congrArg some hscale)
  have hfile : (plainCheckpoint upFactor).files "scales" = some (List.replicate 5570560 0) := by
    show plainFile upFactor "scales" = _
    rw [plainFile, if_neg (by decide), if_pos rfl]
  have hsizes : ∀ p < 3, ¬ ((projection p).2.1 % 128 ≠ 0 ∨ (projection p).2.2 / 16 % 4 ≠ 0 ∨
      5570560 ≠ (projection p).2.1 * ((projection p).2.2 / 16)) := by decide
  have hread (shape : List Nat) : (plainCheckpoint upFactor).readTensor ⟨"scales", 0, 5570560, "F8_E4M3", shape⟩ =
      .ok (List.replicate 5570560 0) := by
    rw [readTensor_eq hfile (by rw [List.length_replicate, Nat.zero_add]), List.drop_zero, List.take_replicate,
      Nat.min_self]
  unfold packScales Q27Checkpoint.tensor
  simp only [hname, okOr_some]
  rw [bind_of_ok rfl, bind_of_ok (hread _), packInterleave, List.length_replicate,
    if_neg (hsizes projectionId hprojection)]
  exact ⟨_, rfl⟩

theorem exists_pack_plain (output : String) :
    ∃ file, pack (plainCheckpoint upFactor) output false = .ok file := by
  refine exists_pack output (fun layer _ p hp => ⟨_, _, plain_reads upFactor layer hp⟩) (fun layer _ => ?_)
    fun layer _ p hp => plain_scales upFactor layer hp
  have hgate := (plain_reads upFactor layer (by decide : 0 < 3)).input
  have hup := (plain_reads upFactor layer (by decide : 1 < 3)).input
  rw [projectionName, String.append_assoc, String.append_assoc] at hgate hup
  exact ⟨_, hgate, hup⟩

theorem sidecar_accepted_iff_ones :
    ∃ file, pack (plainCheckpoint 0x3F800000) "scales.bin" false = .ok file ∧
      ∃ sidecar, openSidecar (fun file => .ok ⟨file⟩) file = .ok sidecar ∧
        Serves (plainCheckpoint 0x3F800000) sidecar := by
  obtain ⟨file, hfile⟩ := exists_pack_plain 0x3F800000 "scales.bin"
  refine ⟨file, hfile, ?_⟩
  refine (sidecar_accepted_iff (fun file => .ok ⟨file⟩) (fun _ _ => rfl) _ _ _ file hfile).mpr fun layer _ =>
    ⟨fun projectionId hprojection x w hx hw => ?_, fun x w w' hx hw hw' => ?_⟩
  · have hreads := plain_reads 0x3F800000 layer hprojection
    rw [ite_self] at hreads
    cases hreads.input.symm.trans hx
    cases hreads.factor.symm.trans hw
    decide
  · have hgate := plain_reads 0x3F800000 layer (by decide : 0 < 3)
    have hup := plain_reads 0x3F800000 layer (by decide : 1 < 3)
    rw [ite_self] at hgate hup
    cases hgate.factor.symm.trans hw
    cases hup.factor.symm.trans hw'
    rfl

/-- A checkpoint with different weight scales for the gate and up projections is packed, and not accepted. -/
theorem packed_not_accepted :
    ¬ ∀ (mapFile : List UInt8 → Except SidecarError MappedFile) (_ : ∀ file, file ≠ [] → mapFile file = .ok ⟨file⟩)
      (checkpoint : Q27Checkpoint) (output : String) (outputExists : Bool) (file : List UInt8),
      pack checkpoint output outputExists = .ok file →
        ∃ sidecar, openSidecar mapFile file = .ok sidecar ∧ Serves checkpoint sidecar := by
  intro hclaim
  obtain ⟨file, hfile⟩ := exists_pack_plain 0x40000000 "scales.bin"
  obtain ⟨entries, scales, hpacked⟩ := pack_spec hfile
  obtain ⟨sidecar, hopen, -⟩ := hclaim (fun file => .ok ⟨file⟩) (fun _ _ => rfl) _ _ _ file hfile
  obtain ⟨⟨-, hfusable⟩, -⟩ := (openSidecar_eq_ok hpacked fun _ _ => rfl).mp hopen
  have hgate := plain_reads 0x40000000 0 (by decide : 0 < 3)
  have hup := plain_reads 0x40000000 0 (by decide : 1 < 3)
  have hsame := hfusable 0 (by decide) _ _ _ hgate.input hgate.factor hup.factor
  revert hsame
  decide

end Spark.Scale
