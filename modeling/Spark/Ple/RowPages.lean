import Mathlib.Data.List.Dedup
import Spark.Ple.Residency

/-!
# The pages of rows

Both page caches take the page a row begins in, and the next one when the row runs past it. For rows that are in
their files the sums the code makes do not wrap, and the pages of a request are those of its rows, each once.

* **`rowPages_eq`** — the page loop in numbers that do not wrap.
* **`mem_requestKeys`**, **`toFinset_requestKeys`** — the pages of a request.
-/

namespace Spark.Ple

open Spark.Uring FixedPleCache

/-- The pages a row takes: the one it begins in, and the next one when it runs past that. -/
def rowPages (pageBytes : Nat) (address : RowAddress) : List PageKey :=
  let begins := address.byteOffset - address.byteOffset % pageBytes
  ⟨address.shard, begins⟩ ::
    if address.byteOffset % pageBytes + address.byteLen > pageBytes then [⟨address.shard, begins + pageBytes⟩] else []

def distinctPages (pageBytes : Nat) (addresses : List RowAddress) : Finset PageKey :=
  (addresses.flatMap (rowPages pageBytes)).toFinset

/-- The pages a request asks for, in the order they come. -/
def requestKeys (pageBytes : Nat) (addresses : List RowAddress) : List PageKey :=
  addresses.foldl (addRowKeys pageBytes) []

/-- The row is in its file. -/
def HasRow (files : List OpenFile) (address : RowAddress) : Prop :=
  ∃ file, files[address.shard]? = some file ∧ address.byteOffset < file.size ∧
    address.byteOffset + address.byteLen ≤ file.size

/-- The row ends in the page it begins in or in the one behind. -/
def FitsTwoPages (pageBytes : Nat) (address : RowAddress) : Prop :=
  address.byteOffset % pageBytes + address.byteLen ≤ 2 * pageBytes

instance (pageBytes : Nat) (address : RowAddress) : Decidable (FitsTwoPages pageBytes address) :=
  inferInstanceAs (Decidable (_ ≤ _))

/-- The sizes a page can have. -/
structure PageSize (pageBytes : Nat) : Prop where
  pow : ∃ k, pageBytes = 2 ^ k
  le : pageBytes ≤ 2 ^ 63

section Rows

variable {files : List OpenFile} {pageBytes : Nat} {address : RowAddress}

theorem PageSize.pos (h : PageSize pageBytes) : 0 < pageBytes := by
  obtain ⟨k, hk⟩ := h.pow
  rw [hk]
  exact Nat.two_pow_pos k

theorem pageOffset_eq (h : PageSize pageBytes) (hlt : address.byteOffset < 2 ^ 64) :
    pageOffset pageBytes address = address.byteOffset - address.byteOffset % pageBytes := by
  obtain ⟨k, hk⟩ := h.pow
  have hsplit := Word.alignDown_add_mod (k := k) hlt
  rw [pageOffset, hk]
  omega

theorem HasRow.lt (h : HasRow files address) :
    address.byteOffset < 2 ^ 63 ∧ address.byteOffset + address.byteLen < 2 ^ 63 := by
  obtain ⟨file, -, hlt, hend⟩ := h
  have hsize : file.size < 2 ^ 63 := file.size_lt
  omega

/-- The sums of the page loop do not wrap: a file is shorter than `2 ^ 63` bytes and a page no longer than that. -/
theorem crossesPage_iff (h : PageSize pageBytes) (hrow : HasRow files address) :
    crossesPage pageBytes address = true ↔
      address.byteOffset % pageBytes + address.byteLen > pageBytes := by
  obtain ⟨hlt, hend⟩ := hrow.lt
  have hpage := pageOffset_eq h (show address.byteOffset < 2 ^ 64 by omega)
  have hle := h.le
  have hmod := Nat.mod_le address.byteOffset pageBytes
  unfold crossesPage
  rw [hpage, Word.wrappingAdd_of_lt (show address.byteOffset + address.byteLen < 2 ^ 64 by omega),
    Word.wrappingAdd_of_lt
      (show address.byteOffset - address.byteOffset % pageBytes + pageBytes < 2 ^ 64 by omega),
    decide_eq_true_eq]
  omega

theorem firstKey_eq (h : PageSize pageBytes) (hrow : HasRow files address) :
    firstKey pageBytes address = ⟨address.shard, address.byteOffset - address.byteOffset % pageBytes⟩ := by
  have hlt := hrow.lt.1
  rw [firstKey, pageOffset_eq h (by omega)]

theorem secondKey_eq (h : PageSize pageBytes) (hrow : HasRow files address) :
    secondKey pageBytes address =
      ⟨address.shard, address.byteOffset - address.byteOffset % pageBytes + pageBytes⟩ := by
  have hlt := hrow.lt.1
  have hle := h.le
  rw [secondKey, pageOffset_eq h (by omega), Word.wrappingAdd_of_lt (by omega)]

theorem rowPages_eq (h : PageSize pageBytes) (hrow : HasRow files address) :
    rowPages pageBytes address = firstKey pageBytes address ::
      if crossesPage pageBytes address then [secondKey pageBytes address] else [] := by
  unfold rowPages
  simp only [firstKey_eq h hrow, secondKey_eq h hrow, crossesPage_iff h hrow]

/-- The pages of a row begin inside its file. -/
theorem page_in_file (hrow : HasRow files address) {key : PageKey} (hkey : key ∈ rowPages pageBytes address) :
    ∃ file, files[key.shard]? = some file ∧ key.byteOffset < file.size := by
  obtain ⟨file, hfile, hlt, hend⟩ := hrow
  have hmod := Nat.mod_le address.byteOffset pageBytes
  rcases List.mem_cons.mp hkey with rfl | hnext
  · refine ⟨file, hfile, ?_⟩
    show address.byteOffset - address.byteOffset % pageBytes < file.size
    omega
  · split at hnext
    · next hcross =>
      obtain rfl := List.mem_singleton.mp hnext
      refine ⟨file, hfile, ?_⟩
      show address.byteOffset - address.byteOffset % pageBytes + pageBytes < file.size
      omega
    · cases hnext

end Rows

/-! ## The pages of a request -/

theorem mem_insertUnique {keys : List PageKey} {key other : PageKey} :
    other ∈ insertUnique keys key ↔ other ∈ keys ∨ other = key := by
  unfold insertUnique
  split
  · next hmem =>
    rw [List.contains_eq_mem, decide_eq_true_eq] at hmem
    exact ⟨.inl, fun h => h.elim id fun heq => heq ▸ hmem⟩
  · simp

variable {files : List OpenFile} {pageBytes : Nat} {addresses : List RowAddress}

/-- What the loop has asked for, from any request on. -/
theorem mem_addRowKeys (h : PageSize pageBytes) (hrows : ∀ address ∈ addresses, HasRow files address) (key : PageKey) :
    ∀ keys : List PageKey, key ∈ addresses.foldl (addRowKeys pageBytes) keys ↔
      key ∈ keys ∨ key ∈ addresses.flatMap (rowPages pageBytes) := by
  induction addresses with
  | nil => simp
  | cons address rest ih =>
    intro keys
    rw [List.foldl_cons, ih fun a ha => hrows a (List.mem_cons_of_mem _ ha), List.flatMap_cons, List.mem_append,
      rowPages_eq h (hrows address List.mem_cons_self), ← or_assoc]
    apply or_congr_left
    unfold addRowKeys
    split
    · simp only [mem_insertUnique, List.mem_cons, List.not_mem_nil, or_false, or_assoc]
    · simp only [mem_insertUnique, List.mem_cons, List.not_mem_nil, or_false]

/-- **The pages of a request are those of its rows.** -/
theorem mem_requestKeys (h : PageSize pageBytes) (hrows : ∀ address ∈ addresses, HasRow files address)
    {key : PageKey} : key ∈ requestKeys pageBytes addresses ↔ key ∈ addresses.flatMap (rowPages pageBytes) := by
  rw [requestKeys, mem_addRowKeys h hrows, List.mem_nil_iff, false_or]

theorem toFinset_requestKeys (h : PageSize pageBytes) (hrows : ∀ address ∈ addresses, HasRow files address) :
    (requestKeys pageBytes addresses).toFinset = distinctPages pageBytes addresses := by
  ext key
  rw [distinctPages, List.mem_toFinset, List.mem_toFinset, mem_requestKeys h hrows]

/-- **Each page is asked for once.** -/
theorem requestKeys_nodup (pageBytes : Nat) (addresses : List RowAddress) : (requestKeys pageBytes addresses).Nodup :=
  nodup_requestKeys pageBytes addresses

theorem length_requestKeys (h : PageSize pageBytes) (hrows : ∀ address ∈ addresses, HasRow files address) :
    (requestKeys pageBytes addresses).length = (distinctPages pageBytes addresses).card := by
  rw [← toFinset_requestKeys h hrows, List.toFinset_card_of_nodup (requestKeys_nodup pageBytes addresses)]

theorem readable_requestKeys (h : PageSize pageBytes) (hrows : ∀ address ∈ addresses, HasRow files address)
    {key : PageKey} (hkey : key ∈ requestKeys pageBytes addresses) :
    ∃ file, files[key.shard]? = some file ∧ key.byteOffset < file.size := by
  obtain ⟨address, haddress, hpage⟩ := List.mem_flatMap.mp ((mem_requestKeys h hrows).mp hkey)
  exact page_in_file (hrows address haddress) hpage

end Spark.Ple
