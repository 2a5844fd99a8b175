import Mathlib.Data.List.Count
import Mathlib.Data.List.Range
import Mathlib.Data.List.Nodup

/-!
# Stable grouping by key

The elements of a list are dealt out to one segment for each key: the `t`-th element, of key `k`, goes to
`start k + (keys.take t).count k`, behind the earlier elements of its key. Where a segment has room for every
element of its key, the places are all different, and a table that is filled in at the places holds in each
segment the elements of its key in their order, and padding behind them.

* **`place_inj`** — no two elements go to one place.
* **`Dealt.step`** — dealing out one more element.
* **`Dealt.segment_eq`** — what a segment of the table holds.
-/

namespace Spark.Grouping

variable {keys : List Nat} {start : Nat → Nat} {t u k l : Nat}

/-! ## Earlier elements of the same key -/

theorem count_take_succ (ht : keys[t]? = some k) :
    (keys.take (t + 1)).count l = (keys.take t).count l + if k = l then 1 else 0 := by
  obtain ⟨hlt, hget⟩ := List.getElem?_eq_some_iff.mp ht
  rw [List.take_succ_eq_append_getElem hlt, List.count_append, List.count_singleton, hget]
  simp

theorem count_take_le (keys : List Nat) (k : Nat) {a b : Nat} (h : a ≤ b) :
    (keys.take a).count k ≤ (keys.take b).count k :=
  ((List.take_prefix_take_left h).sublist).count_le k

theorem count_take_lt (ht : keys[t]? = some k) (htu : t < u) : (keys.take t).count k < (keys.take u).count k := by
  have hnext := count_take_succ (l := k) ht
  have hle := count_take_le keys k (show t + 1 ≤ u by omega)
  simp only [if_true] at hnext
  omega

theorem count_take_lt_count (ht : keys[t]? = some k) : (keys.take t).count k < keys.count k := by
  have hlt := (List.getElem?_eq_some_iff.mp ht).1
  have := count_take_lt ht hlt
  rwa [List.take_length] at this

/-- The indices of the elements of key `k`, in their order. -/
def occurrences (keys : List Nat) (k : Nat) : List Nat :=
  (List.range keys.length).filter fun t => keys[t]? == some k

theorem occurrences_append (keys : List Nat) (x k : Nat) :
    occurrences (keys ++ [x]) k = occurrences keys k ++ if x = k then [keys.length] else [] := by
  have hold : (List.range keys.length).filter (fun t => (keys ++ [x])[t]? == some k) = occurrences keys k := by
    refine List.filter_congr fun t ht => ?_
    rw [List.getElem?_append_left (List.mem_range.mp ht)]
  rw [occurrences, List.length_append, List.length_singleton, List.range_succ, List.filter_append, hold]
  by_cases hx : x = k <;> simp [hx]

theorem length_occurrences (keys : List Nat) (k : Nat) : (occurrences keys k).length = keys.count k := by
  induction keys using List.reverseRecOn with
  | nil => rfl
  | append_singleton keys x ih =>
    rw [occurrences_append, List.length_append, ih, List.count_append, List.count_singleton]
    by_cases hx : x = k <;> simp [hx]

theorem mem_occurrences : t ∈ occurrences keys k ↔ keys[t]? = some k := by
  simp only [occurrences, List.mem_filter, List.mem_range, beq_iff_eq]
  exact ⟨And.right, fun h => ⟨(List.getElem?_eq_some_iff.mp h).1, h⟩⟩

/-- The order of the elements is kept. -/
theorem pairwise_occurrences (keys : List Nat) (k : Nat) : (occurrences keys k).Pairwise (· < ·) :=
  List.pairwise_lt_range.sublist List.filter_sublist

/-- The `t`-th element stands behind the earlier ones of its key. -/
theorem occurrences_getElem? (ht : keys[t]? = some k) :
    (occurrences keys k)[(keys.take t).count k]? = some t := by
  induction keys using List.reverseRecOn with
  | nil => cases ht
  | append_singleton keys x ih =>
    rw [occurrences_append]
    rcases Nat.lt_or_ge t keys.length with hlt | hge
    · rw [List.getElem?_append_left hlt] at ht
      rw [List.take_append_of_le_length (Nat.le_of_lt hlt), List.getElem?_append_left]
      · exact ih ht
      · rw [length_occurrences]
        exact count_take_lt_count ht
    · have hlt := (List.getElem?_eq_some_iff.mp ht).1
      rw [List.length_append, List.length_singleton] at hlt
      obtain rfl : t = keys.length := by omega
      have hx : x = k := by simpa using ht
      rw [List.take_append_of_le_length (Nat.le_refl _), List.take_length, if_pos hx,
        List.getElem?_append_right (by rw [length_occurrences])]
      simp [length_occurrences]

/-- Every number below the count of a key is the rank of an element. -/
theorem exists_of_lt_count {j : Nat} (hj : j < keys.count k) :
    ∃ t, keys[t]? = some k ∧ (keys.take t).count k = j := by
  have hlt : j < (occurrences keys k).length := by rwa [length_occurrences]
  have ht : keys[(occurrences keys k)[j]]? = some k := mem_occurrences.mp (List.getElem_mem hlt)
  refine ⟨_, ht, ?_⟩
  have hrank := occurrences_getElem? ht
  obtain ⟨hlt', hget⟩ := List.getElem?_eq_some_iff.mp hrank
  exact ((pairwise_occurrences keys k).nodup.getElem_inj_iff).mp hget

/-! ## Places -/

/-- The segment of a key ends before that of the next begins. -/
def Spaced (start : Nat → Nat) (keys : List Nat) : Prop :=
  ∀ k, start k + keys.count k ≤ start (k + 1)

theorem Spaced.mono (h : Spaced start keys) (hkl : k ≤ l) : start k ≤ start l := by
  induction hkl with
  | refl => exact Nat.le_refl _
  | step _ ih => exact Nat.le_trans ih (Nat.le_trans (Nat.le_add_right _ _) (h _))

/-- A place is in the segment of its key. -/
theorem Spaced.place_lt (h : Spaced start keys) (ht : keys[t]? = some k) :
    start k + (keys.take t).count k < start (k + 1) := by
  have := count_take_lt_count ht
  have := h k
  omega

/-- **No two elements go to one place.** -/
theorem place_inj (h : Spaced start keys) (ht : keys[t]? = some k) (hu : keys[u]? = some l)
    (heq : start k + (keys.take t).count k = start l + (keys.take u).count l) : t = u := by
  have htop := h.place_lt ht
  have hutop := h.place_lt hu
  rcases Nat.lt_trichotomy k l with hkl | rfl | hkl
  · have := h.mono (show k + 1 ≤ l from hkl)
    omega
  · -- one key: the later element has the larger rank
    rcases Nat.lt_trichotomy t u with htu | htu | htu
    · have := count_take_lt ht htu
      omega
    · exact htu
    · have := count_take_lt hu htu
      omega
  · have := h.mono (show l + 1 ≤ k from hkl)
    omega

/-! ## Dealing out -/

/-- The next free place of each of the first `bound` keys, after `n` elements. -/
def cursorsAt (start : Nat → Nat) (keys : List Nat) (bound n : Nat) : List Nat :=
  (List.range bound).map fun k => start k + (keys.take n).count k

theorem length_cursorsAt (start : Nat → Nat) (keys : List Nat) (bound n : Nat) :
    (cursorsAt start keys bound n).length = bound := by
  simp [cursorsAt]

theorem cursorsAt_getElem? {bound n : Nat} (hk : k < bound) :
    (cursorsAt start keys bound n)[k]? = some (start k + (keys.take n).count k) := by
  simp [cursorsAt, List.getElem?_range hk]

/-- The cursor of the key of the next element moves on, the others stay. -/
theorem cursorsAt_set {bound n : Nat} (hkey : keys[n]? = some k) :
    (cursorsAt start keys bound n).set k (start k + (keys.take n).count k + 1) =
      cursorsAt start keys bound (n + 1) := by
  apply List.ext_getElem?
  intro l
  rw [List.getElem?_set]
  rcases Nat.lt_or_ge l bound with hl | hl
  · rw [cursorsAt_getElem? hl, cursorsAt_getElem? hl, count_take_succ hkey, length_cursorsAt]
    split
    · next hkl =>
      subst hkl
      rw [if_pos hl]
      rfl
    · rfl
  · have hnone : ∀ m, (cursorsAt start keys bound m)[l]? = none := fun m =>
      List.getElem?_eq_none (by rwa [length_cursorsAt])
    rw [hnone, hnone, length_cursorsAt]
    split
    · next hkl => rw [if_neg (by omega)]
    · rfl

/-- The tables after `n` elements: `toPlace` holds the places of the elements dealt out, `table` the elements at
their places and `pad` elsewhere. -/
structure Dealt (start : Nat → Nat) (keys : List Nat) (pad size n : Nat) (toPlace table : List Nat) : Prop where
  length_toPlace : toPlace.length = keys.length
  length_table : table.length = size
  placed : ∀ t k, t < n → keys[t]? = some k → toPlace[t]? = some (start k + (keys.take t).count k)
  filled : ∀ t k, t < n → keys[t]? = some k → table[start k + (keys.take t).count k]? = some t
  padded : ∀ row, row < size → (∀ t k, t < n → keys[t]? = some k → start k + (keys.take t).count k ≠ row) →
    table[row]? = some pad

theorem dealt_zero (start : Nat → Nat) (keys : List Nat) (pad size : Nat) :
    Dealt start keys pad size 0 (List.replicate keys.length 0) (List.replicate size pad) where
  length_toPlace := List.length_replicate
  length_table := List.length_replicate
  placed _ _ h := absurd h (Nat.not_lt_zero _)
  filled _ _ h := absurd h (Nat.not_lt_zero _)
  padded _ h _ := List.getElem?_replicate_of_lt h

/-- One more element. -/
theorem Dealt.step {pad size n : Nat} {toPlace table : List Nat} (h : Dealt start keys pad size n toPlace table)
    (hspaced : Spaced start keys) (hkey : keys[n]? = some k) (hsize : start (k + 1) ≤ size) :
    Dealt start keys pad size (n + 1) (toPlace.set n (start k + (keys.take n).count k))
      (table.set (start k + (keys.take n).count k) n) := by
  have hlt := (List.getElem?_eq_some_iff.mp hkey).1
  have hplace := hspaced.place_lt hkey
  refine ⟨by rw [List.length_set, h.length_toPlace], by rw [List.length_set, h.length_table], ?_, ?_, ?_⟩
  · intro t l ht hl
    rcases Nat.lt_succ_iff_lt_or_eq.mp ht with htn | rfl
    · rw [List.getElem?_set_ne (by omega)]
      exact h.placed t l htn hl
    · rw [hkey] at hl
      cases hl
      exact List.getElem?_set_self (by rw [h.length_toPlace]; exact hlt)
  · intro t l ht hl
    rcases Nat.lt_succ_iff_lt_or_eq.mp ht with htn | rfl
    · -- an earlier element has another place
      rw [List.getElem?_set_ne fun heq => by
        have := place_inj hspaced hkey hl heq
        omega]
      exact h.filled t l htn hl
    · rw [hkey] at hl
      cases hl
      exact List.getElem?_set_self (by rw [h.length_table]; omega)
  · intro row hrow hfree
    rw [List.getElem?_set_ne (hfree n k (Nat.lt_succ_self n) hkey)]
    exact h.padded row hrow fun t l ht => hfree t l (Nat.lt_succ_of_lt ht)

variable {pad size : Nat} {toPlace table : List Nat}

theorem Dealt.getElem?_toPlace (h : Dealt start keys pad size keys.length toPlace table) {row : Nat}
    (ht : toPlace[t]? = some row) : ∃ k, keys[t]? = some k ∧ row = start k + (keys.take t).count k := by
  have hlt : t < keys.length := by
    rw [← h.length_toPlace]
    exact (List.getElem?_eq_some_iff.mp ht).1
  have hkey : keys[t]? = some keys[t] := List.getElem?_eq_getElem hlt
  refine ⟨_, hkey, ?_⟩
  have hplaced := h.placed t _ hlt hkey
  rw [ht] at hplaced
  exact Option.some.inj hplaced

/-- Different elements have different places. -/
theorem Dealt.nodup (h : Dealt start keys pad size keys.length toPlace table) (hspaced : Spaced start keys) :
    toPlace.Nodup := by
  rw [List.nodup_iff_getElem?_ne_getElem?]
  intro t u htu hu heq
  have ht : toPlace[t]? = some toPlace[t] := List.getElem?_eq_getElem (by omega)
  obtain ⟨k, hk, hplace⟩ := h.getElem?_toPlace ht
  obtain ⟨l, hl, hplace'⟩ := h.getElem?_toPlace (heq.symm.trans ht)
  have := place_inj hspaced hk hl (hplace.symm.trans hplace')
  omega

/-- **A segment of the table** holds the elements of its key in their order and is padded behind them. -/
theorem Dealt.segment_eq (h : Dealt start keys pad size keys.length toPlace table) (hspaced : Spaced start keys)
    (hk : start (k + 1) ≤ size) :
    (table.drop (start k)).take (start (k + 1) - start k) =
      occurrences keys k ++ List.replicate (start (k + 1) - start k - keys.count k) pad := by
  have hroom := hspaced k
  apply List.ext_getElem?
  intro j
  rcases Nat.lt_or_ge j (start (k + 1) - start k) with hj | hj
  · rw [List.getElem?_take_of_lt hj, List.getElem?_drop]
    rcases Nat.lt_or_ge j (keys.count k) with hcount | hcount
    · obtain ⟨t, ht, rfl⟩ := exists_of_lt_count hcount
      rw [List.getElem?_append_left (by rwa [length_occurrences]), occurrences_getElem? ht]
      exact h.filled t k (List.getElem?_eq_some_iff.mp ht).1 ht
    · rw [List.getElem?_append_right (by rwa [length_occurrences]), length_occurrences,
        List.getElem?_replicate_of_lt (by omega)]
      refine h.padded _ (by omega) fun t l _ ht heq => ?_
      have htop := hspaced.place_lt ht
      rcases Nat.lt_trichotomy l k with hlk | rfl | hlk
      · have := hspaced.mono (show l + 1 ≤ k from hlk)
        omega
      · have := count_take_lt_count ht
        omega
      · have := hspaced.mono (show k + 1 ≤ l from hlk)
        omega
  · have hlength : (occurrences keys k ++ List.replicate (start (k + 1) - start k - keys.count k) pad).length =
        start (k + 1) - start k := by
      rw [List.length_append, length_occurrences, List.length_replicate]
      omega
    rw [List.getElem?_eq_none (Nat.le_trans (List.length_take_le _ _) hj),
      List.getElem?_eq_none (by rw [hlength]; exact hj)]

end Spark.Grouping
