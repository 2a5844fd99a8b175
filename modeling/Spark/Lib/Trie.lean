import Mathlib.Data.List.Infix
import Mathlib.Logic.Function.Basic

/-!
# Maps over strings, by their first letters

A map over strings is a value for the empty string and a map behind each letter. A tree of such maps says one thing
however its chains are cut, and a part of it that is replaced changes the map behind one string only.

* **`branch`**, **`chain`** — a map by what stands behind one letter, and behind one string.
* **`Hole`** — a map with a part left out, which stands behind a string.
* **`Hole.update`** — an update of the part is an update of the whole.
-/

namespace Spark.Trie

variable {α β : Type} [DecidableEq α]

/-- No string has a value. -/
def empty : List α → Option β := fun _ => none

/-- A value for the empty string, and a map behind each letter. -/
def branch (value : Option β) (edges : α → List α → Option β) : List α → Option β
  | [] => value
  | c :: k => edges c k

/-- A value for the empty string, and a map behind one string. -/
def chain (value : Option β) (s : List α) (m : List α → Option β) (k : List α) : Option β :=
  if k = [] then value else if s.isPrefixOf k then m (k.drop s.length) else none

section Chains

variable {value : Option β} {s t k : List α} {m : List α → Option β} {c : α}

@[simp] theorem chain_nil_key : chain value s m [] = value := if_pos rfl

theorem chain_append_key (hs : s ≠ []) : chain value s m (s ++ k) = m k := by
  have hne : s ++ k ≠ [] := fun h => hs (List.append_eq_nil_iff.mp h).1
  rw [chain, if_neg hne, if_pos (List.isPrefixOf_iff_prefix.mpr (List.prefix_append s k)), List.drop_left]

theorem chain_off (hk : k ≠ []) (hoff : ¬ s <+: k) : chain value s m k = none := by
  rw [chain, if_neg hk, if_neg fun h => hoff (List.isPrefixOf_iff_prefix.mp h)]

/-- A chain is cut anywhere. -/
theorem chain_append (hs : s ≠ []) (ht : t ≠ []) : chain value (s ++ t) m = chain value s (chain none t m) := by
  funext k
  by_cases hk : k = []
  · subst hk
    rfl
  by_cases hpre : s <+: k
  · obtain ⟨rest, rfl⟩ := hpre
    rw [chain_append_key hs]
    by_cases hmore : t <+: rest
    · obtain ⟨rest, rfl⟩ := hmore
      have hst : s ++ t ≠ [] := fun h => hs (List.append_eq_nil_iff.mp h).1
      rw [chain_append_key ht, ← List.append_assoc, chain_append_key hst]
    · have hoff : ¬ s ++ t <+: s ++ rest := fun h => hmore ((List.prefix_append_right_inj s).mp h)
      rw [chain_off hk hoff]
      by_cases hrest : rest = []
      · subst hrest
        rfl
      · rw [chain_off hrest hmore]
  · rw [chain_off hk hpre, chain_off hk fun h => hpre ((List.prefix_append s t).trans h)]

theorem chain_singleton : chain value [c] m = branch value (Function.update (fun _ => empty) c m) := by
  funext k
  cases k with
  | nil => rfl
  | cons d k =>
    rw [branch]
    by_cases hd : d = c
    · subst hd
      rw [Function.update_self]
      exact chain_append_key (s := [d]) (List.cons_ne_nil d [])
    · rw [Function.update_of_ne hd]
      apply chain_off (List.cons_ne_nil d k)
      intro hpre
      exact hd (List.cons_prefix_cons.mp hpre).1.symm

theorem chain_empty (value : Option β) (s : List α) : chain value s empty = chain value [] empty := by
  funext k
  unfold chain empty
  simp

theorem branch_empty (value : Option β) : branch value (fun _ : α => empty) = chain value [] empty := by
  funext k
  cases k with
  | nil => rfl
  | cons c k => simp [branch, chain, empty]

end Chains

/-! ## Holes -/

/-- A map `F` around a part that stands behind the string `p`. -/
structure Hole (F : (List α → Option β) → List α → Option β) (p : List α) : Prop where
  at_path : ∀ m k, F m (p ++ k) = m k
  off_path : ∀ m m' k, ¬ p <+: k → F m k = F m' k

namespace Hole

variable {F G : (List α → Option β) → List α → Option β} {p q k : List α} {m m' : List α → Option β}

omit [DecidableEq α] in
theorem nil : Hole (fun m : List α → Option β => m) [] where
  at_path _ _ := rfl
  off_path _ _ k h := absurd (List.nil_prefix (l := k)) h

theorem comp (hF : Hole F p) (hG : Hole G q) : Hole (fun m => F (G m)) (p ++ q) where
  at_path m k := by
    rw [List.append_assoc, hF.at_path, hG.at_path]
  off_path m m' k h := by
    by_cases hp : p <+: k
    · obtain ⟨rest, rfl⟩ := hp
      rw [hF.at_path, hF.at_path]
      exact hG.off_path m m' rest fun hq => h ((List.prefix_append_right_inj p).mpr hq)
    · exact hF.off_path (G m) (G m') k hp

/-- What is changed in the part at one string is changed in the whole at one string. -/
theorem update (hF : Hole F p) (m : List α → Option β) (k : List α) (v : Option β) :
    F (Function.update m k v) = Function.update (F m) (p ++ k) v := by
  funext k'
  by_cases hp : p <+: k'
  · obtain ⟨rest, rfl⟩ := hp
    rw [hF.at_path]
    by_cases hrest : rest = k
    · rw [hrest, Function.update_self, Function.update_self]
    · have hne : p ++ rest ≠ p ++ k := fun h => hrest (List.append_cancel_left h)
      rw [Function.update_of_ne hrest, Function.update_of_ne hne, hF.at_path]
  · have hne : k' ≠ p ++ k := by
      rintro rfl
      exact hp (List.prefix_append p k)
    rw [Function.update_of_ne hne]
    exact hF.off_path _ _ k' hp

end Hole

theorem hole_chain {value : Option β} {s : List α} (hs : s ≠ []) : Hole (chain value s) s where
  at_path _ _ := chain_append_key hs
  off_path m m' k h := by
    by_cases hk : k = []
    · subst hk
      rfl
    · rw [chain_off hk h, chain_off hk h]

theorem hole_branch (value : Option β) (edges : α → List α → Option β) (c : α) :
    Hole (fun m => branch value (Function.update edges c m)) [c] where
  at_path m k := by
    show Function.update edges c m c k = m k
    rw [Function.update_self]
  off_path m m' k h := by
    cases k with
    | nil => rfl
    | cons d k =>
      have hd : d ≠ c := by
        rintro rfl
        exact h (List.prefix_append [d] k)
      show Function.update edges c m d k = Function.update edges c m' d k
      rw [Function.update_of_ne hd, Function.update_of_ne hd]

end Spark.Trie
