import Mathlib.Data.Finset.Card
import Spark.Rax.Removal

/-!
# Runs of a radix tree

* **`Op.effect`** — what a call is for: it reads and updates a finite map.
* **`Represents`** — a tree stands for a map, and its two counters count the keys and the nodes.
* **`raxInsert_represents`**, **`raxRemove_represents`** — one call on a tree is the call on its map.
* **`rax_runs`** — every run of calls is a run over the map.
-/

namespace Spark.Rax

open Trie

variable {V : Type}

/-! ## Calls -/

inductive Op (V : Type) where
  | find (s : List UInt8)
  | insert (s : List UInt8) (v : V)
  | tryInsert (s : List UInt8) (v : V)
  | remove (s : List UInt8)

/-- The value a call hands out (`*old`, or what is returned by `raxFind`), and its return code. -/
structure Reply (V : Type) where
  value : Option V
  ret : Bool

/-- A call on the tree; none where it writes behind the letters of a node. -/
def Tree.step (r : Tree V) : Op V → Option (Tree V × Reply V)
  | .find s => some (r, ⟨raxFind r s, (raxFind r s).isSome⟩)
  | .insert s v => some ((raxInsert r s v).1, ⟨(raxInsert r s v).2.1, (raxInsert r s v).2.2⟩)
  | .tryInsert s v => some ((raxTryInsert r s v).1, ⟨(raxTryInsert r s v).2.1, (raxTryInsert r s v).2.2⟩)
  | .remove s => (raxRemove r s).map fun out => (out.1, ⟨out.2, out.2.isSome⟩)

def Tree.run (r : Tree V) : List (Op V) → Option (Tree V × List (Reply V))
  | [] => some (r, [])
  | op :: ops => (r.step op).bind fun out => (out.1.run ops).map fun rest => (rest.1, out.2 :: rest.2)

/-- A call on a finite map. -/
def Op.effect (m : List UInt8 → Option V) : Op V → (List UInt8 → Option V) × Reply V
  | .find s => (m, ⟨m s, (m s).isSome⟩)
  | .insert s v => (Function.update m s (some v), ⟨m s, (m s).isNone⟩)
  | .tryInsert s v => (if m s = none then Function.update m s (some v) else m, ⟨m s, (m s).isNone⟩)
  | .remove s => (Function.update m s none, ⟨m s, (m s).isSome⟩)

/-- The map and the replies of a run. -/
def effects (m : List UInt8 → Option V) : List (Op V) → (List UInt8 → Option V) × List (Reply V)
  | [] => (m, [])
  | op :: ops =>
    let rest := effects (op.effect m).1 ops
    (rest.1, (op.effect m).2 :: rest.2)

/-- A key that goes in fits one node. -/
def Op.Fits : Op V → Prop
  | .insert s _ => s.length ≤ raxNodeMaxSize
  | .tryInsert s _ => s.length ≤ raxNodeMaxSize
  | _ => True

instance (op : Op V) : Decidable op.Fits := by
  cases op <;> unfold Op.Fits <;> infer_instance

/-! ## The invariant -/

/-- The keys of a map, counted. -/
def Counts (m : List UInt8 → Option V) (n : Nat) : Prop :=
  ∃ keys : Finset (List UInt8), (∀ k, k ∈ keys ↔ m k ≠ none) ∧ keys.card = n

structure Represents (r : Tree V) (m : List UInt8 → Option V) : Prop where
  rooted : Rooted r.head
  get : r.head.get = m
  numele : Counts m r.numele
  numnodes : r.numnodes = r.head.nodes
  fits : ∀ k, m k ≠ none → k.length ≤ raxNodeMaxSize

section Represents

variable {r : Tree V} {m : List UInt8 → Option V} {s : List UInt8} {n : Nat}

theorem raxNew_represents : Represents (raxNew : Tree V) empty where
  rooted := ⟨new_sound, rfl⟩
  get := new_get
  numele := ⟨∅, fun k => by simp [empty], rfl⟩
  numnodes := rfl
  fits k hk := absurd rfl hk

theorem Counts.insert (h : Counts m n) (s : List UInt8) (v : V) :
    Counts (Function.update m s (some v)) (n + if (m s).isNone then 1 else 0) := by
  obtain ⟨keys, hkeys, hcard⟩ := h
  refine ⟨Insert.insert s keys, fun k => ?_, ?_⟩
  · rw [Finset.mem_insert]
    by_cases hk : k = s
    · rw [hk, Function.update_self]
      simp
    · rw [Function.update_of_ne hk, hkeys]
      simp [hk]
  · by_cases hs : m s = none
    · have hmem : s ∉ keys := fun hmem => (hkeys s).mp hmem hs
      rw [Finset.card_insert_of_notMem hmem, hcard, hs]
      rfl
    · have hsome : (m s).isNone = false := Option.isNone_eq_false_iff.mpr (Option.isSome_iff_ne_none.mpr hs)
      rw [Finset.insert_eq_self.mpr ((hkeys s).mpr hs), hcard, hsome]
      rfl

theorem Counts.erase (h : Counts m n) (s : List UInt8) :
    Counts (Function.update m s none) (n - if (m s).isNone then 0 else 1) := by
  obtain ⟨keys, hkeys, hcard⟩ := h
  refine ⟨keys.erase s, fun k => ?_, ?_⟩
  · rw [Finset.mem_erase]
    by_cases hk : k = s
    · rw [hk, Function.update_self]
      simp
    · rw [Function.update_of_ne hk, hkeys]
      simp [hk]
  · by_cases hs : m s = none
    · have hmem : s ∉ keys := fun hmem => (hkeys s).mp hmem hs
      rw [Finset.erase_eq_of_notMem hmem, hcard, hs]
      rfl
    · have hsome : (m s).isNone = false := Option.isNone_eq_false_iff.mpr (Option.isSome_iff_ne_none.mpr hs)
      rw [Finset.card_erase_of_mem ((hkeys s).mpr hs), hcard, hsome]
      rfl

/-- An insertion of either kind. -/
theorem raxGenericInsert_represents (h : Represents r m) (hs : s.length ≤ raxNodeMaxSize) (v : V) (overwrite : Bool) :
    Represents (raxGenericInsert r s v overwrite).1
      (if overwrite = true ∨ m s = none then Function.update m s (some v) else m) := by
  have hspec := raxGenericInsert_spec h.rooted s v overwrite
  have hget := hspec.get
  have hnumele := hspec.numele
  have hnodes := hspec.nodes
  rw [h.get] at hget hnumele
  refine ⟨hspec.rooted, hget, ?_, ?_, fun k hk => ?_⟩
  · rw [hnumele]
    split
    case isTrue => exact h.numele.insert s v
    case isFalse hold =>
      have hsome : m s ≠ none := fun hnone => hold (.inr hnone)
      rw [Option.isNone_eq_false_iff.mpr (Option.isSome_iff_ne_none.mpr hsome)]
      exact h.numele
  · have hbefore := h.numnodes
    omega
  · split at hk
    case isTrue =>
      by_cases hks : k = s
      · rw [hks]
        exact hs
      · rw [Function.update_of_ne hks] at hk
        exact h.fits k hk
    case isFalse => exact h.fits k hk

/-- A sound tree stands for what its head holds. -/
theorem Represents.self (h : Represents r m) : Represents r r.head.get := by
  rw [h.get]
  exact h

theorem Represents.find (h : Represents r m) (s : List UInt8) : raxFind r s = m s := by
  rw [raxFind_get h.rooted, h.get]

/-- An insertion that overwrites is one into the map. -/
theorem raxInsert_represents (h : Represents r m) (hs : s.length ≤ raxNodeMaxSize) (v : V) :
    Represents (raxInsert r s v).1 (Function.update m s (some v)) ∧ (raxInsert r s v).2.2 = (m s).isNone := by
  have hrep := raxGenericInsert_represents h hs v true
  have hspec := raxGenericInsert_spec h.rooted s v true
  rw [if_pos (.inl rfl)] at hrep
  refine ⟨hrep, ?_⟩
  show (raxGenericInsert r s v true).2.2 = (m s).isNone
  rw [hspec.fresh, h.get]

/-- A removal from a tree whose keys fit is one from the map. -/
theorem raxRemove_represents (h : Represents r m) (s : List UInt8) :
    ∃ r', raxRemove r s = some (r', m s) ∧ Represents r' (Function.update m s none) := by
  obtain ⟨r', hout, hrooted, hget, hnumele, hnodes⟩ :=
    raxRemove_spec h.rooted h.numnodes s fun k _ hk => h.fits k (by rwa [h.get] at hk)
  rw [h.get] at hout hget hnumele
  refine ⟨r', hout, hrooted, hget, ?_, hnodes, fun k hk => ?_⟩
  · rw [hnumele]
    exact h.numele.erase s
  · by_cases hks : k = s
    · rw [hks, Function.update_self] at hk
      exact absurd rfl hk
    · rw [Function.update_of_ne hks] at hk
      exact h.fits k hk

/-- A call on a tree is the call on its map. -/
theorem step_represents (h : Represents r m) (op : Op V) (hop : op.Fits) :
    ∃ r', r.step op = some (r', (op.effect m).2) ∧ Represents r' (op.effect m).1 := by
  cases op with
  | find s =>
    refine ⟨r, ?_, h⟩
    show some (r, Reply.mk (raxFind r s) (raxFind r s).isSome) = _
    rw [h.find]
    rfl
  | insert s v =>
    have hspec := raxGenericInsert_spec h.rooted s v true
    have hrep := raxGenericInsert_represents h hop v true
    rw [if_pos (.inl rfl)] at hrep
    refine ⟨_, ?_, hrep⟩
    show some (_, Reply.mk (raxGenericInsert r s v true).2.1 (raxGenericInsert r s v true).2.2) = _
    rw [hspec.old, hspec.fresh, h.get]
    rfl
  | tryInsert s v =>
    have hspec := raxGenericInsert_spec h.rooted s v false
    have hrep := raxGenericInsert_represents h hop v false
    simp only [Bool.false_eq_true, false_or] at hrep
    refine ⟨_, ?_, hrep⟩
    show some (_, Reply.mk (raxGenericInsert r s v false).2.1 (raxGenericInsert r s v false).2.2) = _
    rw [hspec.old, hspec.fresh, h.get]
    rfl
  | remove s =>
    obtain ⟨r', hout, hrep⟩ := raxRemove_represents h s
    refine ⟨r', ?_, hrep⟩
    show (raxRemove r s).map _ = _
    rw [hout]
    rfl

theorem run_represents (h : Represents r m) (ops : List (Op V)) (hops : ∀ op ∈ ops, op.Fits) :
    ∃ r', r.run ops = some (r', (effects m ops).2) ∧ Represents r' (effects m ops).1 := by
  induction ops generalizing r m with
  | nil => exact ⟨r, rfl, h⟩
  | cons op ops ih =>
    obtain ⟨r₁, hstep, hrep⟩ := step_represents h op (hops op List.mem_cons_self)
    obtain ⟨r₂, hrun, hrep⟩ := ih hrep fun op' hop' => hops op' (List.mem_cons_of_mem _ hop')
    refine ⟨r₂, ?_, hrep⟩
    rw [Tree.run, hstep]
    show (r₁.run ops).map _ = _
    rw [hrun]
    rfl

end Represents

/-- Every run of calls from `raxNew` whose new keys fit one node is the run over the map: no call writes behind the
letters of a node, each call hands out what the map says, `numele` counts the keys, and the assertion of `raxFree`
holds. -/
theorem rax_runs (ops : List (Op V)) (hops : ∀ op ∈ ops, op.Fits) :
    ∃ r, raxNew.run ops = some (r, (effects empty ops).2) ∧ (∀ s, raxFind r s = (effects empty ops).1 s) ∧
      Counts (effects empty ops).1 r.numele ∧ raxFree r = true := by
  obtain ⟨r, hrun, hrep⟩ := run_represents raxNew_represents ops hops
  refine ⟨r, hrun, hrep.find, hrep.numele, ?_⟩
  unfold raxFree
  exact decide_eq_true hrep.numnodes

/-- Two tool-call ids, one of which goes again. -/
theorem rax_runs_sample :
    ∃ r, raxNew.run [.insert [99, 97, 108] 1, .insert [99, 97, 110] 2, .remove [99, 97, 110], .find [99, 97, 108]]
      = some (r, [⟨none, true⟩, ⟨none, true⟩, ⟨some 2, true⟩, ⟨some 1, true⟩]) ∧ raxFree r = true := by
  obtain ⟨r, hrun, -, -, hfree⟩ := rax_runs (V := Nat)
    [.insert [99, 97, 108] 1, .insert [99, 97, 110] 2, .remove [99, 97, 110], .find [99, 97, 108]] (by decide)
  exact ⟨r, hrun, hfree⟩

end Spark.Rax
