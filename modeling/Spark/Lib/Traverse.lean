import Mathlib.Data.List.Forall2

/-!
# Fallible traversals

What a successful sequence in `Except` says about its parts, and a successful `mapM` over a list about each
element.
-/

namespace Spark.Traverse

variable {α β ε : Type}

/-- A sequence succeeds exactly when both its parts do. -/
theorem bind_eq_ok {x : Except ε α} {f : α → Except ε β} {b : β} :
    x >>= f = .ok b ↔ ∃ a, x = .ok a ∧ f a = .ok b := by
  cases x with
  | error e =>
    constructor
    · intro h
      cases h
    · intro h
      obtain ⟨a, ha, -⟩ := h
      cases ha
  | ok a =>
    constructor
    · exact fun h => ⟨a, rfl, h⟩
    · intro h
      obtain ⟨a', ha, hf⟩ := h
      cases ha
      exact hf

/-- A traversal succeeds with `ys` exactly when each element succeeds with its own answer. -/
theorem mapM_ok_iff {f : α → Except ε β} {xs : List α} {ys : List β} :
    xs.mapM f = .ok ys ↔ List.Forall₂ (fun x y => f x = .ok y) xs ys := by
  induction xs generalizing ys with
  | nil =>
    rw [List.mapM_nil, List.forall₂_nil_left_iff]
    exact ⟨fun h => by cases h; rfl, fun h => by subst h; rfl⟩
  | cons x xs ih =>
    rw [List.mapM_cons]
    cases hx : f x with
    | error e =>
      constructor
      · intro h; cases h
      · rintro (_ | ⟨h, -⟩)
        rw [hx] at h
        cases h
    | ok y =>
      cases hxs : xs.mapM f with
      | error e =>
        constructor
        · intro h; cases h
        · rintro (_ | ⟨-, h⟩)
          rw [← ih, hxs] at h
          cases h
      | ok ys' =>
        constructor
        · intro h
          cases h
          exact .cons hx (ih.mp hxs)
        · rintro (_ | ⟨h, hrest⟩)
          rw [hx] at h
          rw [← ih, hxs] at hrest
          cases h
          cases hrest
          rfl

/-- A traversal succeeds when each element does. -/
theorem exists_mapM_ok {f : α → Except ε β} {xs : List α} (h : ∀ x ∈ xs, ∃ y, f x = .ok y) :
    ∃ ys, xs.mapM f = .ok ys := by
  induction xs with
  | nil => exact ⟨[], rfl⟩
  | cons x xs ih =>
    obtain ⟨y, hy⟩ := h x List.mem_cons_self
    obtain ⟨ys, hys⟩ := ih fun x hx => h x (List.mem_cons_of_mem _ hx)
    exact ⟨y :: ys, mapM_ok_iff.mpr (.cons hy (mapM_ok_iff.mp hys))⟩

/-- A traversal fails with the error of one of its elements. -/
theorem exists_of_mapM_error {f : α → Except ε β} {xs : List α} {e : ε} (h : xs.mapM f = .error e) :
    ∃ x ∈ xs, f x = .error e := by
  induction xs with
  | nil => cases h
  | cons x xs ih =>
    rw [List.mapM_cons] at h
    cases hx : f x with
    | error e' =>
      rw [hx] at h
      cases h
      exact ⟨x, List.mem_cons_self, hx⟩
    | ok y =>
      rw [hx] at h
      cases hxs : xs.mapM f with
      | error e' =>
        rw [hxs] at h
        cases h
        obtain ⟨x', hmem, he⟩ := ih hxs
        exact ⟨x', List.mem_cons_of_mem _ hmem, he⟩
      | ok ys =>
        rw [hxs] at h
        cases h

/-- Every answer of a pointwise relation comes from an element. -/
theorem forall₂_exists_left {R : α → β → Prop} {xs : List α} {ys : List β}
    (h : List.Forall₂ R xs ys) {y : β} (hy : y ∈ ys) : ∃ x ∈ xs, R x y := by
  induction h with
  | nil => cases hy
  | cons hhead _ ih =>
    rcases List.mem_cons.mp hy with rfl | hy
    · exact ⟨_, by simp, hhead⟩
    · obtain ⟨x, hx, hxy⟩ := ih hy
      exact ⟨x, List.mem_cons_of_mem _ hx, hxy⟩

/-- Every element of a pointwise relation has an answer. -/
theorem forall₂_exists_right {R : α → β → Prop} {xs : List α} {ys : List β}
    (h : List.Forall₂ R xs ys) {x : α} (hx : x ∈ xs) : ∃ y ∈ ys, R x y :=
  forall₂_exists_left h.flip hx

/-- What holds of every answer, beside the relation. -/
theorem forall₂_and_right {R : α → β → Prop} {P : β → Prop} {xs : List α} {ys : List β}
    (h : List.Forall₂ R xs ys) (hys : ∀ y ∈ ys, P y) : List.Forall₂ (fun x y => R x y ∧ P y) xs ys := by
  induction h with
  | nil => exact .nil
  | cons hhead _ ih =>
    obtain ⟨hy, hlater⟩ := List.forall_mem_cons.mp hys
    exact .cons ⟨hhead, hy⟩ (ih hlater)

/-- Two traversals whose answers are the same. -/
theorem mapM_congr {f g : α → Except ε β} {xs : List α} (h : ∀ x ∈ xs, f x = g x) : xs.mapM f = xs.mapM g := by
  induction xs with
  | nil => rfl
  | cons x xs ih =>
    obtain ⟨hx, hxs⟩ := List.forall_mem_cons.mp h
    rw [List.mapM_cons, List.mapM_cons, hx, ih hxs]

/-- Two loops whose rounds are the same. -/
theorem foldlM_congr {f g : β → α → Except ε β} {xs : List α} (h : ∀ x ∈ xs, ∀ b, f b x = g b x) (b : β) :
    xs.foldlM f b = xs.foldlM g b := by
  induction xs generalizing b with
  | nil => rfl
  | cons x xs ih =>
    obtain ⟨hx, hxs⟩ := List.forall_mem_cons.mp h
    rw [List.foldlM_cons, List.foldlM_cons, hx b]
    cases g b x with
    | error e => rfl
    | ok b' => exact ih hxs b'

/-- A counting loop that succeeds keeps what its rounds keep. `P i` is the invariant before round `i`. -/
theorem foldlM_range_ok {f : β → Nat → Except ε β} {P : Nat → β → Prop} {n : Nat} {b b' : β} (hstart : P 0 b)
    (hround : ∀ i < n, ∀ b b', P i b → f b i = .ok b' → P (i + 1) b')
    (h : (List.range n).foldlM f b = .ok b') : P n b' := by
  induction n generalizing b' with
  | zero =>
    cases h
    exact hstart
  | succ n ih =>
    rw [List.range_succ, List.foldlM_append] at h
    obtain ⟨middle, hfront, hlast⟩ := bind_eq_ok.mp h
    rw [List.foldlM_cons] at hlast
    obtain ⟨after, hafter, hdone⟩ := bind_eq_ok.mp hlast
    cases hdone
    exact hround n (by omega) middle b' (ih (fun i hi => hround i (by omega)) hfront) hafter

/-- A counting loop whose rounds succeed succeeds. -/
theorem exists_foldlM_range {f : β → Nat → Except ε β} {P : Nat → β → Prop} {n : Nat} {b : β} (hstart : P 0 b)
    (hround : ∀ i < n, ∀ b, P i b → ∃ b', f b i = .ok b' ∧ P (i + 1) b') :
    ∃ b', (List.range n).foldlM f b = .ok b' ∧ P n b' := by
  induction n with
  | zero => exact ⟨b, rfl, hstart⟩
  | succ n ih =>
    obtain ⟨middle, hfront, hmiddle⟩ := ih fun i hi => hround i (by omega)
    obtain ⟨last, hlast, hkept⟩ := hround n (by omega) middle hmiddle
    refine ⟨last, ?_, hkept⟩
    rw [List.range_succ, List.foldlM_append]
    refine bind_eq_ok.mpr ⟨middle, hfront, ?_⟩
    rw [List.foldlM_cons]
    exact bind_eq_ok.mpr ⟨last, hlast, rfl⟩

end Spark.Traverse
