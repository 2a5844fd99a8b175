import Mathlib.Data.Set.Basic

/-!
# Write-back caches

A device holds a state, and the updates issued since the last barrier are pending. Readers see all
of them; a power loss keeps an arbitrary part, in order, and may tear an update that `tear` allows
to be torn.

* **`current`** — what readers see.
* **`Outcome`** — what a power loss may leave.
* **`Always`** — a property of every outcome, with one rule for each operation.
-/

namespace Spark

structure WriteBack (σ ω : Type*) where
  stored : σ
  pending : List ω

namespace WriteBack

variable {σ ω : Type*} (apply : σ → ω → σ) (tear : ω → ω → Prop)

/-- What a power loss leaves of a list of updates. -/
inductive Survives : List ω → List ω → Prop
  | nil : Survives [] []
  | kept {u : ω} {us vs : List ω} : Survives us vs → Survives (u :: us) (u :: vs)
  | lost {u : ω} {us vs : List ω} : Survives us vs → Survives (u :: us) vs
  | torn {u v : ω} {us vs : List ω} : tear u v → Survives us vs → Survives (u :: us) (v :: vs)

def current (c : WriteBack σ ω) : σ := c.pending.foldl apply c.stored

def push (c : WriteBack σ ω) (u : ω) : WriteBack σ ω := { c with pending := c.pending ++ [u] }

/-- The barrier. -/
def sync (c : WriteBack σ ω) : WriteBack σ ω := ⟨c.current apply, []⟩

def Outcome (c : WriteBack σ ω) (s : σ) : Prop :=
  ∃ us, Survives tear c.pending us ∧ s = us.foldl apply c.stored

def Always (P : σ → Prop) (c : WriteBack σ ω) : Prop := ∀ s, Outcome apply tear c s → P s

@[simp] theorem current_push (c : WriteBack σ ω) (u : ω) :
    (c.push u).current apply = apply (c.current apply) u := by
  simp [current, push]

@[simp] theorem current_sync (c : WriteBack σ ω) : (c.sync apply).current apply = c.current apply :=
  rfl

variable {apply tear}

theorem survives_refl (us : List ω) : Survives tear us us := by
  induction us with
  | nil => exact .nil
  | cons u us ih => exact .kept ih

/-- The last update of a list is kept, lost or torn on top of what survives of the others. -/
theorem survives_concat {us vs : List ω} {u : ω} (h : Survives tear (us ++ [u]) vs) :
    Survives tear us vs ∨
      ∃ ws v, Survives tear us ws ∧ vs = ws ++ [v] ∧ (v = u ∨ tear u v) := by
  induction us generalizing vs with
  | nil =>
    cases h with
    | kept h => cases h; exact .inr ⟨[], u, .nil, rfl, .inl rfl⟩
    | lost h => exact .inl h
    | torn htear h => cases h; exact .inr ⟨[], _, .nil, rfl, .inr htear⟩
  | cons first us ih =>
    cases h with
    | kept h =>
      rcases ih h with hrest | ⟨ws, v, hrest, rfl, hv⟩
      · exact .inl (.kept hrest)
      · exact .inr ⟨first :: ws, v, .kept hrest, rfl, hv⟩
    | lost h =>
      rcases ih h with hrest | ⟨ws, v, hrest, rfl, hv⟩
      · exact .inl (.lost hrest)
      · exact .inr ⟨ws, v, .lost hrest, rfl, hv⟩
    | torn htear h =>
      rcases ih h with hrest | ⟨ws, v, hrest, rfl, hv⟩
      · exact .inl (.torn htear hrest)
      · exact .inr ⟨_ :: ws, v, .torn htear hrest, rfl, hv⟩

theorem outcome_current (c : WriteBack σ ω) : Outcome apply tear c (c.current apply) :=
  ⟨c.pending, survives_refl _, rfl⟩

theorem Always.current {P : σ → Prop} {c : WriteBack σ ω} (h : Always apply tear P c) :
    P (c.current apply) :=
  h _ (outcome_current c)

/-- With nothing pending a power loss changes nothing. -/
theorem always_stored {P : σ → Prop} {s : σ} : Always apply tear P ⟨s, []⟩ ↔ P s := by
  constructor
  · intro h
    exact h.current
  · rintro h t ⟨us, hus, rfl⟩
    cases hus
    exact h

theorem always_sync {P : σ → Prop} {c : WriteBack σ ω} (h : P (c.current apply)) :
    Always apply tear P (c.sync apply) :=
  always_stored.mpr h

/-- A property survives an update when it survives every form in which the update may reach the
device. -/
theorem Always.push {P : σ → Prop} {c : WriteBack σ ω} {u : ω} (h : Always apply tear P c)
    (hu : ∀ v, v = u ∨ tear u v → ∀ s, P s → P (apply s v)) :
    Always apply tear P (c.push u) := by
  rintro t ⟨vs, hvs, rfl⟩
  rcases survives_concat hvs with hvs | ⟨ws, v, hws, rfl, hv⟩
  · exact h _ ⟨vs, hvs, rfl⟩
  · rw [List.foldl_append]
    exact hu v hv _ (h _ ⟨ws, hws, rfl⟩)

theorem Always.mono {P Q : σ → Prop} {c : WriteBack σ ω} (h : Always apply tear P c)
    (hPQ : ∀ s, P s → Q s) : Always apply tear Q c :=
  fun s hs => hPQ s (h s hs)

end WriteBack

end Spark
