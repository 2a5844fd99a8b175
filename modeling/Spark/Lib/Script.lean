import Mathlib.Tactic.TypeStar

/-!
# Scripts that may be cut

A script runs on a state and leaves a record of every state it went through, so that a run cut
anywhere is a member of the record. A triple says what holds before, what holds wherever the run
is cut, and how it ends.

* **`act`** — one step that changes the state.
* **`ask`** — a look at the state, which may end the run.
* **`Triple`** — the specification, with one rule for each way to build a script.
-/

namespace Spark

/-- One run: the state after each step, how the run ended and what it left. -/
structure Ran (σ ε α : Type*) where
  states : List σ
  result : Except ε α
  final : σ

structure Script (σ ε α : Type*) where
  run : σ → Ran σ ε α

namespace Script

universe u v w

variable {σ : Type u} {ε : Type v} {α β : Type w}

def act (f : σ → σ) : Script σ ε Unit := ⟨fun s => ⟨[f s], .ok (), f s⟩⟩

def ask (f : σ → Except ε α) : Script σ ε α := ⟨fun s => ⟨[], f s, s⟩⟩

/-- A computation that does not look at the state. -/
def lift (x : Except ε α) : Script σ ε α := ask fun _ => x

instance : Monad (Script.{u, v, w} σ ε) where
  pure a := ⟨fun s => ⟨[], .ok a, s⟩⟩
  bind x f := ⟨fun s =>
    match (x.run s).result with
    | .error e => ⟨(x.run s).states, .error e, (x.run s).final⟩
    | .ok a =>
      let rest := (f a).run (x.run s).final
      ⟨(x.run s).states ++ rest.states, rest.result, rest.final⟩⟩

variable (inv fails : σ → Prop)

/-- From a state with `pre`, every state on the way has `inv`, an answer comes with `post`, and an
error leaves a state with `fails`. -/
def Triple (pre : σ → Prop) (x : Script σ ε α) (post : α → σ → Prop) : Prop :=
  ∀ s, pre s → (∀ t ∈ (x.run s).states, inv t) ∧
    match (x.run s).result with
    | .ok a => post a (x.run s).final
    | .error _ => fails (x.run s).final

variable {inv fails}

theorem triple_pure {pre : σ → Prop} {a : α} {post : α → σ → Prop} (h : ∀ s, pre s → post a s) :
    Triple inv fails pre (pure a : Script σ ε α) post := by
  intro s hs
  exact ⟨nofun, h s hs⟩

theorem triple_bind {pre : σ → Prop} {x : Script σ ε α} {f : α → Script σ ε β}
    (mid : α → σ → Prop) {post : β → σ → Prop} (hx : Triple inv fails pre x mid)
    (hf : ∀ a, Triple inv fails (mid a) (f a) post) : Triple inv fails pre (x >>= f) post := by
  intro s hs
  obtain ⟨hstates, hend⟩ := hx s hs
  simp only [bind]
  cases hresult : (x.run s).result with
  | error e =>
    rw [hresult] at hend
    exact ⟨hstates, hend⟩
  | ok a =>
    rw [hresult] at hend
    obtain ⟨hrest, hpost⟩ := hf a _ hend
    refine ⟨?_, hpost⟩
    intro t ht
    rcases List.mem_append.mp ht with ht | ht
    · exact hstates t ht
    · exact hrest t ht

theorem triple_act {pre : σ → Prop} {f : σ → σ} {post : Unit → σ → Prop}
    (h : ∀ s, pre s → inv (f s) ∧ post () (f s)) :
    Triple inv fails pre (act f : Script σ ε Unit) post := by
  intro s hs
  obtain ⟨hinv, hpost⟩ := h s hs
  refine ⟨?_, hpost⟩
  intro t ht
  rw [List.mem_singleton.mp ht]
  exact hinv

theorem triple_ask {pre : σ → Prop} {f : σ → Except ε α} {post : α → σ → Prop}
    (hok : ∀ s a, pre s → f s = .ok a → post a s) (herror : ∀ s e, pre s → f s = .error e → fails s) :
    Triple inv fails pre (ask f) post := by
  intro s hs
  refine ⟨nofun, ?_⟩
  show match f s with
    | .ok a => post a s
    | .error _ => fails s
  cases hf : f s with
  | ok a => exact hok s a hs hf
  | error e => exact herror s e hs hf

theorem triple_lift {pre : σ → Prop} {x : Except ε α} {post : α → σ → Prop}
    (hok : ∀ s a, pre s → x = .ok a → post a s) (herror : ∀ s e, pre s → x = .error e → fails s) :
    Triple inv fails pre (lift x) post :=
  triple_ask hok herror

theorem Triple.weaken {pre pre' : σ → Prop} {x : Script σ ε α} {post post' : α → σ → Prop}
    (h : Triple inv fails pre x post) (hpre : ∀ s, pre' s → pre s)
    (hpost : ∀ a s, post a s → post' a s) : Triple inv fails pre' x post' := by
  intro s hs
  obtain ⟨hstates, hend⟩ := h s (hpre s hs)
  refine ⟨hstates, ?_⟩
  cases hresult : (x.run s).result with
  | error e => rw [hresult] at hend; exact hend
  | ok a => rw [hresult] at hend; exact hpost a _ hend

/-- A pure fact of the precondition may be assumed. -/
theorem triple_of_fact {p : Prop} {pre : σ → Prop} {x : Script σ ε α} {post : α → σ → Prop}
    (h : p → Triple inv fails pre x post) : Triple inv fails (fun s => p ∧ pre s) x post :=
  fun s hs => h hs.1 s hs.2

/-- A look whose answer is known. -/
theorem triple_answer {pre : σ → Prop} {f : σ → Except ε α} {k : α → Script σ ε β}
    {post : β → σ → Prop} (a : α) (h : ∀ s, pre s → f s = .ok a) (hk : Triple inv fails pre (k a) post) :
    Triple inv fails pre (ask f >>= k) post := by
  refine triple_bind (fun b s => b = a ∧ pre s) (triple_ask ?_ ?_) fun b => triple_of_fact ?_
  · intro s b hs hb
    rw [h s hs] at hb
    exact ⟨(Except.ok.inj hb).symm, hs⟩
  · intro s e hs he
    rw [h s hs] at he
    cases he
  · rintro rfl
    exact hk

theorem triple_exists {ι : Type*} {pre : ι → σ → Prop} {x : Script σ ε α} {post : α → σ → Prop}
    (h : ∀ i, Triple inv fails (pre i) x post) :
    Triple inv fails (fun s => ∃ i, pre i s) x post := by
  rintro s ⟨i, hs⟩
  exact h i s hs

/-- What a script answers says nothing about a fact that holds anyway. -/
theorem triple_fact {p : Prop} {pre : σ → Prop} (hp : ∀ s, pre s → p) (x : Script σ ε α) :
    Triple (fun _ => True) (fun _ => True) pre x (fun _ _ => p) := by
  intro s hs
  refine ⟨fun _ _ => trivial, ?_⟩
  split
  · exact hp s hs
  · trivial

/-! ## The states of a run -/

theorem mem_states_answer {f : σ → Except ε α} {k : α → Script σ ε β} {s t : σ} (a : α)
    (h : f s = .ok a) (ht : t ∈ ((k a).run s).states) : t ∈ ((ask f >>= k).run s).states := by
  simp only [bind, ask, h, List.nil_append]
  exact ht

theorem mem_states_lift {x : Except ε α} {k : α → Script σ ε β} {s t : σ} (a : α)
    (h : x = .ok a) (ht : t ∈ ((k a).run s).states) : t ∈ ((lift x >>= k).run s).states :=
  mem_states_answer a h ht

theorem mem_states_bind {x : Script σ ε α} {k : α → Script σ ε β} {s t : σ}
    (h : t ∈ (x.run s).states) : t ∈ ((x >>= k).run s).states := by
  simp only [bind]
  split
  · exact h
  · exact List.mem_append_left _ h

end Script

end Spark
