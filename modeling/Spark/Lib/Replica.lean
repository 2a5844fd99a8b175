import Mathlib.Data.List.Basic

/-!
# A replica behind a queue

A master sends commands to a replica over one queue and takes its replies from another. While commands are under way
the replica is behind: what it will be is what it becomes by serving all of them, and what the master is still to get
is what has come already and what these commands will be answered with. `InStep` says just that, so each party may
move whenever it can.

* **`serveAll`** — the commands under way, served one after the other.
* **`InStep`** — the replica will be as `view` has it, and its replies will be `awaited`.
* **`send`**, **`serve_next`**, **`receive`** — the three moves keep it; **`progress`** and **`quiet`** read it off.
-/

namespace Spark

variable {R F U : Type*}

/-- A replica, the commands under way to it, and the replies under way from it. -/
structure Link (R F U : Type*) where
  replica : R
  down : List F
  up : List U

namespace Link

/-- Commands served one after the other; none where the replica stops at one. -/
def serveAll (handle : R → F → Option (R × List U)) : R → List F → Option (R × List U)
  | r, [] => some (r, [])
  | r, f :: fs => (handle r f).bind fun out => (serveAll handle out.1 fs).map fun rest => (rest.1, out.2 ++ rest.2)

variable {handle : R → F → Option (R × List U)} {link : Link R F U} {r r' view view' : R} {f : F} {fs fs' : List F}
  {u : U} {us us' awaited : List U}

@[simp] theorem serveAll_nil : serveAll handle r [] = some (r, []) := rfl

theorem serveAll_cons (hserve : handle r f = some (r', us)) (hrest : serveAll handle r' fs = some (view, us')) :
    serveAll handle r (f :: fs) = some (view, us ++ us') := by
  rw [serveAll, hserve, Option.bind_some, hrest, Option.map_some]

theorem serveAll_one (hserve : handle r f = some (r', us)) : serveAll handle r [f] = some (r', us) := by
  rw [serveAll_cons hserve serveAll_nil, List.append_nil]

theorem serveAll_cons_inv (hall : serveAll handle r (f :: fs) = some (view, awaited)) :
    ∃ r' us us', handle r f = some (r', us) ∧ serveAll handle r' fs = some (view, us') ∧ awaited = us ++ us' := by
  rw [serveAll] at hall
  cases hserve : handle r f with
  | none =>
    rw [hserve] at hall
    cases hall
  | some out =>
    rw [hserve, Option.bind_some] at hall
    cases hrest : serveAll handle out.1 fs with
    | none =>
      rw [hrest] at hall
      cases hall
    | some rest =>
      rw [hrest] at hall
      cases hall
      exact ⟨out.1, out.2, rest.2, rfl, hrest, rfl⟩

theorem serveAll_append (hfront : serveAll handle r fs = some (view, us))
    (hback : serveAll handle view fs' = some (view', us')) :
    serveAll handle r (fs ++ fs') = some (view', us ++ us') := by
  induction fs generalizing r us with
  | nil =>
    cases hfront
    exact hback
  | cons f fs ih =>
    obtain ⟨r', front, back, hserve, hrest, rfl⟩ := serveAll_cons_inv hfront
    rw [List.cons_append, serveAll_cons hserve (ih hrest), List.append_assoc]

/-- Behind the commands under way the replica is `view`, and then all of `awaited` has come from it. -/
def InStep (handle : R → F → Option (R × List U)) (link : Link R F U) (view : R) (awaited : List U) : Prop :=
  ∃ replies, serveAll handle link.replica link.down = some (view, replies) ∧ link.up ++ replies = awaited

/-- The master sends: the view goes on, and there is more to wait for. -/
theorem InStep.send (h : InStep handle link view awaited) (hserve : serveAll handle view fs = some (view', us)) :
    InStep handle { link with down := link.down ++ fs } view' (awaited ++ us) := by
  obtain ⟨replies, hall, hreplies⟩ := h
  refine ⟨replies ++ us, serveAll_append hall hserve, ?_⟩
  rw [← hreplies, List.append_assoc]

/-- The replica serves the next command, and does not stop there. -/
theorem InStep.serve_next (h : InStep handle link view awaited) (hdown : link.down = f :: fs) :
    ∃ r us, handle link.replica f = some (r, us) ∧
      InStep handle { replica := r, down := fs, up := link.up ++ us } view awaited := by
  obtain ⟨replies, hall, hreplies⟩ := h
  rw [hdown] at hall
  obtain ⟨r, us, us', hserve, hrest, rfl⟩ := serveAll_cons_inv hall
  refine ⟨r, us, hserve, us', hrest, ?_⟩
  rw [← hreplies, List.append_assoc]

/-- The master receives: what has come first is what it waits for first. -/
theorem InStep.receive (h : InStep handle link view awaited) (hup : link.up = u :: us) :
    ∃ rest, awaited = u :: rest ∧ InStep handle { link with up := us } view rest := by
  obtain ⟨replies, hall, rfl⟩ := h
  refine ⟨us ++ replies, ?_, replies, hall, rfl⟩
  rw [hup, List.cons_append]

/-- A replica that serves nothing any more is what the view has it be. -/
theorem InStep.stuck (h : InStep handle link view awaited) (hstuck : ∀ f, handle link.replica f = none) :
    link.replica = view := by
  obtain ⟨replies, hall, -⟩ := h
  cases hdown : link.down with
  | nil =>
    rw [hdown] at hall
    cases hall
    rfl
  | cons f fs =>
    rw [hdown, serveAll, hstuck f] at hall
    cases hall

/-- Where no command is under way the replica is as the view has it. -/
theorem InStep.quiet (h : InStep handle link view awaited) (hdown : link.down = []) :
    link.replica = view ∧ link.up = awaited := by
  obtain ⟨replies, hall, hreplies⟩ := h
  rw [hdown] at hall
  cases hall
  rw [List.append_nil] at hreplies
  exact ⟨rfl, hreplies⟩

end Link

end Spark
