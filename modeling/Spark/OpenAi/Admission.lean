import Mathlib.Algebra.GroupWithZero.Nat
import Spark.OpenAi.Stream

/-!
# Admission

`OpenAiServer::serve` admits a request when fewer than `max_in_flight_requests` permits are out, and the
connection thread holds the permit until its handler returns. A streaming handler hands the generation to
a producer thread of its own and only forwards frames: the producer learns that its client is gone when it
next sends, and until then `backend.generate` goes on without a permit.

The threads are a transition system: each connection is its handler, its producer and the frame channel
between them, and any of them may move next.

* **`Connection.Step`** — the moves of one connection.
* **`Run.inProgress_le`** — generations exceed the limit by at most the permits given back too early.
* **`in_flight_is_hard_limit`** — none is given back early, and the limit holds at every state.
-/

namespace Spark.OpenAi

/-- `SSE_FRAME_CHANNEL_CAPACITY`. -/
def sseFrameChannelCapacity : Nat := 1

/-- A connection thread. -/
inductive Handler where
  /-- Routing, reading the body, parsing, `prepare`. -/
  | preparing
  /-- In `backend.generate`, for an answer that is not streamed. -/
  | generating
  /-- In the last write of the answer, after which it returns whatever came of the write. -/
  | responding
  /-- In `respond_sse_frames`, writing the head or a frame. -/
  | writing
  /-- In `respond_sse_frames`, waiting for a frame. -/
  | waiting
  /-- Returned, the permit still held. -/
  | leaving
  /-- Gone, the permit given back. -/
  | finished
  deriving DecidableEq, Repr

/-- The producer thread of a streaming handler. -/
inductive Producer where
  | absent
  /-- Before `backend.generate`, with frames of the opening still to send. -/
  | opening (left : Nat)
  | generating
  /-- Behind `backend.generate`. -/
  | finishing
  | exited
  deriving DecidableEq, Repr

structure Connection where
  handler : Handler
  producer : Producer
  /-- Frames in the channel. -/
  queued : Nat
  deriving DecidableEq, Repr

inductive Endpoint where
  | chat
  | responses

/-- Frames a producer sends before it generates. -/
def Endpoint.openingFrames : Endpoint → Nat
  | .chat => 1
  | .responses => 4

example (prepared : PreparedResponse) : Endpoint.responses.openingFrames = (prologue prepared).length := rfl

namespace Connection

def admitted : Connection := { handler := .preparing, producer := .absent, queued := 0 }

/-- The handler still owns the receiver. -/
def receiving (c : Connection) : Bool := c.handler == .writing || c.handler == .waiting

/-- The handler still owns its permit. -/
def live (c : Connection) : Bool := decide (c.handler ≠ .finished)

/-- The producer is past its opening frames and not out of `backend.generate`: it needs no one to go on. -/
def committed (c : Connection) : Bool := c.producer == .opening 0 || c.producer == .generating

/-- The calls of `backend.generate` in progress. -/
def generations (c : Connection) : Nat :=
  (if c.handler = .generating then 1 else 0) + (if c.producer = .generating then 1 else 0)

inductive Step : Connection → Connection → Prop where
  /-- A route that generates nothing, or a request refused. -/
  | answer {c} (h : c.handler = .preparing) : Step c { c with handler := .responding }
  | generate {c} (h : c.handler = .preparing) : Step c { c with handler := .generating }
  /-- `respond_streaming`: the producer is spawned, the handler begins to write. -/
  | stream {c} (endpoint : Endpoint) (h : c.handler = .preparing) :
      Step c { c with handler := .writing, producer := .opening endpoint.openingFrames }
  /-- The backend is done or has failed. -/
  | generated {c} (h : c.handler = .generating) : Step c { c with handler := .responding }
  | responded {c} (h : c.handler = .responding) : Step c { c with handler := .leaving }
  | written {c} (h : c.handler = .writing) : Step c { c with handler := .waiting }
  /-- The client is gone: the handler returns and drops the receiver. -/
  | writeFailed {c} (h : c.handler = .writing) : Step c { c with handler := .leaving }
  | received {c} (h : c.handler = .waiting) (hq : 0 < c.queued) :
      Step c { c with handler := .writing, queued := c.queued - 1 }
  /-- The sender is gone and the channel empty; the terminating chunk is left to write. -/
  | closed {c} (h : c.handler = .waiting) (hq : c.queued = 0) (hp : c.producer = .exited) :
      Step c { c with handler := .responding }
  | opened {c left} (h : c.producer = .opening (left + 1)) (hr : c.receiving = true)
      (hq : c.queued < sseFrameChannelCapacity) :
      Step c { c with producer := .opening left, queued := c.queued + 1 }
  | openingRefused {c left} (h : c.producer = .opening (left + 1)) (hr : c.receiving = false) :
      Step c { c with producer := .exited }
  | entered {c} (h : c.producer = .opening 0) : Step c { c with producer := .generating }
  /-- The callback sends a delta. A full channel keeps it waiting. -/
  | emitted {c} (h : c.producer = .generating) (hr : c.receiving = true)
      (hq : c.queued < sseFrameChannelCapacity) : Step c { c with queued := c.queued + 1 }
  /-- The callback's send fails, and the backend stops on it. -/
  | emitRefused {c} (h : c.producer = .generating) (hr : c.receiving = false) :
      Step c { c with producer := .finishing }
  | returned {c} (h : c.producer = .generating) : Step c { c with producer := .finishing }
  | flushed {c} (h : c.producer = .finishing) (hr : c.receiving = true)
      (hq : c.queued < sseFrameChannelCapacity) : Step c { c with queued := c.queued + 1 }
  | exited {c} (h : c.producer = .finishing) : Step c { c with producer := .exited }

end Connection

/-! ## The server -/

structure Server where
  /-- The counter the permits share. -/
  inFlight : Nat
  connections : List Connection

namespace Server

def idle : Server := { inFlight := 0, connections := [] }

def inProgress (s : Server) : Nat := (s.connections.map Connection.generations).sum

end Server

inductive Action where
  | arrive
  | advance
  /-- A handler that returned drops its permit. -/
  | release (c : Connection)
  deriving DecidableEq

/-- A permit given back while the producer of its connection is committed. -/
def Action.early : Action → Bool
  | .release c => c.committed
  | _ => false

inductive Step (limit : Nat) : Server → Action → Server → Prop where
  /-- `try_acquire` succeeds. -/
  | acquire {s} (h : s.inFlight < limit) :
      Step limit s .arrive { inFlight := s.inFlight + 1, connections := s.connections ++ [.admitted] }
  /-- The request is answered 503. -/
  | refuse {s} (h : ¬ s.inFlight < limit) : Step limit s .arrive s
  | advance {inFlight before c c' after} (h : Connection.Step c c') :
      Step limit ⟨inFlight, before ++ c :: after⟩ .advance ⟨inFlight, before ++ c' :: after⟩
  | release {inFlight before c after} (h : c.handler = .leaving) :
      Step limit ⟨inFlight, before ++ c :: after⟩ (.release c)
        ⟨inFlight - 1, before ++ { c with handler := .finished } :: after⟩

/-- A run from the idle server, in any interleaving. -/
inductive Run (limit : Nat) : List Action → Server → Prop where
  | start : Run limit [] .idle
  | step {actions s action s'} (h : Run limit actions s) (hstep : Step limit s action s') :
      Run limit (actions ++ [action]) s'

/-! ## One connection -/

namespace Connection

/-- A committed producer without a permit behind it. -/
def orphaned (c : Connection) : Bool := c.committed && !c.live

/-- A producer belongs to a handler that streams. -/
def Sound (c : Connection) : Prop :=
  c.handler = .preparing ∨ c.handler = .generating → c.producer = .absent

theorem Step.live {c c' : Connection} (h : Step c c') : c'.live = c.live := by
  cases h <;> simp [Connection.live, *]

theorem Step.sound {c c' : Connection} (h : Step c c') (hc : c.Sound) : c'.Sound := by
  cases h <;> simp_all [Sound, receiving]

/-- No move of a connection orphans its producer: without a receiver an opening is refused. -/
theorem Step.orphaned {c c' : Connection} (h : Step c c') (hc : c.orphaned = false) : c'.orphaned = false := by
  cases h with
  | opened h hr hq =>
    -- The one move towards a commitment; the handler that still receives holds its permit.
    have hlive : c.live = true := by
      simp only [receiving, Bool.or_eq_true, beq_iff_eq] at hr
      rcases hr with hr | hr <;> simp [Connection.live, hr]
    show (_ && !c.live) = false
    rw [hlive, Bool.not_true, Bool.and_false]
  | _ => simp_all [Connection.orphaned, Connection.live, committed, receiving]

/-- A generation is under a permit, or its producer is orphaned. -/
theorem generations_le {c : Connection} (h : c.Sound) :
    c.generations ≤ (if c.live then 1 else 0) + (if c.orphaned then 1 else 0) := by
  unfold generations
  by_cases hhandler : c.handler = .generating
  · have habsent := h (.inr hhandler)
    simp [hhandler, habsent, live]
  · rw [if_neg hhandler]
    by_cases hproducer : c.producer = .generating
    · simp only [hproducer, if_true, Connection.orphaned, committed]
      cases c.live <;> simp
    · rw [if_neg hproducer]
      exact Nat.zero_le _

end Connection

/-! ## Whole runs -/

/-- What holds after some actions: the counter is the permits out, and the orphans are permits that were
given back early. -/
structure Counted (limit : Nat) (actions : List Action) (s : Server) : Prop where
  counted : s.inFlight = s.connections.countP Connection.live
  bounded : s.inFlight ≤ limit
  sound : ∀ c ∈ s.connections, c.Sound
  orphans : s.connections.countP Connection.orphaned ≤ actions.countP Action.early

theorem Counted.step {limit : Nat} {actions : List Action} {s s' : Server} {action : Action}
    (h : Counted limit actions s) (hstep : Step limit s action s') : Counted limit (actions ++ [action]) s' := by
  obtain ⟨hcounted, hbounded, hsound, horphans⟩ := h
  cases hstep with
  | acquire hroom =>
    refine ⟨?_, hroom, ?_, ?_⟩
    · rw [List.countP_append, ← hcounted]
      rfl
    · refine List.forall_mem_append.mpr ⟨hsound, List.forall_mem_singleton.mpr ?_⟩
      exact fun _ => rfl
    · rw [List.countP_append, List.countP_append]
      exact Nat.add_le_add horphans (Nat.le_refl 0)
  | refuse _ =>
    refine ⟨hcounted, hbounded, hsound, ?_⟩
    rw [List.countP_append]
    exact Nat.le_add_right_of_le horphans
  | @advance inFlight before c c' after hmove =>
    rw [List.forall_mem_append, List.forall_mem_cons] at hsound
    simp only [List.countP_append, List.countP_cons] at hcounted horphans
    refine ⟨?_, hbounded, ?_, ?_⟩
    · show inFlight = (before ++ c' :: after).countP Connection.live
      rw [List.countP_append, List.countP_cons, hmove.live]
      exact hcounted
    · exact List.forall_mem_append.mpr ⟨hsound.1, List.forall_mem_cons.mpr ⟨hmove.sound hsound.2.1, hsound.2.2⟩⟩
    · show (before ++ c' :: after).countP Connection.orphaned ≤ _
      rw [List.countP_append, List.countP_cons, List.countP_append]
      have hkeeps : (if c'.orphaned then 1 else 0) ≤ (if c.orphaned then 1 else 0) := by
        cases hc : c.orphaned with
        | false =>
          rw [hmove.orphaned hc]
        | true => cases c'.orphaned <;> simp
      omega
  | @release inFlight before c after hleaving =>
    have hlive : c.live = true := by
      rw [Connection.live, hleaving]
      rfl
    have hheld : c.orphaned = false := by
      rw [Connection.orphaned, hlive, Bool.not_true, Bool.and_false]
    have hgone : ({ c with handler := .finished } : Connection).live = false := rfl
    have hearly : ({ c with handler := .finished } : Connection).orphaned = Action.early (.release c) := by
      rw [Connection.orphaned, hgone, Bool.not_false, Bool.and_true]
      rfl
    rw [List.forall_mem_append, List.forall_mem_cons] at hsound
    rw [List.countP_append, List.countP_cons_of_pos hlive] at hcounted
    rw [List.countP_append, List.countP_cons, hheld] at horphans
    refine ⟨?_, ?_, ?_, ?_⟩
    · show inFlight - 1 = (before ++ { c with handler := .finished } :: after).countP Connection.live
      rw [show inFlight = _ from hcounted, List.countP_append, List.countP_cons_of_neg (by rw [hgone]; decide)]
      omega
    · exact Nat.le_trans (Nat.sub_le _ _) hbounded
    · refine List.forall_mem_append.mpr ⟨hsound.1, List.forall_mem_cons.mpr ⟨?_, hsound.2.2⟩⟩
      intro hnot
      rcases hnot with hnot | hnot <;> cases hnot
    · show (before ++ { c with handler := .finished } :: after).countP Connection.orphaned ≤ _
      rw [List.countP_append, List.countP_cons, hearly, List.countP_append, List.countP_singleton]
      simp only [Bool.false_eq_true, if_false] at horphans
      omega

theorem Run.counted {limit : Nat} {actions : List Action} {s : Server} (h : Run limit actions s) :
    Counted limit actions s := by
  induction h with
  | start => exact ⟨rfl, Nat.zero_le _, nofun, Nat.le_refl _⟩
  | step _ hstep ih => exact ih.step hstep

theorem sum_generations_le (connections : List Connection) (h : ∀ c ∈ connections, c.Sound) :
    (connections.map Connection.generations).sum ≤
      connections.countP Connection.live + connections.countP Connection.orphaned := by
  induction connections with
  | nil => exact Nat.le_refl _
  | cons c rest ih =>
    have hhead := Connection.generations_le (h c List.mem_cons_self)
    have hrest := ih fun c hc => h c (List.mem_cons_of_mem _ hc)
    rw [List.map_cons, List.sum_cons, List.countP_cons, List.countP_cons]
    omega

/-- **The excess.** In every run the generations in progress are at most the limit and the permits given
back early. -/
theorem Run.inProgress_le {limit : Nat} {actions : List Action} {s : Server} (h : Run limit actions s) :
    s.inProgress ≤ limit + actions.countP Action.early := by
  have hcounted := h.counted
  calc s.inProgress
      ≤ s.connections.countP Connection.live + s.connections.countP Connection.orphaned :=
        sum_generations_le s.connections hcounted.sound
    _ = s.inFlight + s.connections.countP Connection.orphaned := by rw [hcounted.counted]
    _ ≤ limit + actions.countP Action.early := Nat.add_le_add hcounted.bounded hcounted.orphans

/-- **The limit holds** in every run that gives no permit back under a producer still generating. -/
theorem in_flight_is_hard_limit (limit : Nat) (actions : List Action) (s : Server) (h : Run limit actions s)
    (hreleases : ∀ c, .release c ∈ actions → c.committed = false) : s.inProgress ≤ limit := by
  have hnone : actions.countP Action.early = 0 := by
    rw [List.countP_eq_zero]
    intro action hmem
    cases action with
    | release c =>
      show ¬ c.committed = true
      rw [hreleases c hmem]
      exact Bool.false_ne_true
    | arrive => exact Bool.false_ne_true
    | advance => exact Bool.false_ne_true
  have hexcess := h.inProgress_le
  rw [hnone] at hexcess
  exact hexcess

/-- One streaming request up to its generation: admitted, its opening frame sent, the backend entered. -/
theorem run_to_stream :
    Run 1 [.arrive, .advance, .advance, .advance] ⟨1, [⟨.writing, .generating, 1⟩]⟩ := by
  have hadmit : Run 1 [.arrive] ⟨1, [.admitted]⟩ := .step .start (.acquire Nat.one_pos)
  have hstream : Run 1 [.arrive, .advance] ⟨1, [⟨.writing, .opening 1, 0⟩]⟩ :=
    .step hadmit (@Step.advance 1 1 [] _ _ [] (.stream .chat rfl))
  have hopened : Run 1 [.arrive, .advance, .advance] ⟨1, [⟨.writing, .opening 0, 1⟩]⟩ :=
    .step hstream (@Step.advance 1 1 [] _ _ [] (.opened rfl rfl Nat.one_pos))
  exact .step hopened (@Step.advance 1 1 [] _ _ [] (.entered rfl))

/-- A request that is answered whole gives its permit back, and the next one generates. -/
theorem in_flight_is_hard_limit_sample :
    Server.inProgress ⟨1, [⟨.finished, .absent, 0⟩, ⟨.generating, .absent, 0⟩]⟩ = 1 ∧
      Server.inProgress ⟨1, [⟨.finished, .absent, 0⟩, ⟨.generating, .absent, 0⟩]⟩ ≤ 1 := by
  have hadmit : Run 1 [.arrive] ⟨1, [.admitted]⟩ := .step .start (.acquire Nat.one_pos)
  have hgenerate : Run 1 [.arrive, .advance] ⟨1, [⟨.generating, .absent, 0⟩]⟩ :=
    .step hadmit (@Step.advance 1 1 [] _ _ [] (.generate rfl))
  have hgenerated : Run 1 [.arrive, .advance, .advance] ⟨1, [⟨.responding, .absent, 0⟩]⟩ :=
    .step hgenerate (@Step.advance 1 1 [] _ _ [] (.generated rfl))
  have hresponded : Run 1 [.arrive, .advance, .advance, .advance] ⟨1, [⟨.leaving, .absent, 0⟩]⟩ :=
    .step hgenerated (@Step.advance 1 1 [] _ _ [] (.responded rfl))
  have hreleased : Run 1 [.arrive, .advance, .advance, .advance, .release ⟨.leaving, .absent, 0⟩]
      ⟨0, [⟨.finished, .absent, 0⟩]⟩ := .step hresponded (@Step.release 1 1 [] _ [] rfl)
  have hnext : Run 1 [.arrive, .advance, .advance, .advance, .release ⟨.leaving, .absent, 0⟩, .arrive]
      ⟨1, [⟨.finished, .absent, 0⟩, .admitted]⟩ := .step hreleased (.acquire Nat.one_pos)
  have hboth : Run 1 [.arrive, .advance, .advance, .advance, .release ⟨.leaving, .absent, 0⟩, .arrive, .advance]
      ⟨1, [⟨.finished, .absent, 0⟩, ⟨.generating, .absent, 0⟩]⟩ :=
    .step hnext (@Step.advance 1 1 [⟨.finished, .absent, 0⟩] _ _ [] (.generate rfl))
  refine ⟨rfl, in_flight_is_hard_limit 1 _ _ hboth fun c hmem => ?_⟩
  simp only [List.mem_cons, reduceCtorEq, Action.release.injEq, false_or, or_false, List.not_mem_nil] at hmem
  rw [hmem]
  rfl

/-- The client hangs up while the head is written and the backend is busy: the permit goes to the next
request, and two generations are in progress where one is allowed. -/
theorem disconnect_exceeds_limit : ∃ actions s, Run 1 actions s ∧ ¬ s.inProgress ≤ 1 := by
  have hfailed : Run 1 [.arrive, .advance, .advance, .advance, .advance] ⟨1, [⟨.leaving, .generating, 1⟩]⟩ :=
    .step run_to_stream (@Step.advance 1 1 [] _ _ [] (.writeFailed rfl))
  have hreleased : Run 1
      [.arrive, .advance, .advance, .advance, .advance, .release ⟨.leaving, .generating, 1⟩]
      ⟨0, [⟨.finished, .generating, 1⟩]⟩ :=
    .step hfailed (@Step.release 1 1 [] _ [] rfl)
  have hnext : Run 1
      [.arrive, .advance, .advance, .advance, .advance, .release ⟨.leaving, .generating, 1⟩, .arrive]
      ⟨1, [⟨.finished, .generating, 1⟩, .admitted]⟩ :=
    .step hreleased (.acquire Nat.one_pos)
  have hboth : Run 1
      [.arrive, .advance, .advance, .advance, .advance, .release ⟨.leaving, .generating, 1⟩, .arrive, .advance]
      ⟨1, [⟨.finished, .generating, 1⟩, ⟨.generating, .absent, 0⟩]⟩ :=
    .step hnext (@Step.advance 1 1 [⟨.finished, .generating, 1⟩] _ _ [] (.generate rfl))
  exact ⟨_, _, hboth, by decide⟩

end Spark.OpenAi
