import Mathlib.Data.List.Basic
import Mathlib.Tactic.Ring

/-!
# Greedy decoding

`next : List T → T` is a greedy next-token function over token histories.

* **`continuation`** — the first `n` tokens it produces after a history.
* **`decode`** — the same, cut before the first stop token.
* **`stream`** — the loop that hands out the tokens of a block one by one until a stop token or
  the length limit ends the request.
* **`decode_block`** — handing out a block that is a piece of the continuation is what decoding
  token by token would have done; this is the one step every block decoder repeats.
-/

namespace Spark.Greedy

/-- Why a request ended. -/
inductive Finish where
  | stop
  | length
  deriving DecidableEq, Repr

variable {T : Type*} (next : List T → T) (stops : T → Bool)

/-- The `n` tokens greedy decoding appends to `history`. -/
def continuation : List T → Nat → List T
  | _, 0 => []
  | history, n + 1 => next history :: continuation (history ++ [next history]) n

/-- Plain greedy decoding of at most `n` tokens, cut before the first stop token. -/
def decode : List T → Nat → List T × Finish
  | _, 0 => ([], .length)
  | history, n + 1 =>
    if stops (next history) then ([], .stop)
    else
      let rest := decode (history ++ [next history]) n
      (next history :: rest.1, rest.2)

/-- Hand out the tokens of a block when `sent` tokens of at most `limit` have been handed out:
the tokens that go out, the new count, and the reason if the request ends inside the block. -/
def stream (limit : Nat) : List T → Nat → List T × Nat × Option Finish
  | [], sent => ([], sent, none)
  | token :: block, sent =>
    if stops token then ([], sent, some .stop)
    else if sent + 1 = limit then ([token], sent + 1, some .length)
    else
      let rest := stream limit block (sent + 1)
      (token :: rest.1, rest.2)

@[simp] theorem length_continuation (history : List T) (n : Nat) :
    (continuation next history n).length = n := by
  induction n generalizing history with
  | zero => rfl
  | succ n ih => simp [continuation, ih]

theorem continuation_add (history : List T) (n k : Nat) :
    continuation next history (n + k) =
      continuation next history n ++
        continuation next (history ++ continuation next history n) k := by
  induction n generalizing history with
  | zero => simp [continuation]
  | succ n ih =>
    rw [show n + 1 + k = (n + k) + 1 from by omega]
    simp only [continuation]
    rw [ih, List.cons_append, List.append_assoc, List.singleton_append]

/-- The new count counts the tokens that went out. -/
theorem stream_count (limit : Nat) (block : List T) (sent : Nat) :
    (stream stops limit block sent).2.1 = sent + (stream stops limit block sent).1.length := by
  induction block generalizing sent with
  | nil => rfl
  | cons token block ih =>
    simp only [stream]
    split
    · rfl
    · split
      · rfl
      · simp only [ih, List.length_cons]
        omega

/-- What streaming a block of the continuation leaves for the caller: either the request ended
as plain decoding ends it, or the whole block went out and decoding goes on after it. -/
theorem decode_block (limit : Nat) (block : List T) :
    ∀ (history : List T) (sent : Nat), block = continuation next history block.length →
      sent < limit →
      ((∃ reason, (stream stops limit block sent).2.2 = some reason ∧
          decode next stops history (limit - sent) =
            ((stream stops limit block sent).1, reason)) ∨
        ((stream stops limit block sent).2.2 = none ∧
          (stream stops limit block sent).1 = block ∧
          (stream stops limit block sent).2.1 = sent + block.length ∧
          sent + block.length < limit ∧
          decode next stops history (limit - sent) =
            (block ++ (decode next stops (history ++ block) (limit - (sent + block.length))).1,
              (decode next stops (history ++ block) (limit - (sent + block.length))).2))) := by
  induction block with
  | nil =>
    intro history sent _ hlt
    right
    refine ⟨rfl, rfl, rfl, hlt, ?_⟩
    simp
  | cons token block ih =>
    intro history sent hblock hlt
    simp only [List.length_cons, continuation, List.cons.injEq] at hblock
    obtain ⟨rfl, hrest⟩ := hblock
    obtain ⟨budget, hbudget⟩ : ∃ budget, limit - sent = budget + 1 := ⟨limit - sent - 1, by omega⟩
    rw [hbudget]
    simp only [stream, decode]
    by_cases hstop : stops (next history) = true
    · left
      exact ⟨.stop, by simp [hstop], by simp [hstop]⟩
    · simp only [hstop, if_false, Bool.false_eq_true]
      by_cases hlast : sent + 1 = limit
      · -- the last token of the request
        left
        have hzero : budget = 0 := by omega
        subst hzero
        exact ⟨.length, by simp [hlast], by simp [hlast, decode]⟩
      · simp only [hlast, if_false]
        rw [show budget = limit - (sent + 1) from by omega]
        rcases ih _ (sent + 1) hrest (by omega) with
          ⟨reason, hreason, hdecode⟩ | ⟨hnone, hall, hcount, hroom, hdecode⟩
        · left
          exact ⟨reason, hreason, by rw [hdecode]⟩
        · right
          have hsum : sent + 1 + block.length = sent + (block.length + 1) := by omega
          refine ⟨hnone, by rw [hall], by rw [hcount, List.length_cons, hsum],
            by rw [List.length_cons]; omega, ?_⟩
          rw [hdecode, hsum, List.length_cons]
          simp

end Spark.Greedy
