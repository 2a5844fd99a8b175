import Mathlib.Data.List.Basic

/-!
# UTF-8, read with replacement

The lossy conversion of bytes to characters, as a machine that takes one byte at a time: a well-formed
sequence is its character, and a maximal part of one that cannot go on is one U+FFFD. What the machine
has put out never depends on the bytes to come, which is all a streaming decoder can lean on.

* **`State`** — between characters, or inside one with continuation bytes owed.
* **`feed_append`** — a split of the bytes is a split of the run.
-/

namespace Spark.Utf8

def replacement : Char := Char.ofNat 0xfffd

inductive State where
  | start
  /-- Inside a character: the next byte is in `low … high`, `more` follow it, and `value` is what the
  bytes so far spell. -/
  | owed (more low high value : Nat)
  deriving DecidableEq, Repr

/-- The first byte of a character. E0, ED, F0 and F4 narrow the byte behind them: no overlong sequence, no
surrogate, nothing above U+10FFFF. -/
def first (b : Nat) : List Char × State :=
  if b ≤ 0x7f then ([Char.ofNat b], .start)
  else if 0xc2 ≤ b ∧ b ≤ 0xdf then ([], .owed 0 0x80 0xbf (b - 0xc0))
  else if b = 0xe0 then ([], .owed 1 0xa0 0xbf 0)
  else if b = 0xed then ([], .owed 1 0x80 0x9f 0xd)
  else if 0xe1 ≤ b ∧ b ≤ 0xef then ([], .owed 1 0x80 0xbf (b - 0xe0))
  else if b = 0xf0 then ([], .owed 2 0x90 0xbf 0)
  else if b = 0xf4 then ([], .owed 2 0x80 0x8f 4)
  else if 0xf1 ≤ b ∧ b ≤ 0xf3 then ([], .owed 2 0x80 0xbf (b - 0xf0))
  else ([replacement], .start)

def step : State → Nat → List Char × State
  | .start, b => first b
  | .owed more low high value, b =>
    if low ≤ b ∧ b ≤ high then
      match more with
      | 0 => ([Char.ofNat (value * 64 + (b - 0x80))], .start)
      | more + 1 => ([], .owed more 0x80 0xbf (value * 64 + (b - 0x80)))
    else
      -- The bytes before `b` are a maximal part; `b` itself starts over.
      (replacement :: (first b).1, (first b).2)

def feed : State → List UInt8 → List Char × State
  | s, [] => ([], s)
  | s, b :: rest =>
    ((step s b.toNat).1 ++ (feed (step s b.toNat).2 rest).1, (feed (step s b.toNat).2 rest).2)

/-- A character the bytes end inside of. -/
def flush : State → List Char
  | .start => []
  | .owed .. => [replacement]

def lossy (bytes : List UInt8) : List Char :=
  (feed .start bytes).1 ++ flush (feed .start bytes).2

theorem feed_append (a b : List UInt8) :
    ∀ s, feed s (a ++ b) =
      ((feed s a).1 ++ (feed (feed s a).2 b).1, (feed (feed s a).2 b).2) := by
  induction a with
  | nil => exact fun s => rfl
  | cons byte rest ih =>
    intro s
    rw [List.cons_append, feed, ih, feed, List.append_assoc]

/-- A longer input only adds to what the machine has put out. -/
theorem lossy_append (a b : List UInt8) :
    ∃ rest, lossy (a ++ b) = (feed .start a).1 ++ rest := by
  rw [lossy, feed_append, List.append_assoc]
  exact ⟨_, rfl⟩

example : lossy [0xf0, 0x90, 0x41, 0xe0, 0x80] = [replacement, 'A', replacement, replacement] := by decide

theorem flush_cases (s : State) : flush s = [] ∨ flush s = [replacement] := by
  cases s with
  | start => exact .inl rfl
  | owed => exact .inr rfl

end Spark.Utf8
