import Spark.Lib.Json

/-!
# How deep a JSON value is nested

* **`read_of_within`** — a value that is read at all is read with any limit it stays within.
-/

namespace Spark.Json

/-- A value with at most so many brackets open at once. -/
inductive Value.Within : Nat → Value → Prop where
  | null {n} : Value.Within n .null
  | bool {n b} : Value.Within n (.bool b)
  | number {n literal} : Value.Within n (.number literal)
  | string {n s} : Value.Within n (.string s)
  | array {n elements} (h : ∀ e ∈ elements, Value.Within n e) : Value.Within (n + 1) (.array elements)
  | object {n members} (h : ∀ m ∈ members, Value.Within n m.2) : Value.Within (n + 1) (.object members)

/-- What an open bracket holds so far. -/
def Frame.Within (n : Nat) : Frame → Prop
  | .array elements => ∀ e ∈ elements, e.Within n
  | .object members _ => ∀ m ∈ members, m.2.Within n

/-- The open brackets, each one level deeper than those below it. -/
def StackWithin (n : Nat) : List Frame → Prop
  | [] => True
  | frame :: stack => stack.length < n ∧ frame.Within (n - (stack.length + 1)) ∧ StackWithin n stack

def State.Within (n : Nat) (state : State) : Prop :=
  StackWithin n state.stack ∧ ∀ v, state.mode = .after v → v.Within (n - state.stack.length)

variable {limit n : Nat} {state next : State} {stack : List Frame} {frame : Frame} {v : Value} {b : UInt8}

theorem wordValue_within {w : List UInt8} (h : wordValue w = some v) : v.Within n := by
  unfold wordValue at h
  split_ifs at h <;> cases h <;> constructor

/-! ## One byte -/

/-- A bracket that opens where a value is due leaves those below it. -/
theorem startValue_within (h : startValue limit stack b = some next) (hnext : next.Within n) :
    StackWithin n stack ∧ startValue n stack b = some next := by
  have hopen {mode : Mode} {frame : Frame} (hwithin : State.Within n ⟨mode, frame :: stack⟩) :
      stack.length < n ∧ StackWithin n stack := ⟨hwithin.1.1, hwithin.1.2.2⟩
  unfold startValue at h ⊢
  by_cases hquote : b = 0x22
  · rw [if_pos hquote] at h ⊢
    cases h
    exact ⟨hnext.1, rfl⟩
  rw [if_neg hquote] at h ⊢
  by_cases hbracket : b = 0x5b
  · rw [if_pos hbracket] at h ⊢
    split at h
    · cases h
      obtain ⟨hlt, hstack⟩ := hopen hnext
      exact ⟨hstack, if_pos hlt⟩
    · cases h
  rw [if_neg hbracket] at h ⊢
  by_cases hbrace : b = 0x7b
  · rw [if_pos hbrace] at h ⊢
    split at h
    · cases h
      obtain ⟨hlt, hstack⟩ := hopen hnext
      exact ⟨hstack, if_pos hlt⟩
    · cases h
  rw [if_neg hbrace] at h ⊢
  by_cases hword : isWordByte b
  · rw [if_pos hword] at h ⊢
    cases h
    exact ⟨hnext.1, rfl⟩
  · rw [if_neg hword] at h
    cases h

theorem startKey_within (h : startKey stack b = some next) (hnext : next.Within n) : StackWithin n stack := by
  unfold startKey at h
  split at h
  · cases h
    exact hnext.1
  · cases h

theorem closeKey_within {raw : List UInt8} (h : closeKey raw stack = some next) (hnext : next.Within n) :
    StackWithin n stack := by
  match stack, h with
  | .object members _ :: stack, h =>
    obtain ⟨key, -, rfl⟩ := Option.map_eq_some_iff.mp h
    exact hnext.1

/-- What a closed bracket held was one level deeper than it. -/
theorem within_of_close {elements : List Value} (h : State.Within n ⟨.after (.array elements), stack⟩) :
    StackWithin n (.array elements :: stack) := by
  have hvalue := h.2 _ rfl
  generalize hm : n - stack.length = m at hvalue
  cases hvalue with
  | @array m _ helements =>
    refine ⟨by omega, ?_, h.1⟩
    rwa [show n - (stack.length + 1) = m from by omega]

theorem within_of_close_object {members : List (List UInt8 × Value)} {key : List UInt8}
    (h : State.Within n ⟨.after (.object members), stack⟩) : StackWithin n (.object members key :: stack) := by
  have hvalue := h.2 _ rfl
  generalize hm : n - stack.length = m at hvalue
  cases hvalue with
  | @object m _ hmembers =>
    refine ⟨by omega, ?_, h.1⟩
    rwa [show n - (stack.length + 1) = m from by omega]

/-- A bracket without its last element, and the element. -/
theorem split_array {elements : List Value} (h : StackWithin n (.array (elements ++ [v]) :: stack)) :
    State.Within n ⟨.after v, .array elements :: stack⟩ := by
  obtain ⟨hlt, hframe, hstack⟩ := h
  refine ⟨⟨hlt, fun e he => hframe e (List.mem_append_left _ he), hstack⟩, ?_⟩
  rintro _ ⟨⟩
  exact hframe v (by simp)

theorem split_object {members : List (List UInt8 × Value)} {key old : List UInt8}
    (h : StackWithin n (.object (members ++ [(key, v)]) old :: stack)) :
    State.Within n ⟨.after v, .object members key :: stack⟩ := by
  obtain ⟨hlt, hframe, hstack⟩ := h
  refine ⟨⟨hlt, fun m hm => hframe m (List.mem_append_left _ hm), hstack⟩, ?_⟩
  rintro _ ⟨⟩
  exact hframe (key, v) (by simp)

theorem afterValue_within (h : afterValue v stack b = some next) (hnext : next.Within n) :
    State.Within n ⟨.after v, stack⟩ := by
  unfold afterValue at h
  split at h
  · cases h
    exact hnext
  match stack with
  | [] => cases h
  | .array elements :: stack =>
    simp only at h
    split at h
    · cases h
      exact split_array hnext.1
    split at h
    · cases h
      exact split_array (within_of_close hnext)
    · cases h
  | .object members key :: stack =>
    simp only at h
    split at h
    · cases h
      exact split_object hnext.1
    split at h
    · cases h
      exact split_object (@within_of_close_object _ _ _ key hnext)
    · cases h

/-- Whatever stays within a limit is read with it, byte for byte. -/
theorem feed_within (h : feed limit state b = some next) (hnext : next.Within n) :
    state.Within n ∧ feed n state b = some next := by
  obtain ⟨mode, stack⟩ := state
  cases mode with
  | value =>
    simp only [feed] at h ⊢
    split at h
    · next hws =>
      cases h
      exact ⟨hnext, by rw [if_pos hws]⟩
    · next hws =>
      obtain ⟨hstack, hstart⟩ := startValue_within h hnext
      exact ⟨⟨hstack, by simp⟩, by rw [if_neg hws, hstart]⟩
  | valueOrClose =>
    simp only [feed] at h ⊢
    split at h
    · next hws =>
      cases h
      exact ⟨hnext, by rw [if_pos hws]⟩
    split at h
    · next hws hclose =>
      rcases stack with _ | ⟨_ | _, stack⟩ <;> cases h
      exact ⟨⟨within_of_close hnext, by simp⟩, by rw [if_neg hws, if_pos hclose]⟩
    · next hws hclose =>
      obtain ⟨hstack, hstart⟩ := startValue_within h hnext
      exact ⟨⟨hstack, by simp⟩, by rw [if_neg hws, if_neg hclose, hstart]⟩
  | key =>
    refine ⟨?_, h⟩
    simp only [feed] at h
    split at h
    · cases h
      exact hnext
    · exact ⟨startKey_within h hnext, by simp⟩
  | keyOrClose =>
    refine ⟨?_, h⟩
    simp only [feed] at h
    split at h
    · cases h
      exact hnext
    split at h
    · rcases stack with _ | ⟨_ | _, stack⟩ <;> cases h
      exact ⟨within_of_close_object hnext, by simp⟩
    · exact ⟨startKey_within h hnext, by simp⟩
  | colon =>
    refine ⟨?_, h⟩
    simp only [feed] at h
    split at h
    · cases h
      exact hnext
    split at h
    · cases h
      exact ⟨hnext.1, by simp⟩
    · cases h
  | string raw escaped =>
    refine ⟨?_, h⟩
    simp only [feed] at h
    split at h
    · cases h
      exact ⟨hnext.1, by simp⟩
    split at h
    · obtain ⟨s, -, rfl⟩ := Option.map_eq_some_iff.mp h
      exact ⟨hnext.1, by simp⟩
    · cases h
      exact ⟨hnext.1, by simp⟩
  | keyString raw escaped =>
    refine ⟨?_, h⟩
    simp only [feed] at h
    split at h
    · cases h
      exact ⟨hnext.1, by simp⟩
    split at h
    · exact ⟨closeKey_within h hnext, by simp⟩
    · cases h
      exact ⟨hnext.1, by simp⟩
  | word w =>
    refine ⟨?_, h⟩
    simp only [feed] at h
    split at h
    · cases h
      exact ⟨hnext.1, by simp⟩
    · obtain ⟨v, -, hafter⟩ := Option.bind_eq_some_iff.mp h
      exact ⟨(afterValue_within hafter hnext).1, by simp⟩
  | after v => exact ⟨afterValue_within h hnext, h⟩

/-! ## A whole text -/

theorem run_within {text : List UInt8} {final : State} (h : run limit state text = some final)
    (hfinal : final.Within n) : state.Within n ∧ run n state text = some final := by
  induction text generalizing state with
  | nil =>
    cases h
    exact ⟨hfinal, rfl⟩
  | cons b text ih =>
    obtain ⟨next, hnext, hrun⟩ := Option.bind_eq_some_iff.mp h
    obtain ⟨hwithin, hrest⟩ := ih hrun
    obtain ⟨hstate, hfeed⟩ := feed_within hnext hwithin
    exact ⟨hstate, by rw [run_cons, hfeed, Option.bind_some, hrest]⟩

/-- A value that is read at all is read with any limit it stays within. -/
theorem read_of_within {text : List UInt8} (h : read limit text = some v) (hv : v.Within n) :
    read n text = some v := by
  obtain ⟨final, hrun, hholds⟩ := read_eq_some.mp h
  have hfinal : final.Within n := by
    rcases hholds with rfl | ⟨w, rfl, -⟩
    · exact ⟨trivial, by rintro _ ⟨⟩; exact hv⟩
    · exact ⟨trivial, by simp⟩
  exact read_eq_some.mpr ⟨final, (run_within hrun hfinal).2, hholds⟩

end Spark.Json
