import Mathlib.Data.List.Basic

/-!
# Reading JSON

A JSON text read byte by byte, with the open brackets on a stack. The reader takes a nesting limit.
Bytes from 0x80 up are taken as they come, and a `\u` escape that is half a surrogate pair stands for
U+FFFD. An object keeps its members in order.

* **`Holds.of_read`** — a value reads the same wherever a value is due.
* **`read_strip`** — white space between tokens says nothing.
-/

namespace Spark.Json

inductive Value where
  | null
  | bool (b : Bool)
  | number (literal : List UInt8)
  | string (s : List UInt8)
  | array (elements : List Value)
  | object (members : List (List UInt8 × Value))

def isWs (b : UInt8) : Bool := b = 0x20 || b = 0x09 || b = 0x0a || b = 0x0d

def isDigit (b : UInt8) : Bool := 0x30 ≤ b && b ≤ 0x39

/-! ## Strings -/

def hexDigit (b : UInt8) : Option Nat :=
  if 0x30 ≤ b && b ≤ 0x39 then some (b.toNat - 0x30)
  else if 0x61 ≤ b && b ≤ 0x66 then some (10 + (b.toNat - 0x61))
  else if 0x41 ≤ b && b ≤ 0x46 then some (10 + (b.toNat - 0x41))
  else none

def hex4 : List UInt8 → Option (Nat × List UInt8)
  | a :: b :: c :: d :: rest => do
    let a ← hexDigit a
    let b ← hexDigit b
    let c ← hexDigit c
    let d ← hexDigit d
    some (((a * 16 + b) * 16 + c) * 16 + d, rest)
  | _ => none

/-- A `\uXXXX` at the front of a text. -/
def unicodeEscape : List UInt8 → Option (Nat × List UInt8)
  | a :: b :: rest => if a = 0x5c ∧ b = 0x75 then hex4 rest else none
  | _ => none

/-- A scalar value as UTF-8; anything else is U+FFFD. -/
def encodeScalar (cp : Nat) : List UInt8 :=
  let cp := if cp > 0x10ffff ∨ (0xd800 ≤ cp ∧ cp ≤ 0xdfff) then 0xfffd else cp
  if cp ≤ 0x7f then [UInt8.ofNat cp]
  else if cp ≤ 0x7ff then [UInt8.ofNat (0xc0 ||| cp >>> 6), UInt8.ofNat (0x80 ||| (cp &&& 0x3f))]
  else if cp ≤ 0xffff then
    [UInt8.ofNat (0xe0 ||| cp >>> 12), UInt8.ofNat (0x80 ||| (cp >>> 6 &&& 0x3f)),
      UInt8.ofNat (0x80 ||| (cp &&& 0x3f))]
  else
    [UInt8.ofNat (0xf0 ||| cp >>> 18), UInt8.ofNat (0x80 ||| (cp >>> 12 &&& 0x3f)),
      UInt8.ofNat (0x80 ||| (cp >>> 6 &&& 0x3f)), UInt8.ofNat (0x80 ||| (cp &&& 0x3f))]

/-- The bytes a `\u` escape of code unit `cp` stands for, and what is left. -/
def surrogate (cp : Nat) (rest : List UInt8) : List UInt8 × List UInt8 :=
  if 0xd800 ≤ cp ∧ cp ≤ 0xdbff then
    match unicodeEscape rest with
    | some (lo, rest') =>
      if 0xdc00 ≤ lo ∧ lo ≤ 0xdfff then
        (encodeScalar (0x10000 + (cp - 0xd800) * 0x400 + (lo - 0xdc00)), rest')
      else (encodeScalar 0xfffd, rest)
    | none => (encodeScalar 0xfffd, rest)
  else (encodeScalar cp, rest)

/-- An escape, read from behind its backslash. -/
def escape : List UInt8 → Option (List UInt8 × List UInt8)
  | [] => none
  | c :: rest =>
    if c = 0x22 ∨ c = 0x5c ∨ c = 0x2f then some ([c], rest)
    else if c = 0x62 then some ([0x08], rest)
    else if c = 0x66 then some ([0x0c], rest)
    else if c = 0x6e then some ([0x0a], rest)
    else if c = 0x72 then some ([0x0d], rest)
    else if c = 0x74 then some ([0x09], rest)
    else if c = 0x75 then (hex4 rest).map fun unit => surrogate unit.1 unit.2
    else none

/-- What stands between the quotes of a string, decoded. -/
def decodeFuel : Nat → List UInt8 → Option (List UInt8)
  | _, [] => some []
  | 0, _ :: _ => none
  | fuel + 1, c :: rest =>
    if c = 0x5c then
      match escape rest with
      | none => none
      | some (decoded, rest) => (decodeFuel fuel rest).map (decoded ++ ·)
    else if c < 0x20 then none
    else (decodeFuel fuel rest).map (c :: ·)

def decode (raw : List UInt8) : Option (List UInt8) := decodeFuel raw.length raw

/-! ## Literals and numbers -/

/-- The rest behind one digit or more. -/
def digits1 : List UInt8 → Option (List UInt8)
  | b :: rest => if isDigit b then some (rest.dropWhile isDigit) else none
  | [] => none

/-- `int = zero / ( digit1-9 *DIGIT )` -/
def intPart : List UInt8 → Option (List UInt8)
  | b :: rest => if b = 0x30 then some rest else digits1 (b :: rest)
  | [] => none

/-- `frac = decimal-point 1*DIGIT`, where there is one. -/
def fracPart : List UInt8 → Option (List UInt8)
  | b :: rest => if b = 0x2e then digits1 rest else some (b :: rest)
  | [] => some []

/-- `exp = e [ minus / plus ] 1*DIGIT`, where there is one. -/
def expPart : List UInt8 → Option (List UInt8)
  | b :: rest =>
    if b = 0x65 ∨ b = 0x45 then
      match rest with
      | sign :: digits => if sign = 0x2b ∨ sign = 0x2d then digits1 digits else digits1 rest
      | [] => none
    else some (b :: rest)
  | [] => some []

def unsign : List UInt8 → List UInt8
  | b :: rest => if b = 0x2d then rest else b :: rest
  | [] => []

def isNumber (w : List UInt8) : Bool :=
  ((intPart (unsign w)).bind fracPart).bind expPart = some []

/-- A byte of a literal or a number. -/
def isWordByte (b : UInt8) : Bool :=
  isDigit b || (0x61 ≤ b && b ≤ 0x7a) || (0x41 ≤ b && b ≤ 0x5a) || b = 0x2b || b = 0x2d || b = 0x2e

def wordValue (w : List UInt8) : Option Value :=
  if w = [0x6e, 0x75, 0x6c, 0x6c] then some .null
  else if w = [0x74, 0x72, 0x75, 0x65] then some (.bool true)
  else if w = [0x66, 0x61, 0x6c, 0x73, 0x65] then some (.bool false)
  else if isNumber w then some (.number w)
  else none

/-! ## The reader -/

/-- An open bracket with what stands behind it so far. -/
inductive Frame where
  | array (elements : List Value)
  | object (members : List (List UInt8 × Value)) (key : List UInt8)

inductive Mode where
  | value
  | valueOrClose
  | key
  | keyOrClose
  | colon
  | string (raw : List UInt8) (escaped : Bool)
  | keyString (raw : List UInt8) (escaped : Bool)
  | word (w : List UInt8)
  | after (v : Value)

structure State where
  mode : Mode
  stack : List Frame

def startValue (limit : Nat) (stack : List Frame) (b : UInt8) : Option State :=
  if b = 0x22 then some ⟨.string [] false, stack⟩
  else if b = 0x5b then
    if stack.length < limit then some ⟨.valueOrClose, .array [] :: stack⟩ else none
  else if b = 0x7b then
    if stack.length < limit then some ⟨.keyOrClose, .object [] [] :: stack⟩ else none
  else if isWordByte b then some ⟨.word [b], stack⟩
  else none

/-- A byte behind a value. -/
def afterValue (v : Value) (stack : List Frame) (b : UInt8) : Option State :=
  if isWs b then some ⟨.after v, stack⟩
  else match stack with
    | [] => none
    | .array elements :: stack =>
      if b = 0x2c then some ⟨.value, .array (elements ++ [v]) :: stack⟩
      else if b = 0x5d then some ⟨.after (.array (elements ++ [v])), stack⟩
      else none
    | .object members key :: stack =>
      if b = 0x2c then some ⟨.key, .object (members ++ [(key, v)]) [] :: stack⟩
      else if b = 0x7d then some ⟨.after (.object (members ++ [(key, v)])), stack⟩
      else none

def startKey (stack : List Frame) (b : UInt8) : Option State :=
  if b = 0x22 then some ⟨.keyString [] false, stack⟩ else none

/-- The closing quote of a key. -/
def closeKey (raw : List UInt8) : List Frame → Option State
  | .object members _ :: stack =>
    (decode raw).map fun key => ⟨.colon, .object members key :: stack⟩
  | _ => none

def feed (limit : Nat) (state : State) (b : UInt8) : Option State :=
  match state with
  | ⟨.value, stack⟩ => if isWs b then some ⟨.value, stack⟩ else startValue limit stack b
  | ⟨.valueOrClose, stack⟩ =>
    if isWs b then some ⟨.valueOrClose, stack⟩
    else if b = 0x5d then
      match stack with
      | .array elements :: stack => some ⟨.after (.array elements), stack⟩
      | _ => none
    else startValue limit stack b
  | ⟨.key, stack⟩ => if isWs b then some ⟨.key, stack⟩ else startKey stack b
  | ⟨.keyOrClose, stack⟩ =>
    if isWs b then some ⟨.keyOrClose, stack⟩
    else if b = 0x7d then
      match stack with
      | .object members _ :: stack => some ⟨.after (.object members), stack⟩
      | _ => none
    else startKey stack b
  | ⟨.colon, stack⟩ =>
    if isWs b then some ⟨.colon, stack⟩
    else if b = 0x3a then some ⟨.value, stack⟩
    else none
  | ⟨.string raw escaped, stack⟩ =>
    if escaped then some ⟨.string (raw ++ [b]) false, stack⟩
    else if b = 0x22 then (decode raw).map fun s => ⟨.after (.string s), stack⟩
    else some ⟨.string (raw ++ [b]) (b = 0x5c), stack⟩
  | ⟨.keyString raw escaped, stack⟩ =>
    if escaped then some ⟨.keyString (raw ++ [b]) false, stack⟩
    else if b = 0x22 then closeKey raw stack
    else some ⟨.keyString (raw ++ [b]) (b = 0x5c), stack⟩
  | ⟨.word w, stack⟩ =>
    if isWordByte b then some ⟨.word (w ++ [b]), stack⟩
    else (wordValue w).bind fun v => afterValue v stack b
  | ⟨.after v, stack⟩ => afterValue v stack b

def run (limit : Nat) (state : State) (text : List UInt8) : Option State :=
  text.foldlM (feed limit) state

/-- The value of a whole text. -/
def finish : State → Option Value
  | ⟨.after v, []⟩ => some v
  | ⟨.word w, []⟩ => wordValue w
  | _ => none

/-- The value of a JSON text with at most `limit` brackets open at once. -/
def read (limit : Nat) (text : List UInt8) : Option Value :=
  (run limit ⟨.value, []⟩ text).bind finish

variable {limit : Nat} {state state' : State} {stack : List Frame} {v : Value} {b : UInt8}

@[simp] theorem run_nil : run limit state [] = some state := rfl

@[simp] theorem run_cons (text : List UInt8) :
    run limit state (b :: text) = (feed limit state b).bind fun state => run limit state text := rfl

example (hb : isWs b = true) : feed limit ⟨.value, stack⟩ b = some ⟨.value, stack⟩ := by
  simp only [feed, hb, if_true]

theorem run_append (front back : List UInt8) :
    run limit state (front ++ back) = (run limit state front).bind fun state => run limit state back := by
  show (front ++ back).foldlM (feed limit) state = _
  rw [List.foldlM_append]
  rfl

/-! ## A value among others -/

@[simp] theorem isWs_comma : isWs 0x2c = false := rfl
@[simp] theorem isWs_bracket : isWs 0x5d = false := rfl
@[simp] theorem isWs_brace : isWs 0x7d = false := rfl
@[simp] theorem isWs_colon : isWs 0x3a = false := rfl
@[simp] theorem isWs_quote : isWs 0x22 = false := rfl

/-- The same state with more open brackets below. -/
def State.above (state : State) (below : List Frame) : State :=
  ⟨state.mode, state.stack ++ below⟩

theorem startValue_above (below : List Frame) {limit' : Nat} (hlimit : limit + below.length ≤ limit')
    (h : startValue limit stack b = some state) :
    startValue limit' (stack ++ below) b = some (state.above below) := by
  have hopen (hlt : stack.length < limit) : stack.length + below.length < limit' := by omega
  unfold startValue at h ⊢
  split at h
  · cases h
    simp [*, State.above]
  split at h
  · split at h <;> cases h
    simp [*, State.above]
  split at h
  · split at h <;> cases h
    simp [*, State.above]
  split at h <;> cases h
  simp [*, State.above]

theorem afterValue_above (below : List Frame) (h : afterValue v stack b = some state) :
    afterValue v (stack ++ below) b = some (state.above below) := by
  unfold afterValue at h ⊢
  split at h
  · cases h
    simp [*, State.above]
  cases stack with
  | nil => cases h
  | cons frame stack =>
    cases frame <;> dsimp only at h <;> split at h
    · cases h
      simp [*, State.above]
    · split at h <;> cases h
      simp [*, State.above]
    · cases h
      simp [*, State.above]
    · split at h <;> cases h
      simp [*, State.above]

theorem startKey_above (below : List Frame) (h : startKey stack b = some state) :
    startKey (stack ++ below) b = some (state.above below) := by
  unfold startKey at h ⊢
  split at h <;> cases h
  simp [*, State.above]

theorem closeKey_above (below : List Frame) {raw : List UInt8} (h : closeKey raw stack = some state) :
    closeKey raw (stack ++ below) = some (state.above below) := by
  cases stack with
  | nil => cases h
  | cons frame stack =>
    cases frame with
    | array elements => cases h
    | object members key =>
      obtain ⟨decoded, hdecoded, rfl⟩ := Option.map_eq_some_iff.mp h
      exact Option.map_eq_some_iff.mpr ⟨decoded, hdecoded, rfl⟩

theorem feed_above (below : List Frame) {limit' : Nat} (hlimit : limit + below.length ≤ limit')
    (h : feed limit state b = some state') :
    feed limit' (state.above below) b = some (state'.above below) := by
  obtain ⟨mode, stack⟩ := state
  cases mode with
  | value =>
    simp only [feed, State.above] at h ⊢
    split at h
    · cases h
      simp [*]
    · simpa [*, State.above] using startValue_above below hlimit h
  | valueOrClose =>
    simp only [feed, State.above] at h ⊢
    split at h
    · cases h
      simp [*]
    split at h
    · split at h <;> cases h
      simp [*]
    · simpa [*, State.above] using startValue_above below hlimit h
  | key =>
    simp only [feed, State.above] at h ⊢
    split at h
    · cases h
      simp [*]
    · simpa [*, State.above] using startKey_above below h
  | keyOrClose =>
    simp only [feed, State.above] at h ⊢
    split at h
    · cases h
      simp [*]
    split at h
    · split at h <;> cases h
      simp [*]
    · simpa [*, State.above] using startKey_above below h
  | colon =>
    simp only [feed, State.above] at h ⊢
    split at h
    · cases h
      simp [*]
    split at h <;> cases h
    simp [*]
  | string raw escaped =>
    simp only [feed, State.above] at h ⊢
    split at h
    · cases h
      simp [*]
    split at h
    · obtain ⟨decoded, hdecoded, rfl⟩ := Option.map_eq_some_iff.mp h
      simp [*]
    · cases h
      simp [*]
  | keyString raw escaped =>
    simp only [feed, State.above] at h ⊢
    split at h
    · cases h
      simp [*]
    split at h
    · simpa [*, State.above] using closeKey_above below h
    · cases h
      simp [*]
  | word w =>
    simp only [feed, State.above] at h ⊢
    split at h
    · cases h
      simp [*]
    · obtain ⟨v, hv, h⟩ := Option.bind_eq_some_iff.mp h
      simpa [*, State.above] using afterValue_above below h
  | after v => exact afterValue_above below h

theorem run_above (below : List Frame) {limit' : Nat} (hlimit : limit + below.length ≤ limit')
    {text : List UInt8} (h : run limit state text = some state') :
    run limit' (state.above below) text = some (state'.above below) := by
  induction text generalizing state with
  | nil =>
    cases h
    rfl
  | cons b text ih =>
    rw [run_cons] at h ⊢
    obtain ⟨next, hnext, h⟩ := Option.bind_eq_some_iff.mp h
    exact Option.bind_eq_some_iff.mpr ⟨_, feed_above below hlimit hnext, ih h⟩
/-- A state behind a value, which a word is only once another byte ends it. -/
def Holds (state : State) (v : Value) (stack : List Frame) : Prop :=
  state = ⟨.after v, stack⟩ ∨ ∃ w, state = ⟨.word w, stack⟩ ∧ wordValue w = some v

theorem finish_eq_some : finish state = some v ↔ Holds state v [] := by
  constructor
  · intro h
    unfold finish at h
    split at h
    · cases h
      exact .inl rfl
    · exact .inr ⟨_, rfl, h⟩
    · cases h
  · intro h
    rcases h with h | ⟨w, h, hw⟩ <;> subst h
    · rfl
    · exact hw

theorem read_eq_some {text : List UInt8} :
    read limit text = some v ↔ ∃ state, run limit ⟨.value, []⟩ text = some state ∧ Holds state v [] := by
  show (run limit ⟨.value, []⟩ text).bind finish = some v ↔ _
  simp only [Option.bind_eq_some_iff, finish_eq_some]

theorem Holds.above (h : Holds state v stack) (below : List Frame) :
    Holds (state.above below) v (stack ++ below) := by
  rcases h with h | ⟨w, h, hw⟩ <;> subst h
  · exact .inl rfl
  · exact .inr ⟨w, rfl, hw⟩

/-- A text that reads as a value reads as it wherever a value is due. -/
theorem run_of_read {text : List UInt8} (h : read limit text = some v) {limit' : Nat}
    (hlimit : limit + stack.length ≤ limit') :
    ∃ state, run limit' ⟨.value, stack⟩ text = some state ∧ Holds state v stack := by
  obtain ⟨state, hrun, hholds⟩ := read_eq_some.mp h
  exact ⟨_, run_above stack hlimit hrun, hholds.above stack⟩

theorem read_mono {text : List UInt8} {limit' : Nat} (h : read limit text = some v) (hlimit : limit ≤ limit') :
    read limit' text = some v := by
  obtain ⟨state, hrun, hholds⟩ := @run_of_read limit [] v text h limit' hlimit
  exact read_eq_some.mpr ⟨state, hrun, hholds⟩

/-- What ends a word ends any value. -/
theorem Holds.feed (h : Holds state v stack) (hb : isWordByte b = false) :
    Json.feed limit state b = afterValue v stack b := by
  rcases h with h | ⟨w, h, hw⟩ <;> subst h
  · rfl
  · simp [Json.feed, hb, hw]

/-! ## White space between tokens -/

def isPunct (b : UInt8) : Bool :=
  b = 0x22 || b = 0x2c || b = 0x3a || b = 0x5b || b = 0x5d || b = 0x7b || b = 0x7d

/-- Inside a string, and whether behind a backslash. -/
def Mode.quoted : Mode → Bool × Bool
  | .string _ escaped => (true, escaped)
  | .keyString _ escaped => (true, escaped)
  | _ => (false, false)

variable (space : UInt8 → Bool)

/-- A text without the bytes outside of strings that `space` holds of. -/
def strip : Bool × Bool → List UInt8 → List UInt8
  | _, [] => []
  | (true, escaped), b :: rest =>
    b :: if escaped then strip (true, false) rest else strip (b ≠ 0x22, b = 0x5c) rest
  | (false, _), b :: rest =>
    if b = 0x22 then b :: strip (true, false) rest
    else if space b then strip (false, false) rest
    else b :: strip (false, false) rest

theorem quoted_startValue (h : startValue limit stack b = some state) :
    state.mode.quoted = (decide (b = 0x22), false) := by
  unfold startValue at h
  split at h
  · cases h
    simp [Mode.quoted, *]
  split at h
  · split at h <;> cases h
    simp [Mode.quoted, *]
  split at h
  · split at h <;> cases h
    simp [Mode.quoted, *]
  split at h <;> cases h
  simp [Mode.quoted, *]

theorem quoted_afterValue (h : afterValue v stack b = some state) :
    state.mode.quoted = (decide (b = 0x22), false) := by
  have hquote (hb : b = 0x22) : False := by
    subst hb
    rcases stack with _ | ⟨_ | _, _⟩ <;> cases h
  unfold afterValue at h
  split at h
  · cases h
    simpa [Mode.quoted] using hquote
  split at h
  · cases h
  all_goals
    split at h
    · cases h
      simpa [Mode.quoted] using hquote
    split at h <;> cases h
    simpa [Mode.quoted] using hquote

theorem quoted_startKey (h : startKey stack b = some state) :
    state.mode.quoted = (decide (b = 0x22), false) := by
  unfold startKey at h
  split at h <;> cases h
  simp [Mode.quoted, *]

theorem quoted_closeKey {raw : List UInt8} (h : closeKey raw stack = some state) :
    state.mode.quoted = (false, false) := by
  unfold closeKey at h
  split at h
  · obtain ⟨key, -, rfl⟩ := Option.map_eq_some_iff.mp h
    rfl
  · cases h

/-- A byte puts a state in or out of a string as it does for `strip`. -/
theorem quoted_feed (h : feed limit state b = some state') :
    state'.mode.quoted =
      if state.mode.quoted.1 then
        if state.mode.quoted.2 then (true, false) else (decide (b ≠ 0x22), decide (b = 0x5c))
      else (decide (b = 0x22), false) := by
  have hws (hb : isWs b = true) : ¬ b = 0x22 := by
    rintro rfl
    cases hb
  obtain ⟨mode, stack⟩ := state
  cases mode with
  | value =>
    simp only [feed] at h
    split at h
    · cases h
      simp [Mode.quoted, *]
    · simpa [Mode.quoted] using quoted_startValue h
  | valueOrClose =>
    simp only [feed] at h
    split at h
    · cases h
      simp [Mode.quoted, *]
    split at h
    · split at h <;> cases h
      simp [Mode.quoted, *]
    · simpa [Mode.quoted] using quoted_startValue h
  | key =>
    simp only [feed] at h
    split at h
    · cases h
      simp [Mode.quoted, *]
    · simpa [Mode.quoted] using quoted_startKey h
  | keyOrClose =>
    simp only [feed] at h
    split at h
    · cases h
      simp [Mode.quoted, *]
    split at h
    · split at h <;> cases h
      simp [Mode.quoted, *]
    · simpa [Mode.quoted] using quoted_startKey h
  | colon =>
    simp only [feed] at h
    split at h
    · cases h
      simp [Mode.quoted, *]
    split at h <;> cases h
    simp [Mode.quoted, *]
  | string raw escaped =>
    simp only [feed] at h
    split at h
    · cases h
      simp [Mode.quoted, *]
    split at h
    · obtain ⟨s, -, rfl⟩ := Option.map_eq_some_iff.mp h
      simp [Mode.quoted, *]
    · cases h
      simp [Mode.quoted, *]
  | keyString raw escaped =>
    simp only [feed] at h
    split at h
    · cases h
      simp [Mode.quoted, *]
    split at h
    · rw [quoted_closeKey h]
      simp [Mode.quoted, *]
    · cases h
      simp [Mode.quoted, *]
  | word w =>
    simp only [feed] at h
    split at h
    · cases h
      have hb : ¬ b = 0x22 := by
        rintro rfl
        contradiction
      simp [Mode.quoted, *]
    · obtain ⟨v, -, h⟩ := Option.bind_eq_some_iff.mp h
      simpa [Mode.quoted] using quoted_afterValue h
  | after v => simpa [Mode.quoted] using quoted_afterValue h

/-- Nothing but white space, words and punctuation stands outside of strings. -/
theorem feed_eq_none (hquoted : state.mode.quoted.1 = false) (hws : isWs b = false)
    (hword : isWordByte b = false) (hpunct : isPunct b = false) : feed limit state b = none := by
  obtain ⟨mode, stack⟩ := state
  simp only [isPunct, Bool.or_eq_false_iff, decide_eq_false_iff_not] at hpunct
  have hafter (v : Value) : afterValue v stack b = none := by
    rcases stack with _ | ⟨_ | _, _⟩ <;> simp [afterValue, *]
  cases mode with
  | value => simp [feed, startValue, *]
  | valueOrClose => simp [feed, startValue, *]
  | key => simp [feed, startKey, *]
  | keyOrClose => simp [feed, startKey, *]
  | colon => simp [feed, *]
  | string raw escaped => cases hquoted
  | keyString raw escaped => cases hquoted
  | word w => cases hvalue : wordValue w <;> simp [feed, *]
  | after v => exact hafter v

/-- The second state is the first, but for white space behind a value that it has not seen. -/
def Sim (state state' : State) : Prop :=
  state' = state ∨ ∃ v stack, state = ⟨.after v, stack⟩ ∧ Holds state' v stack

theorem isWordByte_of_isWs (h : isWs b = true) : isWordByte b = false := by
  simp only [isWs, isWordByte, isDigit] at *
  grind

theorem afterValue_ws (h : isWs b = true) : afterValue v stack b = some ⟨.after v, stack⟩ := by
  simp [afterValue, h]

/-- White space outside of strings changes nothing that matters. -/
theorem feed_ws (hquoted : state.mode.quoted.1 = false) (hws : isWs b = true)
    (h : feed limit state b = some state') : Sim state' state := by
  obtain ⟨mode, stack⟩ := state
  cases mode with
  | value | valueOrClose | key | keyOrClose | colon =>
    simp only [feed, hws, if_true] at h
    cases h
    exact .inl rfl
  | string raw escaped | keyString raw escaped => cases hquoted
  | word w =>
    simp only [feed, isWordByte_of_isWs hws, Bool.false_eq_true, if_false] at h
    obtain ⟨v, hv, h⟩ := Option.bind_eq_some_iff.mp h
    rw [afterValue_ws hws] at h
    cases h
    exact .inr ⟨v, stack, rfl, .inr ⟨w, rfl, hv⟩⟩
  | after v =>
    rw [feed, afterValue_ws hws] at h
    cases h
    exact .inl rfl

/-- The second state may leave out white space outside of strings. -/
theorem Sim.skip {next : State} (h : Sim state state') (hquoted : state.mode.quoted.1 = false)
    (hws : isWs b = true) (hfeed : Json.feed limit state b = some next) : Sim next state' := by
  rcases h with rfl | ⟨v, stack, rfl, hholds⟩
  · exact feed_ws hquoted hws hfeed
  · rw [Json.feed, afterValue_ws hws] at hfeed
    cases hfeed
    exact .inr ⟨v, stack, rfl, hholds⟩

theorem Sim.eq (h : Sim state state') (hquoted : state.mode.quoted.1 = true) : state' = state := by
  rcases h with rfl | ⟨v, stack, rfl, -⟩
  · rfl
  · cases hquoted

/-- What is not white space brings both states to the same one. -/
theorem Sim.feed {next : State} (h : Sim state state') (hws : isWs b = false)
    (hfeed : Json.feed limit state b = some next) : Json.feed limit state' b = some next := by
  rcases h with rfl | ⟨v, stack, rfl, hholds⟩
  · exact hfeed
  · have hword : isWordByte b = false := by
      simp only [Json.feed, afterValue, hws, Bool.false_eq_true, if_false] at hfeed
      split at hfeed
      · cases hfeed
      all_goals
        split at hfeed
        · next hb => simp [hb, isWordByte, isDigit]
        split at hfeed
        · next hb => simp [hb, isWordByte, isDigit]
        · cases hfeed
    exact (hholds.feed hword).trans hfeed

variable {space} (hspace : ∀ b, isWs b = true → space b = true)
  (hnone : ∀ b, space b = true → isWordByte b = false ∧ isPunct b = false)

include hspace hnone in
theorem run_strip {final : State} {text : List UInt8} (hsim : Sim state state')
    (h : run limit state text = some final) :
    ∃ final', run limit state' (strip space state.mode.quoted text) = some final' ∧
      Sim final final' := by
  induction text generalizing state state' with
  | nil =>
    cases h
    exact ⟨state', by rw [strip]; rfl, hsim⟩
  | cons b text ih =>
    rw [run_cons] at h
    obtain ⟨next, hnext, h⟩ := Option.bind_eq_some_iff.mp h
    -- A byte that stays is read by both; one that goes is white space that the first alone reads.
    have hkeep (hnext' : feed limit state' b = some next) : ∃ final',
        run limit state' (b :: strip space next.mode.quoted text) = some final' ∧ Sim final final' := by
      obtain ⟨final', hrun, hfinal⟩ := ih (.inl rfl) h
      exact ⟨final', by rw [run_cons, hnext']; exact hrun, hfinal⟩
    have hquoted := quoted_feed hnext
    rcases hmode : state.mode.quoted with ⟨_ | _, escaped⟩
    · simp only [hmode, Bool.false_eq_true, if_false] at hquoted
      rw [strip]
      by_cases hquote : b = 0x22
      · subst hquote
        simpa [hquoted] using hkeep (hsim.feed rfl hnext)
      rw [if_neg hquote]
      by_cases hb : space b = true
      · have hws : isWs b = true := by
          by_contra hws
          rw [feed_eq_none (by rw [hmode]) (by simpa using hws) (hnone b hb).1 (hnone b hb).2] at hnext
          cases hnext
        rw [if_pos hb]
        simpa [hquoted, hquote] using ih (hsim.skip (by rw [hmode]) hws hnext) h
      · have hws : isWs b = false := by
          by_contra hws
          exact hb (hspace b (by simpa using hws))
        rw [if_neg hb]
        simpa [hquoted, hquote] using hkeep (hsim.feed hws hnext)
    · simp only [hmode, if_true] at hquoted
      have hsame := hsim.eq (by rw [hmode])
      rw [strip]
      have hkeep := hkeep (by rw [hsame]; exact hnext)
      rw [hquoted] at hkeep
      cases escaped <;> exact hkeep

include hspace hnone in
/-- White space outside of strings does not count. -/
theorem read_strip {text : List UInt8} (h : read limit text = some v) :
    read limit (strip space (false, false) text) = some v := by
  obtain ⟨state, hrun, hholds⟩ := read_eq_some.mp h
  obtain ⟨state', hrun', hsim⟩ := run_strip hspace hnone (.inl rfl) hrun
  refine read_eq_some.mpr ⟨state', hrun', ?_⟩
  rcases hsim with rfl | ⟨v', stack, rfl, hholds'⟩
  · exact hholds
  · rcases hholds with h | ⟨w, h, -⟩ <;> cases h
    exact hholds'

theorem strip_sublist (space : UInt8 → Bool) (quoted : Bool × Bool) (text : List UInt8) :
    (strip space quoted text).Sublist text := by
  induction text generalizing quoted with
  | nil => rw [strip]
  | cons b text ih =>
    obtain ⟨inside, escaped⟩ := quoted
    cases inside with
    | true =>
      rw [strip]
      split
      · exact (ih _).cons_cons b
      · exact (ih _).cons_cons b
    | false =>
      rw [strip]
      split
      · exact (ih _).cons_cons b
      split
      · exact (ih _).cons b
      · exact (ih _).cons_cons b

/-- What is left has nothing more to drop. -/
theorem strip_strip (space : UInt8 → Bool) (quoted : Bool × Bool) (text : List UInt8) :
    strip space quoted (strip space quoted text) = strip space quoted text := by
  have hescaped (escaped : Bool) (text : List UInt8) :
      strip space (false, escaped) text = strip space (false, false) text := by
    cases text with
    | nil => rw [strip, strip]
    | cons b text => rw [strip, strip]
  induction text generalizing quoted with
  | nil => rw [strip, strip]
  | cons b text ih =>
    obtain ⟨inside, escaped⟩ := quoted
    cases inside with
    | true =>
      rw [strip, strip]
      split
      · rw [ih]
      · rw [ih]
    | false =>
      rw [strip]
      split
      · next hb => rw [strip, if_pos hb, ih]
      · next hb =>
        split
        · rw [hescaped, ih]
        · next hspace => rw [strip, if_neg hb, if_neg hspace, ih]

theorem length_strip_le (space : UInt8 → Bool) (quoted : Bool × Bool) (text : List UInt8) :
    (strip space quoted text).length ≤ text.length :=
  (strip_sublist space quoted text).length_le

/-- Behind a text that was read, the reader says whether a string is open. -/
theorem strip_append_of_run {final : State} {front : List UInt8} (space : UInt8 → Bool) (back : List UInt8)
    (h : run limit state front = some final) : strip space state.mode.quoted (front ++ back) =
      strip space state.mode.quoted front ++ strip space final.mode.quoted back := by
  induction front generalizing state with
  | nil =>
    cases h
    rw [List.nil_append, show strip space final.mode.quoted [] = [] by rw [strip]]
    rfl
  | cons b front ih =>
    obtain ⟨next, hnext, h⟩ := Option.bind_eq_some_iff.mp h
    have hquoted := quoted_feed hnext
    have hlater := ih h
    rcases hmode : state.mode.quoted with ⟨_ | _, escaped⟩
    · simp only [hmode, Bool.false_eq_true, if_false] at hquoted
      rw [hquoted] at hlater
      rw [List.cons_append, strip, strip]
      split
      case isTrue hb =>
        rw [decide_eq_true hb] at hlater
        rw [hlater, List.cons_append]
      case isFalse hb =>
        rw [decide_eq_false hb] at hlater
        split
        · exact hlater
        · rw [hlater, List.cons_append]
    · simp only [hmode, if_true] at hquoted
      rw [hquoted] at hlater
      rw [List.cons_append, strip, strip, List.cons_append]
      congr 1
      cases escaped with
      | true => exact hlater
      | false => exact hlater

theorem strip_spaces {space : UInt8 → Bool} {text : List UInt8} (hquote : space 0x22 = false)
    (h : ∀ b ∈ text, space b = true) : strip space (false, false) text = [] := by
  induction text with
  | nil => rw [strip]
  | cons b text ih =>
    have hb := h b List.mem_cons_self
    have hne : b ≠ 0x22 := by
      rintro rfl
      rw [hquote] at hb
      cases hb
    rw [strip, if_neg hne, if_pos hb]
    exact ih fun b hb => h b (List.mem_cons_of_mem _ hb)

/-! ## Strings and objects as they are written -/

/-- Whether a text ends behind a backslash; none where an unescaped quote stands in it. -/
def scan : Bool → List UInt8 → Option Bool
  | escaped, [] => some escaped
  | true, _ :: rest => scan false rest
  | false, b :: rest => if b = 0x22 then none else scan (b = 0x5c) rest

/-- A quoted text that stands for the string `s`. -/
def Quotes (text s : List UInt8) : Prop :=
  ∃ raw, text = 0x22 :: raw ++ [0x22] ∧ scan false raw = some false ∧ decode raw = some s

theorem scan_append {escaped : Bool} {front back : List UInt8} :
    scan escaped (front ++ back) = (scan escaped front).bind fun escaped => scan escaped back := by
  induction front generalizing escaped with
  | nil => cases escaped <;> rfl
  | cons b front ih =>
    cases escaped
    · simp only [List.cons_append, scan]
      split
      · rfl
      · exact ih
    · exact ih

/-- A string loses nothing. -/
theorem strip_scan {space : UInt8 → Bool} {escaped : Bool} {raw t : List UInt8} (h : scan escaped raw = some false) :
    strip space (true, escaped) (raw ++ 0x22 :: t) = raw ++ 0x22 :: strip space (false, false) t := by
  induction raw generalizing escaped with
  | nil =>
    cases escaped with
    | true => cases h
    | false => simp [strip]
  | cons b raw ih =>
    rw [List.cons_append, strip, List.cons_append]
    congr 1
    cases escaped with
    | true => exact ih h
    | false =>
      rw [scan] at h
      split at h
      · cases h
      · next hb =>
        have hstate : (decide (b ≠ 0x22), decide (b = 0x5c)) = (true, decide (b = 0x5c)) := by simp [hb]
        rw [if_neg Bool.false_ne_true, hstate]
        exact ih h

theorem run_string_scan {front raw : List UInt8} {escaped final : Bool}
    (h : scan escaped raw = some final) :
    run limit ⟨.string front escaped, stack⟩ raw = some ⟨.string (front ++ raw) final, stack⟩ := by
  induction raw generalizing front escaped with
  | nil =>
    rw [scan] at h
    cases h
    rw [List.append_nil]
    rfl
  | cons b raw ih =>
    rw [run_cons, List.append_cons]
    cases escaped with
    | true => exact ih h
    | false =>
      rw [scan] at h
      split at h
      · cases h
      · next hb => simpa [feed, hb] using @ih (front ++ [b]) _ h

theorem run_keyString_scan {front raw : List UInt8} {escaped final : Bool}
    (h : scan escaped raw = some final) :
    run limit ⟨.keyString front escaped, stack⟩ raw = some ⟨.keyString (front ++ raw) final, stack⟩ := by
  induction raw generalizing front escaped with
  | nil =>
    rw [scan] at h
    cases h
    rw [List.append_nil]
    rfl
  | cons b raw ih =>
    rw [run_cons, List.append_cons]
    cases escaped with
    | true => exact ih h
    | false =>
      rw [scan] at h
      split at h
      · cases h
      · next hb => simpa [feed, hb] using @ih (front ++ [b]) _ h

theorem read_quotes {text s : List UInt8} (h : Quotes text s) : read limit text = some (.string s) := by
  obtain ⟨raw, rfl, hscan, hdecode⟩ := h
  refine read_eq_some.mpr ⟨⟨.after (.string s), []⟩, ?_, .inl rfl⟩
  show run limit ⟨.value, []⟩ (0x22 :: (raw ++ [0x22])) = _
  rw [run_cons, show feed limit ⟨.value, []⟩ 0x22 = some ⟨.string [] false, []⟩ from rfl, Option.bind_some,
    run_append, run_string_scan hscan]
  simp [feed, hdecode]

/-- A key, where `mode` is one that waits for it. -/
theorem run_quotes {text key old : List UInt8} {members : List (List UInt8 × Value)} {mode : Mode}
    (hmode : mode = .key ∨ mode = .keyOrClose) (h : Quotes text key) :
    run limit ⟨mode, .object members old :: stack⟩ text =
      some ⟨.colon, .object members key :: stack⟩ := by
  obtain ⟨raw, rfl, hscan, hdecode⟩ := h
  have hopen : feed limit ⟨mode, .object members old :: stack⟩ 0x22 =
      some ⟨.keyString [] false, .object members old :: stack⟩ := by
    rcases hmode with rfl | rfl <;> rfl
  show run limit _ (0x22 :: (raw ++ [0x22])) = _
  rw [run_cons, hopen, Option.bind_some, run_append, run_keyString_scan hscan]
  simp [feed, closeKey, hdecode]

theorem run_ws {text : List UInt8} (hstay : ∀ b, isWs b = true → feed limit state b = some state)
    (h : ∀ b ∈ text, isWs b = true) : run limit state text = some state := by
  induction text with
  | nil => rfl
  | cons b text ih =>
    rw [run_cons, hstay b (h b List.mem_cons_self)]
    exact ih fun b hb => h b (List.mem_cons_of_mem _ hb)

/-- A member as a key, a colon and a value. -/
def memberText (colon : List UInt8) (item : List UInt8 × List UInt8) : List UInt8 :=
  item.1 ++ (0x3a :: colon ++ item.2)

/-- The members of an object, with white space behind colons and commas. -/
def membersText (colon comma : List UInt8) : List (List UInt8 × List UInt8) → List UInt8
  | [] => []
  | item :: items =>
    memberText colon item ++ items.flatMap fun item => 0x2c :: comma ++ memberText colon item

/-- The texts of a member and what they stand for. -/
def MemberReads (limit : Nat) (item : List UInt8 × List UInt8) (member : List UInt8 × Value) : Prop :=
  Quotes item.1 member.1 ∧ read limit item.2 = some member.2

variable {colon comma : List UInt8} (hcolon : ∀ b ∈ colon, isWs b = true)
  (hcomma : ∀ b ∈ comma, isWs b = true)

include hcolon in
theorem run_member {item : List UInt8 × List UInt8} {member : List UInt8 × Value}
    {members : List (List UInt8 × Value)} {old : List UInt8} {mode : Mode}
    (hmode : mode = .key ∨ mode = .keyOrClose) (h : MemberReads limit item member) :
    ∃ state, run (limit + stack.length + 1) ⟨mode, .object members old :: stack⟩ (memberText colon item) =
        some state ∧ Holds state member.2 (.object members member.1 :: stack) := by
  obtain ⟨state, hrun, hholds⟩ := @run_of_read limit (.object members member.1 :: stack) _ _ h.2
    (limit + stack.length + 1) (by simp; omega)
  refine ⟨state, ?_, hholds⟩
  rw [memberText, run_append, run_quotes hmode h.1, Option.bind_some, List.cons_append, run_cons]
  show (run _ ⟨.value, _⟩ (colon ++ item.2)) = _
  rw [run_append, run_ws (fun b hb => by simp [feed, hb]) hcolon]
  exact hrun

include hcolon hcomma in
theorem run_members {items : List (List UInt8 × List UInt8)} {later members : List (List UInt8 × Value)}
    {key : List UInt8} (hstate : Holds state v (.object members key :: stack))
    (h : List.Forall₂ (MemberReads limit) items later) :
    run (limit + stack.length + 1) state
        ((items.flatMap fun item => 0x2c :: comma ++ memberText colon item) ++ [0x7d]) =
      some ⟨.after (.object (members ++ (key, v) :: later)), stack⟩ := by
  induction h generalizing state v members key with
  | nil =>
    show run _ state [0x7d] = _
    rw [run_cons, hstate.feed rfl]
    rfl
  | @cons item member items later hitem _ ih =>
    have hnext : feed (limit + stack.length + 1) state 0x2c =
        some ⟨.key, .object (members ++ [(key, v)]) [] :: stack⟩ := by
      rw [hstate.feed rfl]
      rfl
    obtain ⟨state', hrun, hholds⟩ := run_member hcolon (.inl rfl) hitem
    rw [List.flatMap_cons, List.append_assoc, List.cons_append, List.cons_append, run_cons, hnext,
      Option.bind_some, List.append_assoc, run_append, run_ws (fun b hb => by simp [feed, hb]) hcomma,
      Option.bind_some, run_append, hrun, Option.bind_some, ih hholds, List.append_assoc]
    rfl

include hcolon hcomma in
/-- An object reads as its members do. -/
theorem read_object {items : List (List UInt8 × List UInt8)} {members : List (List UInt8 × Value)}
    (h : List.Forall₂ (MemberReads limit) items members) :
    read (limit + 1) (0x7b :: membersText colon comma items ++ [0x7d]) = some (.object members) := by
  have hopen : feed (limit + 1) ⟨.value, []⟩ 0x7b = some ⟨.keyOrClose, [.object [] []]⟩ := by
    simp [feed, isWs, startValue]
  refine read_eq_some.mpr ⟨⟨.after (.object members), []⟩, ?_, .inl rfl⟩
  rw [List.cons_append, run_cons, hopen, Option.bind_some]
  cases h with
  | nil => rfl
  | cons hitem hitems =>
    obtain ⟨state, hrun, hholds⟩ := @run_member limit [] colon hcolon _ _ [] [] .keyOrClose (.inr rfl) hitem
    rw [membersText, List.append_assoc, run_append]
    exact (congrArg (Option.bind · _) hrun).trans (run_members hcolon hcomma hholds hitems)

end Spark.Json
