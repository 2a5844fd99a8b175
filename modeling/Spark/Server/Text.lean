import Mathlib.Data.List.Basic

/-!
# Scanning generated text

The searches the GLM server runs over a reply while it grows. Text is a list of bytes; a C string
ends at its first zero byte, so a search never looks past one.

* **`strstr`** — the first occurrence of a needle.
* **`findFrom`** — `stop_list_find_from`, the earliest stop string.
* **`ThinkingState.feed`** — whether the reply is inside `<think>`.
* **`observeToolMarkers`**, **`completeToolCallInsideThinking`** — the tool-call block.
-/

namespace Spark.Server

/-- The bytes of a literal. -/
def bytes (text : String) : List UInt8 := text.toList.flatMap String.utf8EncodeChar

/-- The C string that starts at a buffer's first byte. -/
def cString (buffer : List UInt8) : List UInt8 := buffer.takeWhile (· ≠ 0)

/-- The first position at which `needle` stands in a C string. -/
def searchString (needle : List UInt8) : List UInt8 → Option Nat
  | [] => if needle = [] then some 0 else none
  | byte :: rest =>
    if needle.isPrefixOf (byte :: rest) then some 0
    else (searchString needle rest).map (· + 1)

def strstr (buffer needle : List UInt8) : Option Nat := searchString needle (cString buffer)

/-- The smaller of two positions, where there may be none. -/
def earlier : Option Nat → Option Nat → Option Nat
  | none, second => second
  | first, none => first
  | some first, some second => some (if second < first then second else first)

/-- The earliest occurrence of any of the candidates. -/
def findAny (candidates : List (List UInt8)) (buffer : List UInt8) : Option Nat :=
  (candidates.map (strstr buffer)).foldl earlier none

/-- The last occurrence, by repeated `strstr` from one past the previous one. -/
def findLastSubstr (buffer needle : List UInt8) : Option Nat :=
  if needle = [] then none
  else
    let rec scan : Nat → Nat → Option Nat → Option Nat
      | 0, _, last => last
      | fuel + 1, start, last =>
        match strstr (buffer.drop start) needle with
        | none => last
        | some pos => scan fuel (start + pos + 1) (some (start + pos))
    scan (buffer.length + 1) 0 none

/-! ## Stop strings -/

structure StopList where
  v : List (List UInt8)
  maxLen : Nat
  deriving DecidableEq, Repr

def StopList.empty : StopList := ⟨[], 0⟩

/-- `stop_list_push`; an empty string is dropped. -/
def StopList.push (stops : StopList) (text : List UInt8) : StopList :=
  if cString text = [] then stops
  else ⟨stops.v ++ [cString text], max stops.maxLen (cString text).length⟩

/-- The best match of `stop_list_find_from` before and after looking at one stop string: the
first of the list wins a tie. -/
def StopList.better (text : List UInt8) (start : Nat) (best : Option (Nat × Nat))
    (stop : List UInt8) : Option (Nat × Nat) :=
  match strstr (text.drop start) stop with
  | none => best
  | some pos =>
    match best with
    | none => some (start + pos, stop.length)
    | some found => if start + pos < found.1 then some (start + pos, stop.length) else some found

/-- `stop_list_find_from`: position and length of the earliest stop string. -/
def StopList.findFrom (stops : StopList) (text : List UInt8) (start : Nat) :
    Option (Nat × Nat) :=
  stops.v.foldl (StopList.better text start) none

/-- The bytes that have to be scanned again once more text is there. -/
def StopList.nextScan (stops : StopList) (text : List UInt8) (scanFrom : Nat) : Nat :=
  if stops.maxLen > 1 then text.length - (stops.maxLen - 1) else scanFrom

/-! ## Thinking -/

structure ThinkingState where
  inside : Bool
  tail : List UInt8
  deriving DecidableEq, Repr

/-- One byte of `thinking_state_feed`; the tail holds the last eight. -/
def ThinkingState.feedByte (state : ThinkingState) (byte : UInt8) : ThinkingState :=
  let tail := (if state.tail.length = 8 then state.tail.drop 1 else state.tail) ++ [byte]
  if (bytes "<think>").isSuffixOf tail then ⟨true, tail⟩
  else if (bytes "</think>").isSuffixOf tail then ⟨false, tail⟩
  else ⟨state.inside, tail⟩

def ThinkingState.feed (state : ThinkingState) (piece : List UInt8) : ThinkingState :=
  piece.foldl ThinkingState.feedByte state

/-- `thinking_state_from_prompt`. -/
def ThinkingState.fromPrompt (promptText : Option (List UInt8)) (thinkEnabled : Bool) :
    ThinkingState :=
  match promptText with
  | some text => ThinkingState.feed ⟨false, []⟩ (cString text)
  | none => ⟨thinkEnabled, []⟩

/-! ## Tool markers -/

def toolStarts : List (List UInt8) :=
  [bytes "<｜DSML｜tool_calls>", bytes "<DSML｜tool_calls>", bytes "<tool_calls>",
    bytes "<tool_call>"]

def toolEnds : List (List UInt8) :=
  [bytes "</｜DSML｜tool_calls>", bytes "</DSML｜tool_calls>", bytes "</tool_calls>",
    bytes "</tool_call>"]

def findAnyToolStart : List UInt8 → Option Nat := findAny toolStarts

def findAnyToolEnd : List UInt8 → Option Nat := findAny toolEnds

/-- `observe_tool_markers`: the two flags after a scan. An end counts only behind a start. -/
def observeToolMarkers (scan : List UInt8) (sawStart sawEnd : Bool) : Bool × Bool :=
  let start := findAnyToolStart scan
  let finish :=
    if sawStart then findAnyToolEnd scan
    else match start with
      | some pos => findAnyToolEnd (scan.drop pos)
      | none => none
  (sawStart || start.isSome, sawEnd || finish.isSome)

/-- The bytes kept for another look, long enough for any marker. -/
def markerHold : Nat := 80

/-- `complete_tool_call_inside_thinking`: the new scan position, and whether a whole block is
there. -/
def completeToolCallInsideThinking (text : List UInt8) (scanFrom : Nat) : Nat × Bool :=
  let scanFrom := min scanFrom text.length
  match findAnyToolStart (text.drop scanFrom) with
  | none => (text.length - markerHold, false)
  | some pos => (scanFrom + pos, (findAnyToolEnd (text.drop (scanFrom + pos))).isSome)

end Spark.Server
