import Spark.Server.ReplyStream

/-!
# Where a reply is inside a tool call

The tracker that follows a reply token by token, so that protocol and payload are sampled differently, and
the slow recognizer that the tests compare it with.

* **`dsmlDecodeTrackerUpdate`** — the tracker on a longer part of the reply.
* **`dsmlDecodeStateForText`** — the recognizer on all of it.
-/

namespace Spark.Server

inductive DsmlDecodeState where
  | outside
  | structural
  | stringBody
  | jsonStructural
  | jsonString
  deriving DecidableEq, Repr

inductive TrackMode where
  | search
  | structural
  | stringBody
  | jsonParam
  | done
  deriving DecidableEq, Repr

/-- `dsml_decode_tracker` without its answer. -/
structure TrackPlace where
  mode : TrackMode
  syn : Option DsmlSyntax
  pos : Nat
  jsonInString : Bool
  jsonEscaped : Bool
  deriving DecidableEq, Repr

structure DecodeTracker where
  place : TrackPlace
  decode : DsmlDecodeState
  deriving DecidableEq, Repr

/-! ## Literals -/

def rawPartialLitMin (raw : List UInt8) (pos : Nat) (lit : List UInt8) (minLen : Nat) : Bool :=
  rawPartialLit raw pos lit && minLen ≤ raw.length - pos

def rawSuffixPartialLit (raw lit : List UInt8) (minLen : Nat) : Bool :=
  if raw = [] ∨ lit = [] then false
  else
    let max := if raw.length < lit.length then raw.length else lit.length - 1
    (List.range (max + 1)).any fun n => minLen ≤ n && raw.drop (raw.length - n) = lit.take n

def dsmlMaxToolStartLen : Nat := (dsmlSyntaxes.map fun syn => syn.toolCallsStart.length).foldl max 0

/-- The best opener of `dsml_find_tool_start` before and after looking for one dialect's. -/
def betterStart (raw : List UInt8) (best : Option (Nat × DsmlSyntax)) (syn : DsmlSyntax) :
    Option (Nat × DsmlSyntax) :=
  match searchString syn.toolCallsStart raw with
  | none => best
  | some p =>
    match best with
    | none => some (p, syn)
    | some found => if p < found.1 then some (p, syn) else some found

/-- `dsml_find_tool_start`: the place behind the first opener, and its dialect. -/
def dsmlFindToolStart (raw : List UInt8) : Option (Nat × DsmlSyntax) :=
  (dsmlSyntaxes.foldl (betterStart raw) none).map fun found =>
    (found.1 + found.2.toolCallsStart.length, found.2)

def dsmlFindToolStartFrom (raw : List UInt8) (start : Nat) : Option (Nat × DsmlSyntax) :=
  if start > raw.length then none
  else (dsmlFindToolStart (raw.drop start)).map fun found => (start + found.1, found.2)

def dsmlAttrIsStringTrue (tag : List UInt8) : Bool := dsmlAttr tag (bytes "string") = some (bytes "true")

/-- A byte of a JSON value: whether a string is open behind it, and whether the next byte is escaped. -/
def jsonByte (inString escaped : Bool) (c : UInt8) : Bool × Bool :=
  if inString then
    if escaped then (true, false)
    else if c = 0x5c then (true, true)
    else (c ≠ 0x22, false)
  else (c = 0x22, escaped)

/-! ## The tracker -/

def DecodeTracker.init : DecodeTracker := ⟨⟨.search, none, 0, false, false⟩, .outside⟩

/-- One byte of a string's body, or its end. -/
def trackString (p : TrackPlace) (syn : DsmlSyntax) (raw : List UInt8) :
    TrackPlace × Option DsmlDecodeState :=
  if p.pos < raw.length then
    if rawFullLit raw p.pos syn.paramEnd then
      ({ p with pos := p.pos + syn.paramEnd.length, mode := .structural }, none)
    else if rawPartialLitMin raw p.pos syn.paramEnd 2 then (p, some .structural)
    else ({ p with pos := p.pos + 1 }, none)
  else (p, some .stringBody)

/-- One byte of a JSON value, or its end. -/
def trackJson (p : TrackPlace) (syn : DsmlSyntax) (raw : List UInt8) :
    TrackPlace × Option DsmlDecodeState :=
  if p.pos < raw.length then
    if !p.jsonInString && rawFullLit raw p.pos syn.paramEnd then
      ({ p with pos := p.pos + syn.paramEnd.length, mode := .structural }, none)
    else if !p.jsonInString && rawPartialLitMin raw p.pos syn.paramEnd 2 then (p, some .structural)
    else
      let read := jsonByte p.jsonInString p.jsonEscaped (raw.getD p.pos 0)
      ({ p with pos := p.pos + 1, jsonInString := read.1, jsonEscaped := read.2 }, none)
  else (p, some (if p.jsonInString then .jsonString else .jsonStructural))

/-- One byte of white space between the tags, or one tag. -/
def trackStructural (p : TrackPlace) (syn : DsmlSyntax) (raw : List UInt8) :
    TrackPlace × Option DsmlDecodeState :=
  if p.pos ≥ raw.length then (p, some .structural)
  else if isspace (raw.getD p.pos 0) then ({ p with pos := p.pos + 1 }, none)
  else if rawFullLit raw p.pos syn.toolCallsEnd then
    ({ p with mode := .done, pos := p.pos + syn.toolCallsEnd.length }, some .outside)
  else if rawFullLit raw p.pos syn.invokeEnd then ({ p with pos := p.pos + syn.invokeEnd.length }, none)
  else if rawFullLit raw p.pos syn.invokeStart then
    match dsmlTag (raw.drop p.pos) with
    | none => (p, some .structural)
    | some (tag, _) => ({ p with pos := p.pos + tag.length }, none)
  else if rawFullLit raw p.pos syn.paramStart then
    match dsmlTag (raw.drop p.pos) with
    | none => (p, some .structural)
    | some (tag, _) =>
      if dsmlAttrIsStringTrue tag then ({ p with pos := p.pos + tag.length, mode := .stringBody }, none)
      else
        ({ p with
            pos := p.pos + tag.length, mode := .jsonParam, jsonInString := false, jsonEscaped := false }, none)
  -- a tag that breaks off and anything else come to the same
  else (p, some .structural)

/-- One turn of the loops of `dsml_decode_tracker_update`; with an answer, it is the last one. -/
def trackTurn (p : TrackPlace) (raw : List UInt8) : TrackPlace × Option DsmlDecodeState :=
  match p.mode, p.syn with
  | .search, _ =>
    match dsmlFindToolStartFrom raw p.pos with
    | none => ({ p with pos := raw.length - dsmlMaxToolStartLen }, some .outside)
    | some (pos, syn) => ({ p with syn := some syn, pos := pos, mode := .structural }, none)
  | .stringBody, some syn => trackString p syn raw
  | .jsonParam, some syn => trackJson p syn raw
  | .structural, some syn => trackStructural p syn raw
  | _, _ => (p, some .outside)

def trackLoop : Nat → TrackPlace → List UInt8 → Option DecodeTracker
  | 0, _, _ => none
  | fuel + 1, p, raw =>
    match trackTurn p raw with
    | (p, some decode) => some ⟨p, decode⟩
    | (p, none) => trackLoop fuel p raw

/-- `dsml_decode_tracker_update`, with a count of turns; none where they do not suffice. -/
def dsmlDecodeTrackerUpdate (fuel : Nat) (dt : DecodeTracker) (raw : List UInt8) : Option DecodeTracker :=
  trackLoop fuel dt.place raw

/-- A tracker on one part of a text after another. -/
def trackPrefixes (fuel : Nat) (text : List UInt8) (lens : List Nat) (dt : DecodeTracker) :
    Option DecodeTracker :=
  lens.foldlM (fun dt n => dsmlDecodeTrackerUpdate fuel dt (text.take n)) dt

/-! ## The recognizer -/

/-- The loop of `dsml_decode_scan_json_param`: where the closing tag stands outside JSON strings; without
one, whether the text breaks off in a string. -/
def scanJson (syn : DsmlSyntax) : Bool → Bool → List UInt8 → Option Nat × Bool
  | inString, _, [] => (none, inString)
  | inString, escaped, c :: rest =>
    if !inString && syn.paramEnd.isPrefixOf (c :: rest) then (some 0, false)
    else
      let read := jsonByte inString escaped c
      let found := scanJson syn read.1 read.2 rest
      (found.1.map (· + 1), found.2)

def dsmlDecodeScanJsonParam (raw : List UInt8) (pos : Nat) (syn : DsmlSyntax) : DsmlDecodeState :=
  match scanJson syn false false (raw.drop pos) with
  | (some _, _) => .structural
  | (none, inString) =>
    if !inString && rawSuffixPartialLit raw syn.paramEnd 2 then .structural
    else if inString then .jsonString
    else .jsonStructural

/-- What follows a parameter's tag: the place behind its closing tag, or the answer. -/
def recognizeValue (syn : DsmlSyntax) (raw tag : List UInt8) (pos : Nat) : Nat ⊕ DsmlDecodeState :=
  let closing := (searchString syn.paramEnd (raw.drop pos)).map (pos + · + syn.paramEnd.length)
  if dsmlAttrIsStringTrue tag then
    match closing with
    | none => .inr (if rawSuffixPartialLit raw syn.paramEnd 2 then .structural else .stringBody)
    | some pos => .inl pos
  else
    let state := dsmlDecodeScanJsonParam raw pos syn
    if state = .structural then
      match closing with
      | none => .inr .structural
      | some pos => .inl pos
    else .inr state

/-- The loop of `dsml_decode_state_for_text`. -/
def recognizeLoop (syn : DsmlSyntax) (raw : List UInt8) : Nat → Nat → Option DsmlDecodeState
  | 0, _ => none
  | fuel + 1, pos =>
    let pos := pos + ((raw.drop pos).takeWhile isspace).length
    if pos ≥ raw.length then some .structural
    else if rawFullLit raw pos syn.toolCallsEnd then some .outside
    else if rawFullLit raw pos syn.invokeEnd then recognizeLoop syn raw fuel (pos + syn.invokeEnd.length)
    else if rawFullLit raw pos syn.invokeStart then
      match dsmlTag (raw.drop pos) with
      | none => some .structural
      | some (tag, _) => recognizeLoop syn raw fuel (pos + tag.length)
    else if rawFullLit raw pos syn.paramStart then
      match dsmlTag (raw.drop pos) with
      | none => some .structural
      | some (tag, _) =>
        match recognizeValue syn raw tag (pos + tag.length) with
        | .inl pos => recognizeLoop syn raw fuel pos
        | .inr state => some state
    else some .structural

/-- `dsml_decode_state_for_text`. -/
def dsmlDecodeStateForText (raw : List UInt8) : Option DsmlDecodeState :=
  match dsmlFindToolStart raw with
  | none => some .outside
  | some (pos, syn) => recognizeLoop syn raw (raw.length + 1) pos

end Spark.Server
