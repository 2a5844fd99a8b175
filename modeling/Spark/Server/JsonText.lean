import Spark.Lib.Json
import Spark.Server.Text

/-!
# JSON in the GLM server

The server's own skipping, minifying and escaping of JSON, and `json_args_parse`, which takes the
arguments of a tool call apart. A text is a C string, so no zero byte stands in it.
-/

namespace Spark.Server

def isspace (b : UInt8) : Bool := b = 0x20 || (0x09 ≤ b && b ≤ 0x0d)

def jsonWs (p : List UInt8) : List UInt8 := p.dropWhile isspace

def jsonLit (p lit : List UInt8) : Option (List UInt8) :=
  if lit.isPrefixOf p then some (p.drop lit.length) else none

/-! ## Strings -/

/-- The loop of `json_string` behind the opening quote: the string and what follows it. -/
def jsonStringLoop : Nat → List UInt8 → Option (List UInt8 × List UInt8)
  | 0, _ => none
  | _ + 1, [] => none
  | fuel + 1, c :: p =>
    if c = 0x22 then some ([], p)
    else if c ≠ 0x5c then (jsonStringLoop fuel p).map fun out => (c :: out.1, out.2)
    else match Json.escape p with
      | none => none
      | some (decoded, p) => (jsonStringLoop fuel p).map fun out => (decoded ++ out.1, out.2)

/-- `json_string`; its result is a C string, which a `\u0000` ends. -/
def jsonString (p : List UInt8) : Option (List UInt8 × List UInt8) :=
  match jsonWs p with
  | [] => none
  | c :: p =>
    if c = 0x22 then (jsonStringLoop (p.length + 1) p).map fun out => (cString out.1, out.2) else none

/-- One byte of `json_escape`. -/
def escapeByte (c : UInt8) : List UInt8 :=
  if c = 0x22 ∨ c = 0x5c then [0x5c, c]
  else if c = 0x0a then bytes "\\n"
  else if c = 0x0d then bytes "\\r"
  else if c = 0x09 then bytes "\\t"
  else if c < 0x20 then
    bytes "\\u00" ++ [0x30 + c / 16, if c % 16 < 10 then 0x30 + c % 16 else 0x61 + (c % 16 - 10)]
  else [c]

def jsonEscapeFragment (s : List UInt8) : List UInt8 := s.flatMap escapeByte

def jsonEscape (s : List UInt8) : List UInt8 := 0x22 :: jsonEscapeFragment s ++ [0x22]

/-! ## Numbers -/

def isAlpha (b : UInt8) : Bool := (0x61 ≤ b && b ≤ 0x7a) || (0x41 ≤ b && b ≤ 0x5a)

def toLower (b : UInt8) : UInt8 := if 0x41 ≤ b && b ≤ 0x5a then b + 0x20 else b

/-- `lit` at the front, in either case. -/
def foldedLit (p lit : List UInt8) : Bool := lit.isPrefixOf (p.map toLower)

/-- Digits with at most one point among them; none where there is no digit. -/
def mantissa (digit : UInt8 → Bool) (p : List UInt8) : Option (List UInt8) :=
  let rest := p.dropWhile digit
  let whole := p.takeWhile digit ≠ []
  match rest with
  | [] => if whole then some [] else none
  | c :: frac =>
    if c = 0x2e ∧ (whole ∨ frac.takeWhile digit ≠ []) then some (frac.dropWhile digit)
    else if whole then some rest
    else none

/-- An exponent, which needs a digit to count. -/
def exponent (mark : UInt8) (p : List UInt8) : List UInt8 :=
  match p with
  | [] => []
  | c :: rest =>
    if toLower c = mark then
      let digits := match rest with
        | [] => []
        | sign :: more => if sign = 0x2b ∨ sign = 0x2d then more else rest
      if digits.takeWhile Json.isDigit = [] then p else digits.dropWhile Json.isDigit
    else p

/-- `nan(chars)`; the parentheses need not be there. -/
def nanTail (p : List UInt8) : List UInt8 :=
  match p with
  | [] => []
  | c :: rest =>
    if c = 0x28 then
      match rest.dropWhile fun b => Json.isDigit b || isAlpha b || b = 0x5f with
      | [] => p
      | close :: rest => if close = 0x29 then rest else p
    else p

/-- `strtod` behind a sign. -/
def strtodMagnitude (p : List UInt8) : Option (List UInt8) :=
  if foldedLit p (bytes "infinity") then some (p.drop 8)
  else if foldedLit p (bytes "inf") then some (p.drop 3)
  else if foldedLit p (bytes "nan") then some (nanTail (p.drop 3))
  else if foldedLit p (bytes "0x") then
    match mantissa (fun b => (Json.hexDigit b).isSome) (p.drop 2) with
    | some rest => some (exponent 0x70 rest)
    | none => some (p.drop 1)
  else (mantissa Json.isDigit p).map (exponent 0x65)

/-- Where `strtod` stops in the C locale; none where it converts nothing. -/
def strtod (p : List UInt8) : Option (List UInt8) :=
  match p.dropWhile isspace with
  | [] => none
  | c :: rest => if c = 0x2b ∨ c = 0x2d then strtodMagnitude rest else strtodMagnitude (c :: rest)

/-! ## Values -/

def jsonMaxNesting : Nat := 256

/-- The loop of `json_skip_array_depth`. -/
def jsonSkipArrayLoop (skip : List UInt8 → Option (List UInt8)) :
    Nat → List UInt8 → Option (List UInt8)
  | 0, _ => none
  | fuel + 1, p =>
    match skip p with
    | none => none
    | some p =>
      match jsonWs p with
      | [] => none
      | c :: p =>
        if c = 0x5d then some p
        else if c = 0x2c then jsonSkipArrayLoop skip fuel p
        else none

/-- `json_skip_array_depth`, behind the bracket. -/
def jsonSkipArray (skip : List UInt8 → Option (List UInt8)) (p : List UInt8) :
    Option (List UInt8) :=
  match jsonWs p with
  | [] => none
  | c :: p => if c = 0x5d then some p else jsonSkipArrayLoop skip (p.length + 1) (c :: p)

/-- The loop of `json_skip_object_depth`. -/
def jsonSkipObjectLoop (skip : List UInt8 → Option (List UInt8)) :
    Nat → List UInt8 → Option (List UInt8)
  | 0, _ => none
  | fuel + 1, p =>
    match jsonString p with
    | none => none
    | some (_, p) =>
      match jsonWs p with
      | [] => none
      | colon :: p =>
        if colon ≠ 0x3a then none
        else match skip p with
          | none => none
          | some p =>
            match jsonWs p with
            | [] => none
            | c :: p =>
              if c = 0x7d then some p
              else if c = 0x2c then jsonSkipObjectLoop skip fuel p
              else none

/-- `json_skip_object_depth`, behind the brace. -/
def jsonSkipObject (skip : List UInt8 → Option (List UInt8)) (p : List UInt8) :
    Option (List UInt8) :=
  match jsonWs p with
  | [] => none
  | c :: p => if c = 0x7d then some p else jsonSkipObjectLoop skip (p.length + 1) (c :: p)

/-- A value without brackets in `json_skip_value_depth`. -/
def jsonSkipScalar (p : List UInt8) : Option (List UInt8) :=
  (jsonLit p (bytes "true")).orElse fun _ =>
    (jsonLit p (bytes "false")).orElse fun _ =>
      (jsonLit p (bytes "null")).orElse fun _ => strtod p

/-- `json_skip_value_depth` at depth `jsonMaxNesting - levels`. -/
def jsonSkipValueDepth : Nat → List UInt8 → Option (List UInt8)
  | levels, p =>
    match jsonWs p with
    | [] => none
    | c :: p =>
      if c = 0x22 then (jsonString (c :: p)).map (·.2)
      else if c = 0x7b then
        match levels with
        | 0 => none
        | levels + 1 => jsonSkipObject (jsonSkipValueDepth levels) p
      else if c = 0x5b then
        match levels with
        | 0 => none
        | levels + 1 => jsonSkipArray (jsonSkipValueDepth levels) p
      else jsonSkipScalar (c :: p)

def jsonSkipValue : List UInt8 → Option (List UInt8) := jsonSkipValueDepth jsonMaxNesting

/-- `json_minify_raw_value`; what is not a value stays as it is. -/
def jsonMinifyRawValue (json : List UInt8) : List UInt8 :=
  let start := jsonWs json
  match jsonSkipValue start with
  | none => json
  | some rest => Json.strip isspace (false, false) (start.take (start.length - rest.length))

/-- `json_raw_value`: the value as it is written, and what follows it. -/
def jsonRawValue (p : List UInt8) : Option (List UInt8 × List UInt8) :=
  let start := jsonWs p
  (jsonSkipValue start).map fun rest => (start.take (start.length - rest.length), rest)

/-! ## Arguments -/

structure JsonArg where
  key : List UInt8
  value : List UInt8
  isString : Bool
  deriving DecidableEq, Repr

/-- The value of one argument in `json_args_parse`. -/
def jsonArgValue (p : List UInt8) : Option ((List UInt8 × Bool) × List UInt8) :=
  match p with
  | [] => none
  | c :: rest =>
    if c = 0x22 then (jsonString (c :: rest)).map fun out => ((out.1, true), out.2)
    else (jsonRawValue (c :: rest)).map fun out => ((jsonMinifyRawValue out.1, false), out.2)

/-- The loop of `json_args_parse`. A missing comma is let pass. -/
def jsonArgsLoop : Nat → List UInt8 → List JsonArg → Option (List JsonArg)
  | 0, _, _ => none
  | _ + 1, [], _ => none
  | fuel + 1, c :: p, args =>
    if c = 0x7d then some args
    else match jsonString (c :: p) with
      | none => none
      | some (key, p) =>
        match jsonWs p with
        | [] => none
        | colon :: p =>
          if colon ≠ 0x3a then none
          else match jsonArgValue (jsonWs p) with
            | none => none
            | some ((value, isString), p) =>
              let p := match jsonWs p with
                | [] => []
                | c :: p => if c = 0x2c then p else c :: p
              jsonArgsLoop fuel (jsonWs p) (args ++ [⟨key, value, isString⟩])

def jsonArgsParse (json : List UInt8) : Option (List JsonArg) :=
  match jsonWs json with
  | [] => none
  | c :: p => if c = 0x7b then jsonArgsLoop (p.length + 1) (jsonWs p) [] else none

/-- `append_json_arg_pair`. -/
def jsonArgPair (arg : JsonArg) : List UInt8 :=
  jsonEscape arg.key ++ (0x3a :: if arg.isString then jsonEscape arg.value else arg.value)

/-- `append_json_object_or_empty`. -/
def appendJsonObjectOrEmpty (json : List UInt8) : List UInt8 :=
  match jsonArgsParse json with
  | none => bytes "\x7b\x7d"
  | some args => 0x7b :: [0x2c].intercalate (args.map jsonArgPair) ++ [0x7d]

end Spark.Server
