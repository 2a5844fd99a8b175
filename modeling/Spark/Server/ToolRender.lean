import Spark.Lib.Escape
import Spark.Server.Dsml

/-!
# Tool calls in a prompt

How the calls of an earlier reply are written into the next prompt when the text the model wrote is not
there any more: the DSML block and the GLM block.
-/

namespace Spark.Server

open Spark.Search

/-! ## Texts -/

/-- One byte of `append_dsml_attr_escaped`. -/
def attrByte (c : UInt8) : List UInt8 :=
  if c = 0x26 then bytes "&amp;"
  else if c = 0x3c then bytes "&lt;"
  else if c = 0x3e then bytes "&gt;"
  else if c = 0x22 then bytes "&quot;"
  else [c]

def appendDsmlAttrEscaped (s : List UInt8) : List UInt8 := s.flatMap attrByte

def appendDsmlParameterText (s : List UInt8) : List UInt8 :=
  escapeWord (bytes "</｜DSML｜parameter>") (bytes "&lt;") s

def appendDsmlJsonLiteral (s : List UInt8) : List UInt8 :=
  escapeWord (bytes "</｜DSML｜parameter>") (bytes "\\u003c") s

def appendGlmTagBodyText (s finish : List UInt8) : List UInt8 := escapeWord finish (bytes "&lt;") s

def appendGlmArgKeyText (s : List UInt8) : List UInt8 := appendGlmTagBodyText s (bytes "</arg_key>")

def appendGlmArgValueText (s : List UInt8) : List UInt8 := appendGlmTagBodyText s (bytes "</arg_value>")

/-! ## The DSML block -/

def appendDsmlArg (arg : JsonArg) : List UInt8 :=
  bytes "<｜DSML｜parameter name=\"" ++ appendDsmlAttrEscaped arg.key ++ bytes "\" string=\"" ++
    bytes (if arg.isString then "true" else "false") ++ bytes "\">" ++
      (if arg.isString then appendDsmlParameterText arg.value else appendDsmlJsonLiteral arg.value) ++
        bytes "</｜DSML｜parameter>\n"

/-- `append_dsml_arguments_from_json` without an order, as it is called; none where the text is no object. -/
def appendDsmlArgumentsFromJson (json : List UInt8) : Option (List UInt8) :=
  (jsonArgsParse json).map fun args => args.flatMap appendDsmlArg

/-- The parameters of one call. Arguments that cannot be read stand as one string. -/
def appendDsmlArguments (json : List UInt8) : List UInt8 :=
  match appendDsmlArgumentsFromJson json with
  | some params => params
  | none =>
    bytes "<｜DSML｜parameter name=\"arguments\" string=\"true\">" ++ appendDsmlParameterText json ++
      bytes "</｜DSML｜parameter>\n"

def appendDsmlToolCall (call : ToolCall) : List UInt8 :=
  bytes "<｜DSML｜invoke name=\"" ++ appendDsmlAttrEscaped call.name ++ bytes "\">\n" ++
    appendDsmlArguments call.arguments ++ bytes "</｜DSML｜invoke>\n"

/-- `append_dsml_tool_calls_text`. -/
def appendDsmlToolCallsText (calls : List ToolCall) (rawToolText : Option (List UInt8)) : List UInt8 :=
  if calls = [] then []
  else
    match rawToolText with
    | some (c :: text) => c :: text
    | _ =>
      bytes "\n\n<｜DSML｜tool_calls>\n" ++ calls.flatMap appendDsmlToolCall ++ bytes "</｜DSML｜tool_calls>"

/-! ## The GLM block -/

structure ToolSchemaOrder where
  name : List UInt8
  prop : List (List UInt8)
  deriving DecidableEq, Repr

/-- `tool_schema_orders_find`. -/
def toolSchemaOrdersFind (orders : List ToolSchemaOrder) (name : List UInt8) : Option ToolSchemaOrder :=
  orders.find? fun order => order.name = name

def appendGlmArg (arg : JsonArg) : List UInt8 :=
  bytes "<arg_key>" ++ appendGlmArgKeyText arg.key ++ bytes "</arg_key><arg_value>" ++
    appendGlmArgValueText arg.value ++ bytes "</arg_value>"

/-- The arguments a schema names, in its order, and behind them those that are left. What is used once is
not there any more. -/
def orderArgs : List (List UInt8) → List JsonArg → List JsonArg
  | [], args => args
  | prop :: props, args =>
    match args.find? fun arg => arg.key = prop with
    | none => orderArgs props args
    | some arg => arg :: orderArgs props (args.eraseP fun arg => arg.key = prop)

def appendGlmArgumentsFromJson (json : List UInt8) (order : Option ToolSchemaOrder) : Option (List UInt8) :=
  (jsonArgsParse json).map fun args =>
    (orderArgs ((order.map ToolSchemaOrder.prop).getD []) args).flatMap appendGlmArg

def appendGlmToolCall (orders : List ToolSchemaOrder) (call : ToolCall) : List UInt8 :=
  bytes "<tool_call>" ++ call.name ++
    (match appendGlmArgumentsFromJson call.arguments (toolSchemaOrdersFind orders call.name) with
      | some args => args
      | none =>
        bytes "<arg_key>arguments</arg_key><arg_value>" ++ appendGlmArgValueText call.arguments ++
          bytes "</arg_value>") ++
      bytes "</tool_call>"

/-- `append_glm_tool_calls_text`. -/
def appendGlmToolCallsText (calls : List ToolCall) (rawToolText : Option (List UInt8))
    (orders : List ToolSchemaOrder) : List UInt8 :=
  if calls = [] then []
  else
    match rawToolText with
    | some (c :: text) => c :: text
    | _ => 0x0a :: calls.flatMap (appendGlmToolCall orders) ++ [0x0a]

end Spark.Server
