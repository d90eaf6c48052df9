import YoloServer.Common.JsonRoundTrip
import YoloServer.Json.Lexer

/-!
# `json::parse` (`nlohmann::detail::parser` and `json_sax_dom_parser`)

The parser is one loop with a stack (`sax_parse_internal`).  In the state `read` a token was
read that should start a value; `evaluate` is the part of the loop after the `switch`, with
the value that has just been completed.

The source keeps the hierarchy in the vector `states` and, in the builder of the tree,
in `ref_stack`, and writes each value into the tree where `object_element` points to.  Here
a container that is still open is a `Frame`, and its contents enter the container below when it is
closed.  `object_element` always points to the member of the last key of the innermost
object, which is the key in its frame.
-/

namespace YoloServer
namespace Json

variable {D : Type}

/-! ## Members of an object -/

/-- `object[key] = value`, for a `std::map`: the members stay in the order of their keys, and an
earlier value of the same key is overwritten. -/
def setMember (key : String) (value : Json D) : List (String × Json D) → List (String × Json D)
  | [] => [(key, value)]
  | (k, v) :: rest =>
      if key < k then (key, value) :: (k, v) :: rest
      else if key = k then (key, value) :: rest
      else (k, v) :: setMember key value rest

/-- An array or an object that is still being read. -/
inductive Frame (D : Type) where
  | array (items : List (Json D))
  | object (members : List (String × Json D)) (key : String)

/-- The container with one more value (`handle_value`). -/
def Frame.handleValue (frame : Frame D) (value : Json D) : Json D :=
  match frame with
  | .array items => .array (items ++ [value])
  | .object members key => .object (setMember key value members)

/-! ## The loop -/

/-- Where the loop of `sax_parse_internal` stands: the lexer is at `rest`. -/
inductive State (D : Type) where
  | read (lastToken : Token D) (rest : List UInt8) (stack : List (Frame D))
  | evaluate (value : Json D) (rest : List UInt8) (stack : List (Frame D))

variable [Strtod D] [IsFinite D]

/-- `get_token()`, and then a value is expected. -/
def readNext (text : List UInt8) (stack : List (Frame D)) : State D :=
  .read (scan (D := D) text).1 (scan (D := D) text).2 stack

/-- `get_token()`, and then a key and its separator are expected; `D` is the type of the tokens. -/
def readKey (D : Type) [Strtod D] (text : List UInt8) : Option (String × List UInt8) :=
  match scan (D := D) text with
  | (.valueString key, rest) =>
      match scan (D := D) rest with
      | (.nameSeparator, rest) => some (key, rest)
      | _ => none
  | _ => none

/-- The `switch` on the last token. -/
def readValue (token : Token D) (text : List UInt8) (stack : List (Frame D)) :
    State D ⊕ Option (Json D × List UInt8) :=
  match token with
  | .beginObject =>
      match scan (D := D) text with
      | (.endObject, rest) => .inl (.evaluate (.object []) rest stack)
      | _ =>
          match readKey D text with
          | some (key, rest) => .inl (readNext rest (.object [] key :: stack))
          | none => .inr none
  | .beginArray =>
      match scan (D := D) text with
      | (.endArray, rest) => .inl (.evaluate (.array []) rest stack)
      | _ => .inl (readNext text (.array [] :: stack))
  | .valueFloat d =>
      if IsFinite.isFinite d then .inl (.evaluate (.float d) text stack) else .inr none
  | .literalFalse => .inl (.evaluate (.boolean false) text stack)
  | .literalNull => .inl (.evaluate .null text stack)
  | .literalTrue => .inl (.evaluate (.boolean true) text stack)
  | .valueInteger n => .inl (.evaluate (.integer n) text stack)
  | .valueString s => .inl (.evaluate (.string s) text stack)
  | .valueUnsigned n => .inl (.evaluate (.unsigned n) text stack)
  | .parseError | .endOfInput | .endArray | .endObject | .nameSeparator | .valueSeparator =>
      .inr none

/-- The part of the loop that is reached after a value. -/
def evaluateState (value : Json D) (text : List UInt8) :
    List (Frame D) → State D ⊕ Option (Json D × List UInt8)
  | [] => .inr (some (value, text))
  | .array items :: stack =>
      match scan (D := D) text with
      | (.valueSeparator, rest) => .inl (readNext rest (.array (items ++ [value]) :: stack))
      | (.endArray, rest) =>
          .inl (.evaluate (Frame.handleValue (.array items) value) rest stack)
      | _ => .inr none
  | .object members key :: stack =>
      match scan (D := D) text with
      | (.valueSeparator, rest) =>
          match readKey D rest with
          | some (next, rest) =>
              .inl (readNext rest (.object (setMember key value members) next :: stack))
          | none => .inr none
      | (.endObject, rest) =>
          .inl (.evaluate (Frame.handleValue (.object members key) value) rest stack)
      | _ => .inr none

/-- One iteration. -/
def parseStep : State D → State D ⊕ Option (Json D × List UInt8)
  | .read token rest stack => readValue token rest stack
  | .evaluate value rest stack => evaluateState value rest stack

/-- Each token that the parser asks for takes at least one byte of the text, but an error and the
end of the input; and there the loop is left. -/
def State.size : State D → Nat
  | .read .endOfInput _ _ => 0
  | .read .parseError _ _ => 0
  | .read _ rest _ => 2 * rest.length + 1
  | .evaluate _ rest _ => 2 * rest.length

/-- The loop, from any state. -/
def parseLoop (state : State D) : Option (Json D × List UInt8) :=
  Lib.loop parseStep State.size state

/-- `sax_parse_internal`: the value, and the text after it. -/
def saxParse (text : List UInt8) : Option (Json D × List UInt8) :=
  parseLoop (readNext text [])

/-- `json::parse`: one value, and nothing but white space after it. -/
def parse (text : List UInt8) : Option (Json D) :=
  match skipBom text with
  | none => none
  | some text =>
      match saxParse (D := D) text with
      | none => none
      | some (value, rest) =>
          match (scan (D := D) rest).1 with
          | .endOfInput => some value
          | _ => none

end Json
end YoloServer
