import YoloServer.Common.Json
import YoloServer.Lib.Loop

/-!
# The lexer of `json::parse` (`nlohmann::detail::lexer`)

The lexer works on what is left of the text: a function of the source that reads bytes
takes the remaining text and returns what remains after it.  The end of the input is the
empty text, and ungetting a byte is returning the text with this byte in front.

* `scanString` reads a string literal after its opening quote: the escapes, among them
  surrogate pairs, and the bytes of characters beyond ASCII, which must be well formed.
* `scanNumber` is the automaton for numbers; an integer that does not fit falls back to
  a floating-point number.
* `scan` skips the white space and reads one token.

The texts of the errors only reach the log and are left out.  Comments are not ignored
(`ignore_comments` is false in every call), and the locale is the one a program starts with,
so the decimal point is a dot.
-/

namespace YoloServer
namespace Json

/-! ## Tokens -/

/-- `token_type`, with the value that the lexer has read. -/
inductive Token (D : Type) where
  | literalTrue
  | literalFalse
  | literalNull
  | valueString (s : String)
  | valueUnsigned (n : Nat)
  | valueInteger (n : Int)
  | valueFloat (d : D)
  | beginArray
  | beginObject
  | endArray
  | endObject
  | nameSeparator
  | valueSeparator
  | parseError
  | endOfInput

/-- The string with these bytes. -/
def ofUtf8 (bytes : List UInt8) : Option String :=
  String.fromUTF8? ⟨bytes.toArray⟩

/-! ## Strings -/

/-- The value of a hexadecimal digit, in either case. -/
def hexValue (b : UInt8) : Option Nat :=
  if 48 ≤ b ∧ b ≤ 57 then some (b.toNat - 0x30)
  else if 65 ≤ b ∧ b ≤ 70 then some (b.toNat - 0x37)
  else if 97 ≤ b ∧ b ≤ 102 then some (b.toNat - 0x57)
  else none

/-- The loop of `get_codepoint` over the factors of the digits. -/
def codepointLoop : List Nat → Nat → List UInt8 → Option (Nat × List UInt8)
  | [], codepoint, text => some (codepoint, text)
  | _ :: _, _, [] => none
  | factor :: factors, codepoint, b :: text =>
      match hexValue b with
      | some digit => codepointLoop factors (codepoint + digit * 2 ^ factor) text
      | none => none

/-- `get_codepoint`: the four digits after `\u`. -/
def getCodepoint (text : List UInt8) : Option (Nat × List UInt8) :=
  codepointLoop [12, 8, 4, 0] 0 text

/-- `next_byte_in_range`: one byte for each range, and what is left. -/
def nextByteInRange : List (UInt8 × UInt8) → List UInt8 → Option (List UInt8 × List UInt8)
  | [], text => some ([], text)
  | _ :: _, [] => none
  | (low, high) :: ranges, b :: text =>
      if low ≤ b ∧ b ≤ high then
        match nextByteInRange ranges text with
        | some (bytes, rest) => some (b :: bytes, rest)
        | none => none
      else none

/-- The ranges of the bytes that must follow the first byte of a character. -/
def following (lead : UInt8) : Option (List (UInt8 × UInt8)) :=
  if lead ≤ 0x7F then some []
  else if 0xC2 ≤ lead ∧ lead ≤ 0xDF then some [(0x80, 0xBF)]
  else if lead = 0xE0 then some [(0xA0, 0xBF), (0x80, 0xBF)]
  else if 0xE1 ≤ lead ∧ lead ≤ 0xEC then some [(0x80, 0xBF), (0x80, 0xBF)]
  else if lead = 0xED then some [(0x80, 0x9F), (0x80, 0xBF)]
  else if 0xEE ≤ lead ∧ lead ≤ 0xEF then some [(0x80, 0xBF), (0x80, 0xBF)]
  else if lead = 0xF0 then some [(0x90, 0xBF), (0x80, 0xBF), (0x80, 0xBF)]
  else if 0xF1 ≤ lead ∧ lead ≤ 0xF3 then some [(0x80, 0xBF), (0x80, 0xBF), (0x80, 0xBF)]
  else if lead = 0xF4 then some [(0x80, 0x8F), (0x80, 0xBF), (0x80, 0xBF)]
  else none

/-- The bytes of a code point, as `scan_string` writes them. -/
def codepointBytes (codepoint : Nat) : List UInt8 :=
  if codepoint < 0x80 then
    [UInt8.ofNat codepoint]
  else if codepoint ≤ 0x7FF then
    [UInt8.ofNat (0xC0 ||| (codepoint >>> 6)), UInt8.ofNat (0x80 ||| (codepoint &&& 0x3F))]
  else if codepoint ≤ 0xFFFF then
    [UInt8.ofNat (0xE0 ||| (codepoint >>> 12)),
      UInt8.ofNat (0x80 ||| ((codepoint >>> 6) &&& 0x3F)),
      UInt8.ofNat (0x80 ||| (codepoint &&& 0x3F))]
  else
    [UInt8.ofNat (0xF0 ||| (codepoint >>> 18)),
      UInt8.ofNat (0x80 ||| ((codepoint >>> 12) &&& 0x3F)),
      UInt8.ofNat (0x80 ||| ((codepoint >>> 6) &&& 0x3F)),
      UInt8.ofNat (0x80 ||| (codepoint &&& 0x3F))]

/-- What `\u` stands for.  A high surrogate must be followed by a low one. -/
def scanUnicode (text : List UInt8) : Option (List UInt8 × List UInt8) :=
  match getCodepoint text with
  | none => none
  | some (codepoint₁, rest) =>
      if 0xD800 ≤ codepoint₁ ∧ codepoint₁ ≤ 0xDBFF then
        match rest with
        | 92 :: 117 :: rest =>
            match getCodepoint rest with
            | none => none
            | some (codepoint₂, rest) =>
                if 0xDC00 ≤ codepoint₂ ∧ codepoint₂ ≤ 0xDFFF then
                  some (codepointBytes (codepoint₁ * 2 ^ 10 + codepoint₂ - 0x35FDC00), rest)
                else none
        | _ => none
      else if 0xDC00 ≤ codepoint₁ ∧ codepoint₁ ≤ 0xDFFF then none
      else some (codepointBytes codepoint₁, rest)

/-- The escapes of one character, by the byte after the backslash. -/
def shortEscape (b : UInt8) : Option UInt8 :=
  if b = 34 then some 34          -- quotation mark
  else if b = 92 then some 92     -- reverse solidus
  else if b = 47 then some 47     -- solidus
  else if b = 98 then some 8      -- backspace
  else if b = 102 then some 12    -- form feed
  else if b = 110 then some 10    -- line feed
  else if b = 114 then some 13    -- carriage return
  else if b = 116 then some 9     -- tab
  else none

/-- What a backslash stands for. -/
def scanEscape : List UInt8 → Option (List UInt8 × List UInt8)
  | [] => none
  | b :: text =>
      if b = 117 then scanUnicode text
      else
        match shortEscape b with
        | some c => some ([c], text)
        | none => none

/-- One iteration of the loop of `scan_string`, on the remaining text and `token_buffer`. -/
def stringStep :
    List UInt8 × List UInt8 → (List UInt8 × List UInt8) ⊕ Option (List UInt8 × List UInt8)
  | ([], _) => .inr none
  | (c :: text, buffer) =>
      if c = 34 then .inr (some (buffer, text))
      else if c = 92 then
        match scanEscape text with
        | some (bytes, rest) => .inl (rest, buffer ++ bytes)
        | none => .inr none
      else if c < 0x20 then .inr none
      else
        match following c with
        | none => .inr none
        | some ranges =>
            match nextByteInRange ranges text with
            | some (bytes, rest) => .inl (rest, buffer ++ c :: bytes)
            | none => .inr none

/-- `scan_string`: the contents of `token_buffer` at the closing quote. -/
def scanString (text : List UInt8) : Option (List UInt8 × List UInt8) :=
  Lib.loop stringStep (fun state => state.1.length) (text, [])

/-! ## Numbers -/

/-- The labels of `scan_number`, each after the byte that leads to it. -/
inductive NumberState where
  | minus
  | zero
  | any1
  | decimal1
  | decimal2
  | exponent
  | sign
  | any2
  deriving DecidableEq, Repr

/-- `number_type`. -/
inductive NumberType where
  | unsigned
  | integer
  | float
  deriving DecidableEq, Repr

def isDigit (b : UInt8) : Bool :=
  48 ≤ b ∧ b ≤ 57

/-- Where the next byte leads; `none` is the `default` branch. -/
def NumberState.next (state : NumberState) (b : UInt8) : Option NumberState :=
  match state with
  | .minus => if b = 48 then some .zero else if isDigit b then some .any1 else none
  | .zero => if b = 46 then some .decimal1 else if b = 101 ∨ b = 69 then some .exponent else none
  | .any1 =>
      if isDigit b then some .any1
      else if b = 46 then some .decimal1
      else if b = 101 ∨ b = 69 then some .exponent
      else none
  | .decimal1 => if isDigit b then some .decimal2 else none
  | .decimal2 =>
      if isDigit b then some .decimal2 else if b = 101 ∨ b = 69 then some .exponent else none
  | .exponent =>
      if b = 43 ∨ b = 45 then some .sign else if isDigit b then some .any2 else none
  | .sign => if isDigit b then some .any2 else none
  | .any2 => if isDigit b then some .any2 else none

/-- The states whose `default` branch ends the number; in the others it is an error. -/
def NumberState.isDone : NumberState → Bool
  | .zero | .any1 | .decimal2 | .any2 => true
  | .minus | .decimal1 | .exponent | .sign => false

/-- The type of the number when a state is entered. -/
def NumberState.numberType (state : NumberState) (type : NumberType) : NumberType :=
  match state with
  | .minus => .integer
  | .decimal1 | .exponent => .float
  | _ => type

/-- The automaton, from the state that was just entered: the type of the number, its
bytes after this state and what is left of the text. -/
def numberLoop (state : NumberState) (type : NumberType) :
    List UInt8 → Option (NumberType × List UInt8 × List UInt8)
  | [] => if state.isDone then some (type, [], []) else none
  | b :: text =>
      match state.next b with
      | some state' =>
          match numberLoop state' (state'.numberType type) text with
          | some (type, bytes, rest) => some (type, b :: bytes, rest)
          | none => none
      | none => if state.isDone then some (type, [], b :: text) else none

/-- The state after the first byte of a number. -/
def firstState (b : UInt8) : NumberState :=
  if b = 45 then .minus else if b = 48 then .zero else .any1

/-- The number that a sequence of digits stands for. -/
def digitsValue (digits : List UInt8) : Nat :=
  digits.foldl (fun value b => 10 * value + (b.toNat - 48)) 0

/-- `std::strtod`. -/
class Strtod (D : Type) where
  strtod : List UInt8 → D

/-- The conversions at the label `scan_number_done`.  `strtoull` and `strtoll` set `errno`
for a number out of their range, and the number is then read as a `double`. -/
def convert {D : Type} [Strtod D] : NumberType → List UInt8 → Token D
  | .unsigned, buffer =>
      if digitsValue buffer < 2 ^ 64 then .valueUnsigned (digitsValue buffer)
      else .valueFloat (Strtod.strtod buffer)
  | .integer, buffer =>
      if digitsValue buffer.tail ≤ 2 ^ 63 then .valueInteger (-(digitsValue buffer.tail : Int))
      else .valueFloat (Strtod.strtod buffer)
  | .float, buffer => .valueFloat (Strtod.strtod buffer)

variable {D : Type}

/-- `scan_number`, with the first byte of the number. -/
def scanNumber [Strtod D] (b : UInt8) (text : List UInt8) : Token D × List UInt8 :=
  match numberLoop (firstState b) ((firstState b).numberType .unsigned) text with
  | some (type, bytes, rest) => (convert type (b :: bytes), rest)
  | none => (.parseError, [])

/-! ## One token -/

/-- `scan_literal`, after its first byte. -/
def scanLiteral : List UInt8 → List UInt8 → Token D → Token D × List UInt8
  | [], text, token => (token, text)
  | _ :: _, [], _ => (.parseError, [])
  | c :: literal, b :: text, token =>
      if b = c then scanLiteral literal text token else (.parseError, text)

/-- The white space of `skip_whitespace`. -/
def isWhitespace (b : UInt8) : Bool :=
  b = 32 ∨ b = 9 ∨ b = 10 ∨ b = 13

/-- The structural characters. -/
def structural (c : UInt8) : Option (Token D) :=
  if c = 91 then some .beginArray             -- [
  else if c = 93 then some .endArray          -- ]
  else if c = 123 then some .beginObject      -- opening brace
  else if c = 125 then some .endObject        -- closing brace
  else if c = 58 then some .nameSeparator     -- :
  else if c = 44 then some .valueSeparator    -- ,
  else none

/-- The literals, by their first byte: the rest of the literal, and its token. -/
def literal (c : UInt8) : Option (List UInt8 × Token D) :=
  if c = 116 then some (utf8 "rue", .literalTrue)
  else if c = 102 then some (utf8 "alse", .literalFalse)
  else if c = 110 then some (utf8 "ull", .literalNull)
  else none

/-- A string, after its opening quote. -/
def scanQuoted (text : List UInt8) : Token D × List UInt8 :=
  match scanString text with
  | some (buffer, rest) =>
      match ofUtf8 buffer with
      | some s => (.valueString s, rest)
      | none => (.parseError, rest)
  | none => (.parseError, [])

/-- The switch of `scan` on the first byte that is not white space. -/
def scanFrom [Strtod D] (c : UInt8) (text : List UInt8) : Token D × List UInt8 :=
  match structural (D := D) c with
  | some token => (token, text)
  | none =>
      match literal (D := D) c with
      | some (word, token) => scanLiteral word text token
      | none =>
          if c = 34 then scanQuoted text
          else if c = 45 ∨ isDigit c then scanNumber c text
          else if c = 0 then (.endOfInput, text)
          else (.parseError, text)

/-- `scan`, without the byte order mark: the next token and what is left of the text. -/
def scan [Strtod D] (text : List UInt8) : Token D × List UInt8 :=
  match text.dropWhile isWhitespace with
  | [] => (.endOfInput, [])
  | c :: rest => scanFrom c rest

/-- `skip_bom`: `none` if the text starts with a part of the mark only. -/
def skipBom : List UInt8 → Option (List UInt8)
  | 0xEF :: text =>
      match text with
      | 0xBB :: 0xBF :: rest => some rest
      | _ => none
  | text => some text

end Json
end YoloServer
