import Miningcore.Foundation.HexDigits
import Miningcore.Foundation.JsonDocument

/-!
# Reading JSON tokens off bytes

The strict reader of the standard library: no comments, no trailing commas, at
most 64 containers inside one another. A string token is the bytes between its
quotes; they are unescaped only when its text is asked for.

## Implementation notes

A reader that meets an error throws, whatever it has reported before, and its
caller drops all of it. So the tokens of a text are there together or not at
all. The text of a string is the list of its UTF-16 units.
-/

namespace Miningcore

open Foundation

abbrev Utf16 := List UInt16

/-- The bytes of an ASCII text. -/
def ascii (text : String) : List UInt8 := text.toList.map fun c => c.toNat.toUInt8

/-- The units of an ASCII text. -/
def utf16 (text : String) : Utf16 := text.toList.map fun c => c.toNat.toUInt16

inductive JsonScalar where
  | string (value : List UInt8)
  | number (value : List UInt8)
  | boolean (value : Bool)
  | null
deriving DecidableEq

abbrev JsonText := JsonDocument (List UInt8) JsonScalar

abbrev Utf8JsonToken := JsonToken (List UInt8) JsonScalar

namespace Utf8JsonReader

def maxDepth : Nat := 64

def isDigit (b : UInt8) : Bool := 48 ≤ b && b ≤ 57

def isWhitespace (b : UInt8) : Bool := b == 32 || b == 9 || b == 10 || b == 13

section numbers

def isExponent : List UInt8 → Bool
  | [] => true
  | e :: rest =>
      let digits := match rest with
        | sign :: digits => if sign == 43 || sign == 45 then digits else rest
        | [] => []
      (e == 101 || e == 69) && !digits.isEmpty && digits.all isDigit

def isFraction : List UInt8 → Bool
  | 46 :: rest => !(rest.takeWhile isDigit).isEmpty && isExponent (rest.dropWhile isDigit)
  | rest => isExponent rest

def unsigned : List UInt8 → List UInt8
  | 45 :: rest => rest
  | bytes => bytes

def isNumber (bytes : List UInt8) : Bool :=
  let integer := (unsigned bytes).takeWhile isDigit
  (integer == [48] || (!integer.isEmpty && integer.head? != some 48)) &&
    isFraction ((unsigned bytes).dropWhile isDigit)

def digitsValue (digits : List UInt8) : Nat :=
  digits.foldl (fun value b => 10 * value + (b.toNat - 48)) 0

/-- A number with a fraction or an exponent is no integer, and neither is one out of range. -/
def tryGetInt64 (bytes : List UInt8) : Option Int :=
  let digits := unsigned bytes
  let value : Int :=
    if bytes.head? = some 45 then -(digitsValue digits : Int) else digitsValue digits
  if digits.all isDigit ∧ -2 ^ 63 ≤ value ∧ value < 2 ^ 63 then some value else none

end numbers

section lexemes

/-- A literal or a number. -/
def word (bytes : List UInt8) : Option JsonScalar :=
  if bytes = ascii "true" then some (.boolean true)
  else if bytes = ascii "false" then some (.boolean false)
  else if bytes = ascii "null" then some .null
  else if isNumber bytes then some (.number bytes)
  else none

def punctuation : UInt8 → Option (JsonLexeme JsonScalar)
  | 123 => some .openBrace
  | 125 => some .closeBrace
  | 91 => some .openBracket
  | 93 => some .closeBracket
  | 58 => some .colon
  | 44 => some .comma
  | _ => none

def isEscape (b : UInt8) : Bool := (ascii "\"\\/bfnrt").contains b

def hexDigit (b : UInt8) : Option Nat := hexDigit? (Char.ofNat b.toNat)

/-- Where in the text the lexer is, with the bytes of the lexeme it has begun. -/
inductive Position where
  | between
  | word (bytes : List UInt8)
  | string (bytes : List UInt8)
  | escape (bytes : List UInt8)
  | unicode (bytes : List UInt8) (left : Nat)

/-- The lexeme of a byte outside of words and strings, and what it begins. -/
def begins (b : UInt8) : List (JsonLexeme JsonScalar) × Position :=
  if isWhitespace b then ([], .between)
  else if b = 34 then ([], .string [])
  else match punctuation b with
    | some lexeme => ([lexeme], .between)
    | none => ([], .word [b])

def next : Position → UInt8 → Option (List (JsonLexeme JsonScalar) × Position)
  | .between, b => some (begins b)
  | .word bytes, b =>
      match begins b with
      | (_, .word _) => some ([], .word (bytes ++ [b]))
      | (lexemes, position) => (word bytes).map fun s => (.scalar s :: lexemes, position)
  | .string bytes, b =>
      if b = 34 then some ([.scalar (.string bytes)], .between)
      else if b = 92 then some ([], .escape (bytes ++ [b]))
      else if b < 32 then none
      else some ([], .string (bytes ++ [b]))
  | .escape bytes, b =>
      if isEscape b then some ([], .string (bytes ++ [b]))
      else if b = 117 then some ([], .unicode (bytes ++ [b]) 4)
      else none
  | .unicode bytes left, b =>
      if (hexDigit b).isNone then none
      else if left = 1 then some ([], .string (bytes ++ [b]))
      else some ([], .unicode (bytes ++ [b]) (left - 1))

def lexemes (position : Position) : List UInt8 → Option (List (JsonLexeme JsonScalar))
  | [] =>
      match position with
      | .between => some []
      | .word bytes => (word bytes).map fun s => [.scalar s]
      | _ => none
  | b :: rest => do
      let (read, position) ← next position b
      let following ← lexemes position rest
      return read ++ following

def propertyName : JsonScalar → Option (List UInt8)
  | .string value => some value
  | _ => none

/-- The tokens that the reader reports, unless it throws. -/
def tokens (utf8Json : List UInt8) : Option (List Utf8JsonToken) := do
  let read ← lexemes .between utf8Json
  JsonReader.read propertyName maxDepth .value [] read

/-- What the reader reports are the tokens of a JSON text. -/
theorem exists_text_of_tokens {utf8Json : List UInt8} {read : List Utf8JsonToken}
    (h : tokens utf8Json = some read) : ∃ text : JsonText, text.tokens = read := by
  obtain ⟨lexemes, -, hread⟩ := Option.bind_eq_some_iff.mp h
  exact exists_document_of_read hread

end lexemes

section strings

def hex4 (a b c d : UInt8) : Option Nat := do
  let a ← hexDigit a
  let b ← hexDigit b
  let c ← hexDigit c
  let d ← hexDigit d
  return ((a * 16 + b) * 16 + c) * 16 + d

def isHighSurrogate (unit : Nat) : Bool := 0xD800 ≤ unit && unit < 0xDC00

def isLowSurrogate (unit : Nat) : Bool := 0xDC00 ≤ unit && unit < 0xE000

def continuation (b : UInt8) : Option Nat :=
  if 128 ≤ b ∧ b < 192 then some (b.toNat - 128) else none

def units (code : Nat) : Utf16 :=
  if code < 0x10000 then [code.toUInt16]
  else [(0xD800 + (code - 0x10000) / 0x400).toUInt16, (0xDC00 + (code - 0x10000) % 0x400).toUInt16]

def escaped : UInt8 → Option UInt16
  | 34 => some 34
  | 92 => some 92
  | 47 => some 47
  | 98 => some 8
  | 102 => some 12
  | 110 => some 10
  | 114 => some 13
  | 116 => some 9
  | _ => none

/-- The units that the first bytes stand for, and how many bytes these are. -/
def decodeFirst : List UInt8 → Option (Utf16 × Nat)
  | 92 :: 117 :: a :: b :: c :: d :: rest => do
      let unit ← hex4 a b c d
      if isHighSurrogate unit then
        match rest with
        | 92 :: 117 :: a :: b :: c :: d :: _ => do
            let low ← hex4 a b c d
            if isLowSurrogate low then some ([unit.toUInt16, low.toUInt16], 12) else none
        | _ => none
      else if isLowSurrogate unit then none
      else some ([unit.toUInt16], 6)
  | 92 :: b :: _ => (escaped b).map fun unit => ([unit], 2)
  | a :: rest =>
      if a < 128 then some (units a.toNat, 1)
      else if 192 ≤ a ∧ a < 224 then
        match rest with
        | b :: _ => do
            let code := (a.toNat - 192) * 64 + (← continuation b)
            if 0x80 ≤ code then some (units code, 2) else none
        | _ => none
      else if 224 ≤ a ∧ a < 240 then
        match rest with
        | b :: c :: _ => do
            let code := ((a.toNat - 224) * 64 + (← continuation b)) * 64 + (← continuation c)
            if 0x800 ≤ code ∧ !isHighSurrogate code ∧ !isLowSurrogate code then
              some (units code, 3)
            else none
        | _ => none
      else if 240 ≤ a ∧ a < 248 then
        match rest with
        | b :: c :: d :: _ => do
            let code := (((a.toNat - 240) * 64 + (← continuation b)) * 64 +
              (← continuation c)) * 64 + (← continuation d)
            if 0x10000 ≤ code ∧ code < 0x110000 then some (units code, 4) else none
        | _ => none
      else none
  | [] => none

def decode : Nat → List UInt8 → Option Utf16
  | _, [] => some []
  | 0, _ :: _ => none
  | fuel + 1, bytes => do
      let (first, length) ← decodeFirst bytes
      let rest ← decode fuel (bytes.drop length)
      return first ++ rest

/-- The text of a string. A lone surrogate or a byte that is not UTF-8 throws. -/
def getString (value : List UInt8) : Option Utf16 := decode value.length value

end strings

end Utf8JsonReader

end Miningcore

/-!
## Requests of the JSON-RPC protocol

A request comes either from the deserializer of the Newtonsoft library, which
fills the properties member by member, or from the fast parser, which keeps the
parameters as a slice of the line.

## Implementation notes

What the library makes of a text is a parameter. A slice of a line is given by
the tokens that the strict reader reports for it.
-/

namespace Miningcore

open Foundation

/-- A value of type `object`; those that only the library makes are `other`. -/
inductive Obj (δ ο : Type) where
  | null
  | boolean (value : Bool)
  | int64 (value : Int)
  | double (value : δ)
  | string (value : Utf16)
  | sequence (json : List Utf8JsonToken)
  | other (value : ο)
deriving DecidableEq

structure JsonRpcRequest (δ ο : Type) where
  method : Option Utf16 := none
  params : Obj δ ο := .null
  id : Obj δ ο := .null
  extra : Option (List (Utf16 × Obj δ ο)) := none
deriving DecidableEq

inductive JsonRpcProperty where
  | jsonRpc
  | method
  | params
  | id
deriving DecidableEq

/-- What the Newtonsoft library reads. -/
structure Newtonsoft (δ ο : Type) where
  /-- The members of the object a line holds, those it takes for metadata left out. -/
  members : List UInt8 → Option (List (Utf16 × JsonText))
  /-- The value of a property of type `string`, which may be null. -/
  string : List Utf8JsonToken → Option (Option Utf16)
  /-- The value of a property of type `object`. -/
  object : List Utf8JsonToken → Option (Obj δ ο)
  stringArray : List Utf8JsonToken → Option (List (Option Utf16))
  toStringArray : Obj δ ο → Option (List (Option Utf16))
  /-- Whether what is read for a property without a setter becomes extension data. -/
  keepsReadOnly : Bool

namespace JsonRpcRequest

variable {δ ο : Type} (newtonsoft : Newtonsoft δ ο)

/-- ASCII letters without their case. -/
def ignoringCase (name : Utf16) : Utf16 :=
  name.map fun unit => if 65 ≤ unit ∧ unit ≤ 90 then unit + 32 else unit

/-- The property whose name a member has, up to case. -/
def closestMatch (name : Utf16) : Option JsonRpcProperty :=
  if ignoringCase name = utf16 "jsonrpc" then some .jsonRpc
  else if ignoringCase name = utf16 "method" then some .method
  else if ignoringCase name = utf16 "params" then some .params
  else if ignoringCase name = utf16 "id" then some .id
  else none

/-- The indexer of the extension data. -/
def setExtra (request : JsonRpcRequest δ ο) (name : Utf16) (value : Obj δ ο) :
    JsonRpcRequest δ ο :=
  { request with
    extra :=
      some ((request.extra.getD []).filter (fun entry => entry.1 ≠ name) ++ [(name, value)]) }

def stringObject : Option Utf16 → Obj δ ο
  | none => .null
  | some value => .string value

/-- The property a member sets. A null for the method is ignored. -/
def setProperty (request : JsonRpcRequest δ ο) (member : Utf16 × JsonText) :
    Option (JsonRpcRequest δ ο) :=
  match closestMatch member.1 with
  | some .method => do
      match ← newtonsoft.string member.2.tokens with
      | none => return request
      | some method => return { request with method := some method }
  | some .params => do
      let params ← newtonsoft.object member.2.tokens
      return { request with params }
  | some .id => do
      let id ← newtonsoft.object member.2.tokens
      return { request with id }
  | some .jsonRpc => do
      let value ← newtonsoft.string member.2.tokens
      return if newtonsoft.keepsReadOnly then request.setExtra member.1 (stringObject value)
        else request
  | none => do
      let value ← newtonsoft.object member.2.tokens
      return request.setExtra member.1 value

/-- `JsonConvert.DeserializeObject<JsonRpcRequest>`. -/
def deserialize (line : List UInt8) : Option (JsonRpcRequest δ ο) := do
  let members ← newtonsoft.members line
  members.foldlM (setProperty newtonsoft) {}

/-- The elements that the fast conversion adds up to the end of the array. -/
def fastElements : List Utf8JsonToken → Option (List (Option Utf16))
  | [] | .endArray :: _ => some []
  | .scalar (.string value) :: rest => do
      let text ← Utf8JsonReader.getString value
      let texts ← fastElements rest
      return some text :: texts
  | .scalar (.number value) :: rest => do
      let texts ← fastElements rest
      return some (value.map UInt8.toUInt16) :: texts
  | .scalar .null :: rest => do
      let texts ← fastElements rest
      return none :: texts
  | _ :: rest => fastElements rest

def fastDeserializeParams : List Utf8JsonToken → Option (List (Option Utf16))
  | .startArray :: rest => fastElements rest
  | _ => some []

/-- `ParamsAs<string[]>`; the parameters may be null and the conversion may throw. -/
def paramsAsStrings (request : JsonRpcRequest δ ο) : Option (Option (List (Option Utf16))) :=
  match request.params with
  | .null => some none
  | .sequence json =>
      ((fastDeserializeParams json).orElse fun _ => newtonsoft.stringArray json).map some
  | params => (newtonsoft.toStringArray params).map some

end JsonRpcRequest

end Miningcore
