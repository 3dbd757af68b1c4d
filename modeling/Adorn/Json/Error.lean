import Adorn.Decimal.Layout
import Adorn.Json.Value
import Adorn.Text.Quoted

/-!
# Causes of failure

Every way in which a document can fail to be read, as a cause. The
first group is about the text, the second about the type that the text
should describe. `Error.category` tells a text that ended too early
from one that is wrong where it stands, and both from a value of the
wrong shape; `Error.message` is the wording.
-/

namespace Adorn.Json

/-- What a reader was looking for when it met a value of another form. -/
inductive Expected where
  | string
  | boolean
  | sequence
  | record (name : String)
  | tagged (type : String)
  | variant

/-- What a positional list of fields belongs to. -/
inductive Title where
  | record (name : String)
  | variant (type name : String)

inductive Error where
  /-- The text ends where a value should stand. -/
  | endOfValue
  | endOfList
  | endOfObject
  | endOfString
  | valueExpected
  | wordExpected
  | listSeparatorExpected
  | objectSeparatorExpected
  | colonExpected
  | keyExpected
  | trailingComma
  | trailingCharacters
  | controlCharacter
  | invalidEscape
  /-- Half of a surrogate pair, followed by an escape that is not the other half. -/
  | loneSurrogate
  /-- Half of a surrogate pair, followed by no escape at all. -/
  | cutSurrogate
  | invalidNumber
  | numberOutOfRange
  | nestedTooDeep
  | wrongType (found : Form) (expected : Expected)
  | unknownVariant (name : String) (known : List String)
  | unknownIndex (index known : Nat)
  | missingField (key : String)
  | repeatedField (key : String)
  | tooShort (length : Nat) (title : Title) (fields : Nat)
  | tooLong (length fields : Nat)

/-- `eof` for a text that ends too early, `syntactic` for one that is no JSON, `data` for JSON of the
wrong shape. -/
inductive Category where
  | eof
  | syntactic
  | data
  deriving DecidableEq

def Error.category : Error → Category
  | .endOfValue | .endOfList | .endOfObject | .endOfString => .eof
  | .valueExpected | .wordExpected | .listSeparatorExpected | .objectSeparatorExpected
  | .colonExpected | .keyExpected | .trailingComma | .trailingCharacters | .controlCharacter
  | .invalidEscape | .loneSurrogate | .cutSurrogate | .invalidNumber | .numberOutOfRange
  | .nestedTooDeep => .syntactic
  | .wrongType .. | .unknownVariant .. | .unknownIndex .. | .missingField _ | .repeatedField _
  | .tooShort .. | .tooLong .. => .data

/-! ## Wording -/

/-- Doubles are positional while their leading digit stands between `10 ^ -5` and `10 ^ 15`; an
exponent always carries its sign. -/
def floatLayout : Decimal.Layout :=
  { least := -5, greatest := 15, plus := "+" }

def backquoted (s : String) : String :=
  "`" ++ s ++ "`"

def Form.text : Form → String
  | .scalar .null => "null"
  | .scalar (.boolean b) => "boolean " ++ backquoted (if b then "true" else "false")
  | .scalar (.number (.integer n)) => "integer " ++ backquoted (toString n)
  | .scalar (.number (.float x)) => "floating point " ++ backquoted (floatLayout.text x)
  | .scalar (.string s) => "string " ++ Text.quoted s
  | .sequence => "sequence"
  | .map => "map"

def Expected.text : Expected → String
  | .string => "a string"
  | .boolean => "a boolean"
  | .sequence => "a sequence"
  | .record name => "struct " ++ name
  | .tagged type => "internally tagged enum " ++ type
  | .variant => "variant identifier"

def Title.text : Title → String
  | .record name => "struct " ++ name
  | .variant type name => "struct variant " ++ type ++ "::" ++ name

/-- A number of elements, in words. -/
def elementCount (n : Nat) : String :=
  toString n ++ (if n = 1 then " element" else " elements")

def Error.message : Error → String
  | .endOfValue => "EOF while parsing a value"
  | .endOfList => "EOF while parsing a list"
  | .endOfObject => "EOF while parsing an object"
  | .endOfString => "EOF while parsing a string"
  | .valueExpected => "expected value"
  | .wordExpected => "expected ident"
  | .listSeparatorExpected => "expected `,` or `]`"
  | .objectSeparatorExpected => "expected `,` or `\x7d`"
  | .colonExpected => "expected `:`"
  | .keyExpected => "key must be a string"
  | .trailingComma => "trailing comma"
  | .trailingCharacters => "trailing characters"
  | .controlCharacter => "control character (\\u0000-\\u001F) found while parsing a string"
  | .invalidEscape => "invalid escape"
  | .loneSurrogate => "lone leading surrogate in hex escape"
  | .cutSurrogate => "unexpected end of hex escape"
  | .invalidNumber => "invalid number"
  | .numberOutOfRange => "number out of range"
  | .nestedTooDeep => "recursion limit exceeded"
  | .wrongType found expected => "invalid type: " ++ found.text ++ ", expected " ++ expected.text
  | .unknownVariant name known =>
    "unknown variant " ++ backquoted name ++ ", expected one of " ++
      ", ".intercalate (known.map backquoted)
  | .unknownIndex index known =>
    "invalid value: integer " ++ backquoted (toString index) ++
      ", expected variant index 0 <= i < " ++ toString known
  | .missingField key => "missing field " ++ backquoted key
  | .repeatedField key => "duplicate field " ++ backquoted key
  | .tooShort length title fields =>
    "invalid length " ++ toString length ++ ", expected " ++ title.text ++ " with " ++
      elementCount fields
  | .tooLong length fields =>
    "invalid length " ++ toString length ++ ", expected " ++ elementCount fields ++ " in sequence"

end Adorn.Json
