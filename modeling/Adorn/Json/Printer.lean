import Adorn.Json.Error
import Adorn.Text.Hex

/-!
# The compact text of a value

A value is written without blanks, entries in their order. In a string
only the quote, the backslash and the characters below the space are
escaped.
-/

namespace Adorn.Json

def escapedChar (c : Char) : List Char :=
  if c = '"' then ['\\', '"']
  else if c = '\\' then ['\\', '\\']
  else if c = '\x08' then ['\\', 'b']
  else if c = '\x0c' then ['\\', 'f']
  else if c = '\n' then ['\\', 'n']
  else if c = '\r' then ['\\', 'r']
  else if c = '\t' then ['\\', 't']
  else if c.toNat < 0x20 then ['\\', 'u'] ++ Text.hex4 c.toNat
  else [c]

def stringChars (s : String) : List Char :=
  '"' :: s.toList.flatMap escapedChar ++ ['"']

def Number.chars : Number → List Char
  | .integer n => (toString n).toList
  | .float x => (floatLayout.text x).toList

def Scalar.chars : Scalar → List Char
  | .null => ['n', 'u', 'l', 'l']
  | .boolean true => ['t', 'r', 'u', 'e']
  | .boolean false => ['f', 'a', 'l', 's', 'e']
  | .number n => n.chars
  | .string s => stringChars s

/-! ## Writing in front of a rest

A nested value is written in front of the characters that follow it, so
nothing is copied on the way out and the work is in proportion to the
text, however deep the value. -/

mutual

def Value.onto : Value → List Char → List Char
  | .scalar s, rest => s.chars ++ rest
  | .array vs, rest => '[' :: itemsOnto vs (']' :: rest)
  | .object es, rest => '\x7b' :: entriesOnto es ('\x7d' :: rest)

def itemsOnto : List Value → List Char → List Char
  | [], rest => rest
  | [v], rest => v.onto rest
  | v :: vs, rest => v.onto (',' :: itemsOnto vs rest)

def entriesOnto : List (String × Value) → List Char → List Char
  | [], rest => rest
  | [(k, v)], rest => stringChars k ++ ':' :: v.onto rest
  | (k, v) :: es, rest => stringChars k ++ ':' :: v.onto (',' :: entriesOnto es rest)

end

def Value.chars (v : Value) : List Char :=
  v.onto []

/-- The compact text of a value. -/
def Value.text (v : Value) : String :=
  String.ofList v.chars

/-! ## What is written does not depend on the rest -/

mutual

theorem Value.onto_append : ∀ (v : Value) (r t : List Char), v.onto (r ++ t) = v.onto r ++ t
  | .scalar s, r, t => by simp [Value.onto]
  | .array vs, r, t => by
      have h := itemsOnto_append vs (']' :: r) t
      simpa [Value.onto] using h
  | .object es, r, t => by
      have h := entriesOnto_append es ('\x7d' :: r) t
      simpa [Value.onto] using h

theorem itemsOnto_append : ∀ (vs : List Value) (r t : List Char),
    itemsOnto vs (r ++ t) = itemsOnto vs r ++ t
  | [], r, t => by simp [itemsOnto]
  | [v], r, t => by simpa [itemsOnto] using Value.onto_append v r t
  | v :: w :: vs, r, t => by
      have h := Value.onto_append v (',' :: itemsOnto (w :: vs) r) t
      simpa [itemsOnto, itemsOnto_append (w :: vs) r t] using h

theorem entriesOnto_append : ∀ (es : List (String × Value)) (r t : List Char),
    entriesOnto es (r ++ t) = entriesOnto es r ++ t
  | [], r, t => by simp [entriesOnto]
  | [(k, v)], r, t => by simp [entriesOnto, Value.onto_append v r t]
  | (k, v) :: e :: es, r, t => by
      have h := Value.onto_append v (',' :: entriesOnto (e :: es) r) t
      simpa [entriesOnto, entriesOnto_append (e :: es) r t] using h

end

theorem Value.onto_eq (v : Value) (rest : List Char) : v.onto rest = v.chars ++ rest :=
  v.onto_append [] rest

end Adorn.Json
