import Adorn.Expr.Basic
import Adorn.Text.Control
import Adorn.Text.Hex

/-!
# The written form of an expression

Expressions are written on one line, with double quotes around strings
and one blank after a comma. Only strings are escaped; every other
piece of text is written as it is.
-/

namespace Adorn

/-- A character inside a written string: control characters never stand for themselves. -/
def writtenChar (c : Char) : List Char :=
  if c = '"' then ['\\', '"']
  else if c = '\\' then ['\\', '\\']
  else if c = '\n' then ['\\', 'n']
  else if c = '\r' then ['\\', 'r']
  else if c = '\t' then ['\\', 't']
  else if Text.isControl c then ['\\', 'u'] ++ Text.hex4 c.toNat
  else [c]

def writtenString (s : String) : List Char :=
  '"' :: s.toList.flatMap writtenChar ++ ['"']

/-- Pieces with a comma and a blank between them. -/
def commaSeparated : List (List Char) → List Char
  | [] => []
  | [p] => p
  | p :: ps => p ++ ',' :: ' ' :: commaSeparated ps

/-- The parameters of a function, between parentheses. -/
def writtenParams (params : List String) : List Char :=
  '(' :: commaSeparated (params.map String.toList) ++ [')']

def writtenFunction (name : Option String) (params : List String) (body : String) : List Char :=
  "function ".toList ++ (name.getD "").toList ++ writtenParams params ++ ' ' :: body.toList

def writtenArrow (params : List String) (body : String) : List Char :=
  writtenParams params ++ " => ".toList ++ body.toList

/-! ## Writing in front of a rest

As in a chain of calls the inner expression comes first, an expression
is written in front of the characters that follow it. Nothing that has
been written is copied, however deep the expression. -/

mutual

def Expr.onto : Expr → List Char → List Char
  | .string s, rest => writtenString s ++ rest
  | .number n, rest => n.toList ++ rest
  | .boolean true, rest => ['t', 'r', 'u', 'e'] ++ rest
  | .boolean false, rest => ['f', 'a', 'l', 's', 'e'] ++ rest
  | .null, rest => ['n', 'u', 'l', 'l'] ++ rest
  | .template q, rest => '`' :: (q.toList ++ '`' :: rest)
  | .identifier n, rest => n.toList ++ rest
  | .array es, rest => '[' :: Expr.listOnto es (']' :: rest)
  | .object [], rest => ['\x7b', '\x7d'] ++ rest
  | .object ps, rest => ['\x7b', ' '] ++ Expr.propertiesOnto ps ([' ', '\x7d'] ++ rest)
  | .call f es, rest => f.onto ('(' :: Expr.listOnto es (')' :: rest))
  | .access e p, rest => e.onto ('.' :: (p.toList ++ rest))
  | .function n ps b, rest => writtenFunction n ps b ++ rest
  | .arrow ps b, rest => writtenArrow ps b ++ rest
  | .raw t, rest => t.toList ++ rest

def Expr.listOnto : List Expr → List Char → List Char
  | [], rest => rest
  | [e], rest => e.onto rest
  | e :: es, rest => e.onto (',' :: ' ' :: Expr.listOnto es rest)

def Property.onto : Property → List Char → List Char
  | .mk k e, rest => k.onto (':' :: ' ' :: e.onto rest)

def Expr.propertiesOnto : List Property → List Char → List Char
  | [], rest => rest
  | [p], rest => p.onto rest
  | p :: ps, rest => p.onto (',' :: ' ' :: Expr.propertiesOnto ps rest)

def Key.onto : Key → List Char → List Char
  | .identifier n, rest => n.toList ++ rest
  | .string s, rest => writtenString s ++ rest
  | .computed e, rest => '[' :: e.onto (']' :: rest)

end

def Expr.chars (e : Expr) : List Char :=
  e.onto []

def Key.chars (k : Key) : List Char :=
  k.onto []

/-- Arguments between parentheses. -/
def Expr.argumentChars (es : List Expr) : List Char :=
  '(' :: Expr.listOnto es [')']

/-- The written form of an expression. -/
def Expr.render (e : Expr) : String :=
  String.ofList e.chars

/-! ## What is written does not depend on the rest -/

mutual

theorem Expr.onto_append : ∀ (e : Expr) (r t : List Char), e.onto (r ++ t) = e.onto r ++ t
  | .string _, r, t | .number _, r, t | .null, r, t | .template _, r, t | .identifier _, r, t
  | .boolean true, r, t | .boolean false, r, t | .object [], r, t
  | .function _ _ _, r, t | .arrow _ _, r, t | .raw _, r, t => by simp [Expr.onto]
  | .array es, r, t => by simpa [Expr.onto] using Expr.listOnto_append es (']' :: r) t
  | .object (p :: ps), r, t => by
      simpa [Expr.onto] using Expr.propertiesOnto_append (p :: ps) (' ' :: '\x7d' :: r) t
  | .call f es, r, t => by
      have h : Expr.listOnto es (')' :: (r ++ t)) = Expr.listOnto es (')' :: r) ++ t :=
        Expr.listOnto_append es (')' :: r) t
      simpa [Expr.onto, h] using Expr.onto_append f ('(' :: Expr.listOnto es (')' :: r)) t
  | .access e p, r, t => by
      simpa [Expr.onto] using Expr.onto_append e ('.' :: (p.toList ++ r)) t

theorem Expr.listOnto_append : ∀ (es : List Expr) (r t : List Char),
    Expr.listOnto es (r ++ t) = Expr.listOnto es r ++ t
  | [], r, t => by simp [Expr.listOnto]
  | [e], r, t => by simpa [Expr.listOnto] using Expr.onto_append e r t
  | e :: f :: es, r, t => by
      have h := Expr.onto_append e (',' :: ' ' :: Expr.listOnto (f :: es) r) t
      simpa [Expr.listOnto, Expr.listOnto_append (f :: es) r t] using h

theorem Property.onto_append : ∀ (p : Property) (r t : List Char), p.onto (r ++ t) = p.onto r ++ t
  | .mk k e, r, t => by
      have h := Key.onto_append k (':' :: ' ' :: e.onto r) t
      simpa [Property.onto, Expr.onto_append e r t] using h

theorem Expr.propertiesOnto_append : ∀ (ps : List Property) (r t : List Char),
    Expr.propertiesOnto ps (r ++ t) = Expr.propertiesOnto ps r ++ t
  | [], r, t => by simp [Expr.propertiesOnto]
  | [p], r, t => by simpa [Expr.propertiesOnto] using Property.onto_append p r t
  | p :: q :: ps, r, t => by
      have h := Property.onto_append p (',' :: ' ' :: Expr.propertiesOnto (q :: ps) r) t
      simpa [Expr.propertiesOnto, Expr.propertiesOnto_append (q :: ps) r t] using h

theorem Key.onto_append : ∀ (k : Key) (r t : List Char), k.onto (r ++ t) = k.onto r ++ t
  | .identifier _, r, t | .string _, r, t => by simp [Key.onto]
  | .computed e, r, t => by simpa [Key.onto] using Expr.onto_append e (']' :: r) t

end

theorem Expr.onto_eq (e : Expr) (rest : List Char) : e.onto rest = e.chars ++ rest :=
  e.onto_append [] rest

theorem Key.onto_eq (k : Key) (rest : List Char) : k.onto rest = k.chars ++ rest :=
  k.onto_append [] rest

end Adorn
