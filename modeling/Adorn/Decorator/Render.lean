import Adorn.Decorator.Basic
import Adorn.Expr.Render

/-!
# The written form of decorators

A decorator is written behind an `@`, its arguments between
parentheses; the decorators of a member stand one on a line.
-/

namespace Adorn

def Spec.chars (s : Spec) : List Char :=
  '@' :: s.name.toList ++
    match s.arguments with
    | none => []
    | some es => Expr.argumentChars es

/-- The written form of a decorator. -/
def Spec.render (s : Spec) : String :=
  String.ofList s.chars

/-- Pieces on lines of their own. -/
def lineSeparated : List (List Char) → List Char
  | [] => []
  | [p] => p
  | p :: ps => p ++ '\n' :: lineSeparated ps

def Decorators.chars (d : Decorators) : List Char :=
  lineSeparated (d.toList.map Spec.chars)

/-- The written form of a list of decorators. -/
def Decorators.render (d : Decorators) : String :=
  String.ofList d.chars

end Adorn
