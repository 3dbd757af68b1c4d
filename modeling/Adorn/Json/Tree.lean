import Adorn.Json.Container

/-!
# Reading a tree

A value whose type is not known yet is read as a tree. At most
`maxNesting` arrays and objects may stand around one another, so the
number of levels that may still be entered bounds the recursion.
-/

namespace Adorn.Json

/-- The number of arrays and objects that may stand around one another. -/
def maxNesting : Nat := 127

/-- A value, where `inner` reads what stands in an array or an object if one may be entered. -/
def valueWith (inner : Option (Reader Value)) : Reader Value := do
  match ← form, inner with
  | .scalar s, _ => return .scalar s
  | _, none => throw .nestedTooDeep
  | .sequence, some r =>
    advance
    return .array (← items r true)
  | .map, some r =>
    advance
    return .object (← entries r)

/-- A value with at most `levels` arrays and objects around one another. -/
def value : (levels : Nat) → Reader Value
  | 0 => valueWith none
  | levels + 1 => valueWith (some (value levels))

/-- The value that a text spells. -/
def Value.ofText (text : String) : Except Error Value :=
  Reader.document (value maxNesting) text

end Adorn.Json
