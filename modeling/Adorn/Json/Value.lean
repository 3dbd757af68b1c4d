/-!
# JSON values

A document is a tree of scalars, arrays and objects. The entries of an
object keep their order and a key may occur more than once, because
both matter to what reads the tree. `Value.nesting` counts how deep
arrays and objects stand inside one another.
-/

namespace Adorn.Json

/-- A whole number that fits a machine word is kept exactly; every other number is a double. -/
inductive Number where
  | integer (value : Int)
  | float (value : Float)

inductive Scalar where
  | null
  | boolean (value : Bool)
  | number (value : Number)
  | string (value : String)

inductive Value where
  | scalar (value : Scalar)
  | array (items : List Value)
  | object (entries : List (String × Value))

namespace Value

@[match_pattern] abbrev null : Value := .scalar .null
@[match_pattern] abbrev boolean (b : Bool) : Value := .scalar (.boolean b)
@[match_pattern] abbrev string (s : String) : Value := .scalar (.string s)
@[match_pattern] abbrev integer (n : Int) : Value := .scalar (.number (.integer n))

end Value

mutual

/-- The number of arrays and objects around the innermost scalar. -/
def Value.nesting : Value → Nat
  | .scalar _ => 0
  | .array vs => nestingItems vs + 1
  | .object es => nestingEntries es + 1

def nestingItems : List Value → Nat
  | [] => 0
  | v :: vs => max v.nesting (nestingItems vs)

def nestingEntries : List (String × Value) → Nat
  | [] => 0
  | (_, v) :: es => max v.nesting (nestingEntries es)

end

/-- The first character of a value tells its form: a scalar is read to its end, of an array or an
object only the opening bracket is seen. -/
inductive Form where
  | scalar (value : Scalar)
  | sequence
  | map

def Value.form : Value → Form
  | .scalar s => .scalar s
  | .array _ => .sequence
  | .object _ => .map

end Adorn.Json
