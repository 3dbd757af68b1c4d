import Adorn.Json.Numeral
import Adorn.Json.Text

/-!
# The form of the next value

Whatever a reader is looking for, it first finds out the form of the
value that is there. A scalar is read on the spot, so its own faults
come before the question whether a scalar was wanted; of an array or an
object only the opening bracket is seen.
-/

namespace Adorn.Json

/-- The scalar that starts with `c`, which has been seen. -/
def scalar (c : Char) : Reader Scalar := do
  if c = 'n' then
    advance
    word ['u', 'l', 'l']
    return .null
  else if c = 't' then
    advance
    word ['r', 'u', 'e']
    return .boolean true
  else if c = 'f' then
    advance
    word ['a', 'l', 's', 'e']
    return .boolean false
  else if c = '"' then
    advance
    return .string (← string)
  else if c = '-' || Text.isDigit c then
    return .number (← number)
  else throw .valueExpected

/-- The form of the next value. -/
def form : Reader Form := do
  match ← peek with
  | none => throw .endOfValue
  | some c =>
    if c = '[' then return .sequence
    else if c = '\x7b' then return .map
    else return .scalar (← scalar c)

end Adorn.Json
