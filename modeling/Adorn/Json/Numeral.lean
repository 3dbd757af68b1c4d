import Adorn.Json.Reader
import Adorn.Text.Digit

/-!
# Numerals

A numeral is the spelling of a number, cut into its parts. Reading one
and finding its value are separate steps: a value that is passed over
only has to be spelled correctly.

The value of a numeral with a point, an exponent or too many digits is
a double. Its digits are gathered in one machine word for as long as
they fit; whole digits that no longer fit only raise the exponent and
digits after the point are dropped. The word is then scaled by a power
of ten in a single rounded step.
-/

namespace Adorn.Json

open Text (isDigit digitValue digitsValue)

structure Numeral where
  negative : Bool
  whole : List Char
  fraction : Option (List Char)
  /-- Whether the exponent is negative, and its digits. -/
  exponent : Option (Bool × List Char)

namespace Numeral

/-! ## Reading -/

/-- One digit or more. Where the text ends instead, `short` is the cause of failure. -/
def digits (short : Error) : Reader (List Char) := fun s =>
  match s with
  | [] => .error short
  | c :: _ =>
    if isDigit c then .ok (s.takeWhile isDigit, s.dropWhile isDigit) else .error .invalidNumber

def sign : Reader Bool := do
  if (← look) = some '-' then
    advance
    return true
  else
    return false

/-- The digits before the point: a zero stands alone. -/
def wholePart (short : Error) : Reader (List Char) := do
  match ← digits short with
  | '0' :: _ :: _ => throw .invalidNumber
  | ds => return ds

def fractionPart (short : Error) : Reader (Option (List Char)) := do
  if (← look) = some '.' then
    advance
    return some (← digits short)
  else
    return none

def exponentSign : Reader Bool := do
  match ← look with
  | some '-' =>
    advance
    return true
  | some '+' =>
    advance
    return false
  | _ => return false

def exponentPart (short : Error) : Reader (Option (Bool × List Char)) := do
  let c ← look
  if c = some 'e' ∨ c = some 'E' then
    advance
    let negative ← exponentSign
    return some (negative, ← digits short)
  else
    return none

/-- Reads a numeral. Where the text ends inside it, `short` is the cause of failure. -/
def read (short : Error) : Reader Numeral := do
  let negative ← sign
  let whole ← wholePart short
  let fraction ← fractionPart short
  let exponent ← exponentPart short
  return { negative, whole, fraction, exponent }

/-! ## Value -/

/-- One more than the greatest number that fits a word. -/
def wordBound : Nat :=
  0x10000000000000000

/-- Appends digits to `n` for as long as the result fits a word; gives the digits that are left. -/
def gather : Nat → List Char → Nat × List Char
  | n, [] => (n, [])
  | n, d :: ds =>
    let m := n * 10 + digitValue d
    if m < wordBound then gather m ds else (n, d :: ds)

def powerOfTen (n : Nat) : Float :=
  Float.ofScientific 1 false n

/-- Divides by a power of ten. Powers beyond the range of doubles are taken in steps. -/
def scaleDown (x : Float) (n : Nat) : Float :=
  if n ≤ 308 then x / powerOfTen n
  else if x == 0 then x
  else scaleDown (x / powerOfTen 308) (n - 308)
termination_by n

/-- The word `n` times a power of ten. -/
def scale (n : Nat) (exponent : Int) : Except Error Float :=
  let x := n.toUInt64.toFloat
  if exponent < 0 then
    .ok (scaleDown x exponent.natAbs)
  else if exponent ≤ 308 then
    let y := x * powerOfTen exponent.toNat
    if y.isInf then .error .numberOutOfRange else .ok y
  else if x == 0 then .ok x
  else .error .numberOutOfRange

/-- The greatest exponent that is taken at its value; a greater one gives zero or no number at all. -/
def greatestExponent : Nat :=
  0x7fffffff

/-- The magnitude of a numeral as a double. -/
def magnitude (n : Numeral) : Except Error Float :=
  let (significand, dropped) := gather 0 n.whole
  let fraction := n.fraction.getD []
  let (significand, unused) := gather significand fraction
  let exponent : Int := dropped.length - (fraction.length - unused.length : Nat)
  match n.exponent with
  | none => scale significand exponent
  | some (negative, ds) =>
    let shift := digitsValue ds
    if greatestExponent < shift then
      if significand = 0 || negative then .ok 0 else .error .numberOutOfRange
    else
      scale significand (if negative then exponent - shift else exponent + shift)

/-- The number a numeral stands for. There is no negative zero among the integers, so `-0` is a
double. -/
def value (n : Numeral) : Except Error Number := do
  let whole := digitsValue n.whole
  if n.fraction.isNone && n.exponent.isNone && whole < wordBound then
    if ¬n.negative then return .integer whole
    else if 0 < whole ∧ whole ≤ wordBound / 2 then return .integer (-whole)
    else return .float (-whole.toUInt64.toFloat)
  else
    let x ← n.magnitude
    return .float (if n.negative then -x else x)

end Numeral

/-- Reads a number. -/
def number : Reader Number := do
  let n ← Numeral.read .endOfValue
  n.value

/-- Passes over a number without asking for its value. -/
def skipNumber : Reader Unit := do
  let _ ← Numeral.read .invalidNumber

end Adorn.Json
