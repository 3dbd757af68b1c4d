/-!
# The shortest decimal of a binary fraction

A double `m * 2 ^ q` stands for every real number that rounds to it.
Of the decimals inside that interval the one with the fewest digits is
chosen, and of two with equally few digits the nearer. The search goes
through the decimal grids from one digit upward; on each grid only the
two neighbours of the value can be inside the interval. All of it is
exact arithmetic on natural numbers.
-/

namespace Adorn

/-- The decimal `significand * 10 ^ exponent`. -/
structure Decimal where
  significand : Nat
  exponent : Int
  deriving DecidableEq

namespace Decimal

/-- A positive rational with the interval of numbers that round to it: all
four numbers are over one denominator. -/
structure Interval where
  low : Nat
  value : Nat
  high : Nat
  denominator : Nat
  /-- Whether the two ends round to the value themselves. -/
  closed : Bool

/-- The interval of the double with significand `m` and exponent `q`. The gap below a power of two is
half as wide as the gap above it. -/
def Interval.ofBinary (m : Nat) (q : Int) (narrow : Bool) : Interval :=
  let low := 4 * m - (if narrow then 1 else 2)
  let closed := m % 2 == 0
  if 2 ≤ q then
    let scale := Nat.pow 2 (q - 2).toNat
    ⟨low * scale, 4 * m * scale, (4 * m + 2) * scale, 1, closed⟩
  else
    ⟨low, 4 * m, 4 * m + 2, Nat.pow 2 (2 - q).toNat, closed⟩

/-- The exponent of the leading decimal digit of `n / d`. -/
def leadingExponent (n d : Nat) : Int :=
  if d ≤ n then
    ((Nat.toDigits 10 (n / d)).length : Int) - 1
  else
    let k := (Nat.toDigits 10 (d / n)).length - 1
    if d ≤ n * Nat.pow 10 k then -(k : Int) else -(k : Int) - 1

/-- The nearest point of the grid of multiples of `10 ^ unit` that lies in the interval, if one of the
two neighbours of the value does; of two equally near ones the even. -/
def Interval.nearest? (i : Interval) (unit : Int) : Option Nat :=
  let up := Nat.pow 10 (-unit).toNat
  let d := i.denominator * Nat.pow 10 unit.toNat
  let inside (a : Nat) : Bool :=
    if i.closed then i.low * up ≤ a * d && a * d ≤ i.high * up
    else i.low * up < a * d && a * d < i.high * up
  let below := i.value * up / d
  let above := below + 1
  let left := i.value * up - below * d
  let right := above * d - i.value * up
  match inside below, inside above with
  | true, true =>
    some (if left < right then below else if right < left then above
      else if below % 2 = 0 then below else above)
  | true, false => some below
  | false, true => some above
  | false, false => none

/-- Searches the grids with `digits`, `digits + 1`, ... digits before the leading exponent. -/
def Interval.search (i : Interval) (leading : Int) : (digits rounds : Nat) → Decimal
  | _, 0 => ⟨i.value / i.denominator, 0⟩
  | digits, rounds + 1 =>
    let unit := leading - digits + 1
    match i.nearest? unit with
    | some a => ⟨a, unit⟩
    | none => i.search leading (digits + 1) rounds

/-- Seventeen digits always suffice for a double. -/
def Interval.shortest (i : Interval) : Decimal :=
  i.search (leadingExponent i.value i.denominator) 1 17

/-- Whether the sign bit is set. -/
def isNegative (x : Float) : Bool :=
  x.toBits >>> 63 == 1

/-- The leading bit of a significand, which is not stored: fifty-two bits follow it. -/
def hiddenBit : Nat :=
  0x10000000000000

/-- The shortest decimal that reads back as the magnitude of a finite double. -/
def shortest (x : Float) : Decimal :=
  let bits := x.toBits.toNat
  let raw := bits / hiddenBit % 0x800
  let fraction := bits % hiddenBit
  let m := if raw = 0 then fraction else fraction + hiddenBit
  if m = 0 then ⟨0, 0⟩
  else (Interval.ofBinary m ((max raw 1 : Nat) - 1075) (fraction == 0 && 1 < raw)).shortest

end Decimal

end Adorn
