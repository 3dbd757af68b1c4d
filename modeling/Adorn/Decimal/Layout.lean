import Adorn.Decimal.Shortest

/-!
# Layout of a decimal

How a decimal is spelled is a handful of decisions: which exponents are
written positionally and what marks the others. `Layout` records them
and `Layout.text` follows them.
-/

namespace Adorn.Decimal

structure Layout where
  /-- Least exponent of the leading digit that is written positionally. -/
  least : Int
  /-- Greatest exponent of the leading digit that is written positionally. -/
  greatest : Int
  /-- Written before a nonnegative exponent. -/
  plus : String

/-- The digits of a significand without its trailing zeros. -/
def digits (n : Nat) : List Char :=
  ((Nat.toDigits 10 n).reverse.dropWhile (· == '0')).reverse

def zeros (n : Nat) : List Char :=
  List.replicate n '0'

/-- Writes the digits `ds`, the first of which stands at `exponent`, with a decimal point. -/
def positional (ds : List Char) (exponent : Int) : List Char :=
  if exponent < 0 then
    ['0', '.'] ++ zeros (-exponent - 1).toNat ++ ds
  else
    let whole := exponent.toNat + 1
    if ds.length ≤ whole then ds ++ zeros (whole - ds.length) ++ ['.', '0']
    else ds.take whole ++ '.' :: ds.drop whole

/-- Writes the digits `ds` with one of them before the point, and the exponent. -/
def scientific (plus : String) (ds : List Char) (exponent : Int) : List Char :=
  let mantissa := match ds with
    | d :: e :: es => d :: '.' :: e :: es
    | _ => ds
  let sign := if exponent < 0 then ['-'] else plus.toList
  mantissa ++ 'e' :: sign ++ Nat.toDigits 10 exponent.natAbs

def Layout.chars (l : Layout) (d : Decimal) : List Char :=
  if d.significand = 0 then ['0', '.', '0']
  else
    let leading := d.exponent + (Nat.toDigits 10 d.significand).length - 1
    if l.least ≤ leading && leading ≤ l.greatest then positional (digits d.significand) leading
    else scientific l.plus (digits d.significand) leading

/-- The text of a finite double. -/
def Layout.text (l : Layout) (x : Float) : String :=
  String.ofList ((if isNegative x then ['-'] else []) ++ l.chars (shortest x))

end Adorn.Decimal
