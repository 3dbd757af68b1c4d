import Adorn.Text.Blank
import Adorn.Text.Digit
import Adorn.Trace.Event

/-!
# Filters

A filter is a list of directives divided by commas. A directive limits
the level of everything, or of the targets that start with a given
text; the longest such text decides, and of two directives for the same
text the later. A piece that is no directive is passed over. A target
that no directive reaches is off.
-/

namespace Adorn.Log

/-- The most verbose level that is let through; `off` lets nothing through. -/
inductive Limit where
  | off
  | upTo (level : Level)
  deriving DecidableEq

namespace Limit

def allows : Limit → Level → Bool
  | .off, _ => false
  | .upTo l, k => k.rank ≤ l.rank

def ofRank? : Nat → Option Limit
  | 0 => some .off
  | 1 => some (.upTo .error)
  | 2 => some (.upTo .warn)
  | 3 => some (.upTo .info)
  | 4 => some (.upTo .debug)
  | 5 => some (.upTo .trace)
  | _ => none

/-- The number that decimal digits spell, with or without a plus sign. -/
def number? (cs : List Char) : Option Nat :=
  let ds := match cs with
    | '+' :: ds => ds
    | _ => cs
  if ds.isEmpty || !ds.all Text.isDigit then none
  else some (Text.digitsValue ds)

/-- A limit is given by its number or by its name in either case. -/
def parse? (s : String) : Option Limit :=
  match number? s.toList with
  | some n => ofRank? n
  | none =>
    let v := Text.lowerAscii s
    if v = "off" then some .off
    else if v = "error" then some (.upTo .error)
    else if v = "warn" then some (.upTo .warn)
    else if v = "info" then some (.upTo .info)
    else if v = "debug" then some (.upTo .debug)
    else if v = "trace" then some (.upTo .trace)
    else none

end Limit

/-- A limit on the targets that start with `target`, or on all of them. -/
structure Directive where
  target : Option String
  limit : Limit
  deriving DecidableEq

namespace Directive

/-- The characters that a directive may start with. Targets start with a letter of ASCII, so no other
letters are needed. -/
def isStart (c : Char) : Bool :=
  c.isAlphanum || c = '-' || c = ':' || c = '_'

/-- The directive that a piece between commas spells. A target without a limit is not limited. No
piece starts with a plus sign, so only a number behind an equals sign can have one. -/
def parse? (piece : List Char) : Option Directive :=
  if !piece.head?.any isStart then none
  else
    let target := String.ofList (piece.takeWhile (· ≠ '='))
    match piece.dropWhile (· ≠ '=') with
    | [] =>
      match Limit.parse? target with
      | some l => some ⟨none, l⟩
      | none => some ⟨some target, .upTo .trace⟩
    | [_] => some ⟨some target, .upTo .trace⟩
    | _ :: level => (Limit.parse? (String.ofList level)).map fun l => ⟨some target, l⟩

def reaches (d : Directive) (target : String) : Bool :=
  match d.target with
  | none => true
  | some t => t.toList.isPrefixOf target.toList

/-- How specific a directive is: the length of its target, and less than any if it has none. -/
def weight (d : Directive) : Nat :=
  match d.target with
  | none => 0
  | some t => t.length + 1

end Directive

abbrev Filter := List Directive

namespace Filter

/-- The pieces of a text between commas; the empty ones are left out. -/
def pieces (s : String) : List (List Char) :=
  (s.toList.splitOn ',').filter fun p => !p.isEmpty

def parse (s : String) : Filter :=
  (pieces s).filterMap Directive.parse?

/-- The more specific of two directives, the later one if they are equally specific. -/
def prefer (best : Option Directive) (d : Directive) : Option Directive :=
  match best with
  | none => some d
  | some b => if b.weight ≤ d.weight then some d else some b

/-- The limit on a target. -/
def limit (f : Filter) (target : String) : Limit :=
  match (f.filter fun d => d.reaches target).foldl prefer none with
  | some d => d.limit
  | none => .off

def enabled (f : Filter) (target : String) (level : Level) : Bool :=
  (f.limit target).allows level

end Filter

end Adorn.Log
