import Adorn.Json.Skip
import Adorn.Json.Tree
import Adorn.Wire.Field

/-!
# Decoders

A decoder reads a value of a known type straight off the text, so a
value of the wrong type is reported before anything that follows it. It
knows how many arrays and objects may still be entered. Lists, records
and nullable values are decoded from the decoders of their parts.
-/

namespace Adorn.Wire

open Json

/-- A reader that knows how many levels of nesting are left. -/
abbrev Decoder (α : Type) := ReaderT Nat Reader α

namespace Decoder

variable {α : Type}

/-- Enters an array or object whose bracket has been seen. -/
def inside (d : Decoder α) : Decoder α
  | 0 => throw .nestedTooDeep
  | levels + 1 => do
    advance
    d levels

/-- Decodes a whole document. -/
def run (d : Decoder α) (text : String) : Except Error α :=
  Reader.document (d maxNesting) text

def text : Decoder String := do
  match ← form with
  | .scalar (.string s) => return s
  | f => throw (.wrongType f .string)

def flag : Decoder Bool := do
  match ← form with
  | .scalar (.boolean b) => return b
  | f => throw (.wrongType f .boolean)

/-- A value that may be null. -/
def nullable (d : Decoder α) : Decoder (Option α) := do
  if (← peek) = some 'n' then
    advance
    word ['u', 'l', 'l']
    return none
  else
    return some (← d)

/-- A value for which null stands for a default. -/
def orDefault (d : Decoder α) (default : α) : Decoder α := do
  return (← nullable d).getD default

def list (d : Decoder α) : Decoder (List α) := do
  match ← form with
  | .sequence => inside fun levels => items (d levels) true
  | f => throw (.wrongType f .sequence)

/-! ## Records -/

/-- The fields of a record given as a list, in the order of declaration. -/
def positional (title : Title) (total : Nat) :
    (fs : List (Field Decoder)) → (index : Nat) → Decoder (Tuple fs)
  | [], _ => return ()
  | f :: fs, index => do
    if ← moreItems (index == 0) then
      let v ← f.read
      return (v, ← positional title total fs (index + 1))
    else
      match f.cut with
      | some v => return (v, ← positional title total fs (index + 1))
      | none => throw (.tooShort index title total)

/-- Takes the bracket that closes a positional list. -/
def closeList : Reader Unit := do
  match ← peek with
  | none => throw .endOfList
  | some c =>
    if c = ']' then advance
    else if c = ',' then
      advance
      if (← peek) = some ']' then throw .trailingComma else throw .trailingCharacters
    else throw .trailingCharacters

/-- Takes one more entry of a record given as an object, or its closing bracket. -/
def fieldStep (fs : List (Field Decoder)) (levels : Nat) (state : Bool × Draft fs) :
    Reader ((Bool × Draft fs) ⊕ Tuple fs) := do
  if ← moreEntries state.1 then
    let k ← key
    match Draft.place fs k state.2 with
    | .unknown =>
      colon
      skip
      return .inl (false, state.2)
    | .taken => throw (.repeatedField k)
    | .free f store =>
      colon
      return .inl (false, store (← f.read levels))
  else
    let t ← Draft.finish fs state.2
    advance
    return .inr t

/-- A record, given as an object or as a positional list. -/
def record (name : String) (fs : List (Field Decoder)) : Decoder (Tuple fs) := do
  match ← form with
  | .sequence => inside do
    let t ← positional (.record name) fs.length fs 0
    closeList
    return t
  | .map => inside fun levels => Reader.loop (fieldStep fs levels) (true, Draft.empty fs)
  | f => throw (.wrongType f (.record name))

end Decoder

end Adorn.Wire
