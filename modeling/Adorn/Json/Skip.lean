import Adorn.Json.Container

/-!
# Passing over values

The value of a key that nobody asked for still has to be passed over.
It has to be spelled correctly, but nothing is kept of it: numbers may
be out of range, surrogates may lack their partner, and brackets may
nest as deep as they like. The open brackets are a stack, and each step
takes one scalar or one bracket.
-/

namespace Adorn.Json

inductive Bracket where
  | list
  | object
  deriving DecidableEq

def Bracket.closing : Bracket → Char
  | .list => ']'
  | .object => '\x7d'

def Bracket.cut : Bracket → Error
  | .list => .endOfList
  | .object => .endOfObject

def Bracket.separatorExpected : Bracket → Error
  | .list => .listSeparatorExpected
  | .object => .objectSeparatorExpected

/-- Where a pass stands: before a value or after one, inside the given brackets. -/
inductive Passage where
  | before (inside : List Bracket)
  | after (inside : List Bracket)

def skipScalar (c : Char) : Reader Unit := do
  if c = 'n' then
    advance
    word ['u', 'l', 'l']
  else if c = 't' then
    advance
    word ['r', 'u', 'e']
  else if c = 'f' then
    advance
    word ['a', 'l', 's', 'e']
  else if c = '"' then
    advance
    skipString
  else if c = '-' || Text.isDigit c then
    skipNumber
  else throw .valueExpected

/-- Passes over what stands before a value inside a bracket: in an object, a key and its colon. -/
def skipLabel : Bracket → Reader Unit
  | .list => pure ()
  | .object => do
    match ← peek with
    | none => throw .endOfObject
    | some c =>
      if c ≠ '"' then throw .keyExpected
      advance
      skipString
      colon

/-- Enters a bracket whose opening has been seen, and leaves it at once if it is empty. -/
def skipOpening (b : Bracket) (inside : List Bracket) : Reader Passage := do
  advance
  match ← peek with
  | none => throw b.cut
  | some c =>
    if c = b.closing then
      advance
      return .after inside
    else
      skipLabel b
      return .before (b :: inside)

/-- Goes on after a value inside the bracket `b`. -/
def skipSeparator (b : Bracket) (inside : List Bracket) : Reader Passage := do
  match ← peek with
  | none => throw b.cut
  | some c =>
    if c = ',' then
      advance
      skipLabel b
      return .before (b :: inside)
    else if c = b.closing then
      advance
      return .after inside
    else throw b.separatorExpected

def skipStep : Passage → Reader (Passage ⊕ Unit)
  | .before inside => do
    match ← peek with
    | none => throw .endOfValue
    | some c =>
      if c = '[' then return .inl (← skipOpening .list inside)
      else if c = '\x7b' then return .inl (← skipOpening .object inside)
      else
        skipScalar c
        return .inl (.after inside)
  | .after [] => return .inr ()
  | .after (b :: inside) => return .inl (← skipSeparator b inside)

/-- Passes over one value. -/
def skip : Reader Unit :=
  Reader.loop skipStep (.before [])

end Adorn.Json
