import Adorn.Json.Form

/-!
# Arrays and objects

Items are divided by commas and so are entries, and no comma may stand
before a closing bracket. `moreItems` and `moreEntries` decide at each
point whether an array or an object goes on; the readers of whole
arrays and objects, and of lists and records of a known type, are all
loops around these two.
-/

namespace Adorn.Json

/-- Whether an array has a further item, in which case the text then starts with it; otherwise it
starts with the closing bracket. -/
def moreItems (first : Bool) : Reader Bool := do
  match ← peek with
  | none => throw .endOfList
  | some c =>
    if c = ']' then return false
    else if first then return true
    else if c = ',' then
      advance
      match ← peek with
      | none => throw .endOfValue
      | some d => if d = ']' then throw .trailingComma else return true
    else throw .listSeparatorExpected

/-- Whether an object has a further entry, in which case the text then starts with the quote of its
key; otherwise it starts with the closing bracket. -/
def moreEntries (first : Bool) : Reader Bool := do
  match ← peek with
  | none => throw .endOfObject
  | some c =>
    if c = '\x7d' then return false
    else if first then
      if c = '"' then return true else throw .keyExpected
    else if c = ',' then
      advance
      match ← peek with
      | none => throw .endOfValue
      | some d =>
        if d = '"' then return true
        else if d = '\x7d' then throw .trailingComma
        else throw .keyExpected
    else throw .objectSeparatorExpected

/-- A key, whose quote has been seen. -/
def key : Reader String := do
  advance
  string

def colon : Reader Unit := do
  match ← peek with
  | none => throw .endOfObject
  | some c => if c = ':' then advance else throw .colonExpected

/-- One more item of an array, or its closing bracket. -/
def itemStep {α : Type} (item : Reader α) (state : Bool × Array α) :
    Reader ((Bool × Array α) ⊕ List α) := do
  if ← moreItems state.1 then
    return .inl (false, state.2.push (← item))
  else
    advance
    return .inr state.2.toList

/-- The items of an array up to its closing bracket; `first` tells whether none has been read. -/
def items {α : Type} (item : Reader α) (first : Bool) : Reader (List α) :=
  Reader.loop (itemStep item) (first, #[])

/-- One more entry of an object, or its closing bracket. -/
def entryStep {α : Type} (value : Reader α) (state : Bool × Array (String × α)) :
    Reader ((Bool × Array (String × α)) ⊕ List (String × α)) := do
  if ← moreEntries state.1 then
    let k ← key
    colon
    return .inl (false, state.2.push (k, ← value))
  else
    advance
    return .inr state.2.toList

/-- The entries of an object up to its closing bracket. -/
def entries {α : Type} (value : Reader α) : Reader (List (String × α)) :=
  Reader.loop (entryStep value) (true, #[])

end Adorn.Json
