import Adorn.Wire.Buffer
import Adorn.Wire.Decoder

/-!
# Tagged values

A value of a type with several kinds carries the name of its kind under
the key `kind`, or as the first item of a list; the rest are the fields
of that kind. The tag is checked where it stands and the other parts
are kept as trees until the whole value has been read.

In a tree a tag may also be given by its number, because a tree may
come from a format that numbers its kinds.
-/

namespace Adorn.Wire

open Json

/-- A type with several kinds. -/
structure Tagged (κ : Type) where
  type : String
  kinds : List κ
  name : κ → String

/-- Raises the first letter. -/
def capitalized (s : String) : String :=
  match s.toList with
  | [] => s
  | c :: cs => String.ofList (c.toUpper :: cs)

/-- The key of the tag. -/
def tagKey : String := "kind"

namespace Tagged

variable {κ : Type}

/-- How the list of fields of a kind is named. -/
def title (t : Tagged κ) (k : κ) : Title :=
  .variant t.type (capitalized (t.name k))

def ofName (t : Tagged κ) (name : String) : Except Error κ :=
  match t.kinds.find? fun k => t.name k == name with
  | some k => .ok k
  | none => .error (.unknownVariant name (t.kinds.map t.name))

def ofIndex (t : Tagged κ) (index : Nat) : Except Error κ :=
  match t.kinds[index]? with
  | some k => .ok k
  | none => .error (.unknownIndex index t.kinds.length)

/-! ## Straight off the text -/

def tag (t : Tagged κ) : Reader κ := do
  match ← form with
  | .scalar (.string s) => t.ofName s
  | f => throw (.wrongType f .variant)

/-- The state of reading a tagged object: whether no entry has been read, the tag if it has come, and
the other entries. -/
structure Open (κ : Type) where
  first : Bool
  tag : Option κ
  entries : Array (String × Value)

def openStep (t : Tagged κ) (levels : Nat) (state : Open κ) : Reader (Open κ ⊕ (κ × Body)) := do
  if ← moreEntries state.first then
    let k ← key
    if k = tagKey then
      if state.tag.isSome then throw (.repeatedField tagKey)
      colon
      return .inl { state with first := false, tag := some (← t.tag) }
    else
      colon
      let v ← value levels
      return .inl { state with first := false, entries := state.entries.push (k, v) }
  else
    match state.tag with
    | none => throw (.missingField tagKey)
    | some k =>
      advance
      return .inr (k, .keyed state.entries.toList)

/-- The tag of a list and its other items. -/
def listed (t : Tagged κ) (levels : Nat) : Reader (κ × Body) := do
  if ← moreItems true then
    let k ← t.tag
    return (k, .listed (← items (value levels) false))
  else
    throw (.missingField tagKey)

/-- The kind of a tagged value and its parts. -/
def decode (t : Tagged κ) : Decoder (κ × Body) := do
  match ← form with
  | .sequence => Decoder.inside t.listed
  | .map => Decoder.inside fun levels =>
    Reader.loop (t.openStep levels) { first := true, tag := none, entries := #[] }
  | f => throw (.wrongType f (.tagged t.type))

/-! ## From a tree -/

/-- A tag in a tree: the name of a kind or its number. -/
def tagOf (t : Tagged κ) : Buffer κ
  | .scalar (.string s) => t.ofName s
  | .scalar (.number (.integer (.ofNat n))) => t.ofIndex n
  | v => .error (.wrongType v.form .variant)

/-- Takes the tag out of a list of entries. -/
def splitEntries (t : Tagged κ) :
    Option κ → List (String × Value) → Except Error (κ × List (String × Value))
  | none, [] => .error (.missingField tagKey)
  | some k, [] => .ok (k, [])
  | tag, (key, v) :: es =>
    if key = tagKey then
      match tag with
      | some _ => .error (.repeatedField tagKey)
      | none => do t.splitEntries (some (← t.tagOf v)) es
    else do
      let (k, rest) ← t.splitEntries tag es
      return (k, (key, v) :: rest)

/-- The kind of a tagged tree and its parts. -/
def split (t : Tagged κ) : Buffer (κ × Body)
  | .array [] => .error (.missingField tagKey)
  | .array (v :: vs) => do return (← t.tagOf v, .listed vs)
  | .object es => do
    let (k, rest) ← t.splitEntries none es
    return (k, .keyed rest)
  | v => .error (.wrongType v.form (.tagged t.type))

end Tagged

end Adorn.Wire
