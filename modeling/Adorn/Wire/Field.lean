import Adorn.Json.Error

/-!
# Fields of a record

A record is described by the list of its fields in the order of their
declaration. A `Tuple` holds a value for each field; a `Draft` holds
those values that have turned up so far, while the entries of an object
come by in any order. `Draft.place` says what a key means to a draft
and `Draft.finish` turns a draft into a tuple once there are no more
entries.
-/

namespace Adorn.Wire

open Json

/-- A field whose value is read by `read`. In an object the field may be left out if there is an
`absent` value; a positional list may end before it if there is a `cut` value. -/
structure Field (m : Type → Type) where
  key : String
  Ty : Type
  read : m Ty
  absent : Option Ty
  cut : Option Ty

namespace Field

variable {m : Type → Type} {α : Type}

/-- A field that must be there. -/
abbrev required (key : String) (read : m α) : Field m :=
  { key, Ty := α, read, absent := none, cut := none }

/-- A field with a default. -/
abbrev optional (key : String) (read : m α) (default : α) : Field m :=
  { key, Ty := α, read, absent := some default, cut := some default }

/-- A field with a default that only an object may leave out. -/
abbrev omissible (key : String) (read : m α) (default : α) : Field m :=
  { key, Ty := α, read, absent := some default, cut := none }

end Field

variable {m : Type → Type}

/-- A value for each field. -/
@[reducible] def Tuple : List (Field m) → Type
  | [] => Unit
  | f :: fs => f.Ty × Tuple fs

/-- The values of those fields that have been read. -/
@[reducible] def Draft : List (Field m) → Type
  | [] => Unit
  | f :: fs => Option f.Ty × Draft fs

/-- What a key means to a draft: no field has it, its field has been read, or its field is still free
and can be stored. -/
inductive Place (m : Type → Type) (δ : Type) where
  | unknown
  | taken
  | free (field : Field m) (store : field.Ty → δ)

namespace Draft

def empty : (fs : List (Field m)) → Draft fs
  | [] => ()
  | _ :: fs => (none, empty fs)

def place : (fs : List (Field m)) → (key : String) → Draft fs → Place m (Draft fs)
  | [], _, _ => .unknown
  | f :: fs, key, (x, d) =>
    if key = f.key then
      if x.isSome then .taken else .free f fun v => (some v, d)
    else
      match place fs key d with
      | .unknown => .unknown
      | .taken => .taken
      | .free g store => .free g fun v => (x, store v)

/-- Fills in the defaults. Of several missing fields the first one declared is reported. -/
def finish : (fs : List (Field m)) → Draft fs → Except Error (Tuple fs)
  | [], _ => .ok ()
  | f :: fs, (x, d) =>
    match x, f.absent with
    | some v, _ | none, some v => do return (v, ← finish fs d)
    | none, none => .error (.missingField f.key)

end Draft

end Adorn.Wire
