import Adorn.Wire.Field

/-!
# Decoding from a tree

What stands inside a tagged value is read into a tree first, because
its type depends on a tag that may come last. The functions here decode
such a tree. Entries keep the order of the document, so that the first
of several faults is still the one reported.
-/

namespace Adorn.Wire

open Json

/-- Decodes a tree. -/
abbrev Buffer (α : Type) := Value → Except Error α

namespace Buffer

variable {α : Type}

def text : Buffer String
  | .scalar (.string s) => .ok s
  | v => .error (.wrongType v.form .string)

def flag : Buffer Bool
  | .scalar (.boolean b) => .ok b
  | v => .error (.wrongType v.form .boolean)

def nullable (b : Buffer α) : Buffer (Option α)
  | .scalar .null => .ok none
  | v => some <$> b v

def list (b : Buffer α) : Buffer (List α)
  | .array vs => vs.mapM b
  | v => .error (.wrongType v.form .sequence)

end Buffer

/-- The parts of a record: listed in the order of declaration, or keyed. -/
inductive Body where
  | listed (items : List Value)
  | keyed (entries : List (String × Value))

namespace Body

/-- The parts of a record that is not tagged. -/
def ofRecord (name : String) : Value → Except Error Body
  | .array vs => .ok (.listed vs)
  | .object es => .ok (.keyed es)
  | v => .error (.wrongType v.form (.record name))

/-- Reads listed parts; `whole` is the whole list and `fs` the fields from `index` on. -/
def listedFields (title : Title) (total : Nat) (whole : Nat) :
    (fs : List (Field Buffer)) → (index : Nat) → List Value → Except Error (Tuple fs)
  | [], _, [] => .ok ()
  | [], _, _ :: _ => .error (.tooLong whole total)
  | _ :: _, index, [] => .error (.tooShort index title total)
  | f :: fs, index, v :: vs => do
    let x ← f.read v
    return (x, ← listedFields title total whole fs (index + 1) vs)

/-- Reads keyed parts into a draft. -/
def keyedFields : (fs : List (Field Buffer)) → Draft fs → List (String × Value) →
    Except Error (Draft fs)
  | _, d, [] => .ok d
  | fs, d, (k, v) :: es =>
    match Draft.place fs k d with
    | .unknown => keyedFields fs d es
    | .taken => .error (.repeatedField k)
    | .free f store => do keyedFields fs (store (← f.read v)) es

/-- Reads the fields of a record from its parts. -/
def fields (title : Title) (fs : List (Field Buffer)) : Body → Except Error (Tuple fs)
  | .listed vs => listedFields title fs.length vs.length fs 0 vs
  | .keyed es => do Draft.finish fs (← keyedFields fs (Draft.empty fs) es)

/-- The parts of a kind without fields: a list must be empty, keys are of no interest. -/
def nothing : Body → Except Error Unit
  | .listed [] | .keyed _ => .ok ()
  | .listed vs => .error (.tooLong vs.length 0)

end Body

end Adorn.Wire
