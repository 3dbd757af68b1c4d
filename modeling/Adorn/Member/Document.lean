import Adorn.Expr.Decode
import Adorn.Expr.Encode
import Adorn.Member.Basic

/-!
# Documents

Members and options arrive as JSON documents. A member document is read
as a whole before anything is made of it: then its modifiers are
checked, and only then are its names resolved. What is recorded on the
way is kept, whether or not the document is refused in the end.
-/

namespace Adorn

open Json Wire

/-- Why a document is refused. -/
inductive DocumentError where
  | malformed (cause : Json.Error)
  /-- The property of a modifier is blank; modifiers are counted from zero. -/
  | emptyModifier (index : Nat)

def DocumentError.message : DocumentError → String
  | .malformed e => "malformed descriptor document: " ++ e.message
  | .emptyModifier i => "modifier #" ++ toString i ++ " has an empty property name"

/-- Runs a decoder on a document. -/
def Wire.Decoder.document {α : Type} (d : Decoder α) (text : String) : Except DocumentError α :=
  (d.run text).mapError .malformed

/-! ## Parts of a member -/

def Modifier.toValue (m : Modifier) : Value :=
  .object [("property", .string m.property), ("args", .array (Expr.toValues m.args))]

def Modifier.decoder : Decoder Modifier := do
  let (property, args, ()) ← Decoder.record "Modifier"
    [.required "property" Decoder.text,
     .optional "args" (Decoder.orDefault (Decoder.list Expr.decoder) []) []]
  return { property, args }

def ClassProperty.toValue (p : ClassProperty) : Value :=
  .object [("name", .string p.name), ("value", p.value.toValue)]

def ClassProperty.decoder : Decoder ClassProperty := do
  let (name, value, ()) ← Decoder.record "ClassLevelProperty"
    [.required "name" Decoder.text, .required "value" Expr.decoder]
  return { name, value }

/-! ## Members -/

namespace Member

/-- A member as a document describes it, with its names unresolved. -/
structure Draft where
  names : List (Option String)
  args : List Expr
  nonLiteral : Bool
  isVolatile : Bool
  modifiers : List Modifier
  props : Option (List String)

def Draft.decoder : Decoder Draft := do
  let (names, args, nonLiteral, isVolatile, modifiers, props, ()) ←
    Decoder.record "RawMemberDescriptor"
      [.required "decoratorNames"
         (Decoder.orDefault (Decoder.list (Decoder.nullable Decoder.text)) []),
       .optional "callExprArgs" (Decoder.orDefault (Decoder.list Expr.decoder) []) [],
       .optional "hasNonLiteralArg" (Decoder.orDefault Decoder.flag false) false,
       .optional "isVolatileReadOnly" (Decoder.orDefault Decoder.flag false) false,
       .optional "modifiers" (Decoder.orDefault (Decoder.list Modifier.decoder) []) [],
       .optional "propList" (Decoder.nullable (Decoder.list Decoder.text)) none]
  return { names, args, nonLiteral, isVolatile, modifiers, props }

/-- The first modifier whose property is blank. -/
def Draft.emptyModifier? (d : Draft) : Option Nat :=
  d.modifiers.findIdx? fun m => Text.isBlankText m.property

/-- Resolves the names of a draft; a null among them is no name at all. -/
def Draft.resolve (o : Options) (d : Draft) : Traced Member := do
  let m ← Member.ofNames o (d.names.filterMap id)
  return { m with
    args := d.args
    nonLiteral := d.nonLiteral
    isVolatile := d.isVolatile
    modifiers := d.modifiers
    props := d.props }

/-- The member of a draft, unless one of its modifiers is blank. -/
def Draft.toMember (o : Options) (d : Draft) : ExceptT DocumentError Traced Member :=
  match d.emptyModifier? with
  | some i => throw (.emptyModifier i)
  | none => d.resolve o

/-- Reads a document. A refusal, like a member, comes with what was recorded before it. -/
def read (o : Options) (text : String) : Traced (Except DocumentError Member) :=
  ExceptT.run do
    let d ← Draft.decoder.document text
    d.toMember o

/-- The member that a document describes. -/
def ofText (o : Options) (text : String) : Except DocumentError (Traced Member) :=
  (read o text).accepted

end Member

/-- The options that a document describes. -/
def Options.ofText (text : String) : Except DocumentError Options :=
  Options.decoder.document text

end Adorn
