import Adorn.Decorator.Basic
import Adorn.Expr.Decode
import Adorn.Expr.Encode

/-!
# Decorators as JSON
-/

namespace Adorn

open Json Wire

def Spec.toValue (s : Spec) : Value :=
  .object [("name", .string s.name),
    ("arguments", match s.arguments with
      | none => .null
      | some es => .array (Expr.toValues es))]

def Spec.decoder : Decoder Spec := do
  let (name, arguments, ()) ← Decoder.record "DecoratorSpec"
    [.required "name" Decoder.text,
     .omissible "arguments" (Decoder.nullable (Decoder.list Expr.decoder)) none]
  return ⟨name, arguments⟩

def Decorators.toValue (d : Decorators) : Value :=
  .array (d.toList.map Spec.toValue)

end Adorn
