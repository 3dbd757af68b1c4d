import Adorn.Expr.Kind
import Adorn.Json.Printer

/-!
# Expressions as JSON

An expression is an object with its kind first and its fields in the
order of declaration, none left out.
-/

namespace Adorn

open Json

/-- A tagged object. -/
def taggedObject (kind : String) (fields : List (String × Value)) : Value :=
  .object ((Wire.tagKey, .string kind) :: fields)

def stringArray (ss : List String) : Value :=
  .array (ss.map .string)

def nullableString : Option String → Value
  | none => .null
  | some s => .string s

mutual

def Expr.toValue : Expr → Value
  | .string s => taggedObject "stringLiteral" [("value", .string s)]
  | .number n => taggedObject "numericLiteral" [("value", .string n)]
  | .boolean b => taggedObject "booleanLiteral" [("value", .boolean b)]
  | .null => taggedObject "nullLiteral" []
  | .template q => taggedObject "templateLiteral" [("quasi", .string q)]
  | .identifier n => taggedObject "identifier" [("name", .string n)]
  | .array es => taggedObject "arrayLiteral" [("elements", .array (Expr.toValues es))]
  | .object ps => taggedObject "objectLiteral" [("properties", .array (Property.toValues ps))]
  | .call f es =>
    taggedObject "callExpr" [("callee", f.toValue), ("arguments", .array (Expr.toValues es))]
  | .access e p => taggedObject "propertyAccess" [("object", e.toValue), ("property", .string p)]
  | .function n ps b =>
    taggedObject "functionExpr"
      [("name", nullableString n), ("params", stringArray ps), ("body", .string b)]
  | .arrow ps b => taggedObject "arrowFunction" [("params", stringArray ps), ("body", .string b)]
  | .raw t => taggedObject "raw" [("text", .string t)]

def Expr.toValues : List Expr → List Value
  | [] => []
  | e :: es => e.toValue :: Expr.toValues es

def Property.toValue : Property → Value
  | .mk k e => .object [("key", k.toValue), ("value", e.toValue)]

def Property.toValues : List Property → List Value
  | [] => []
  | p :: ps => p.toValue :: Property.toValues ps

def Key.toValue : Key → Value
  | .identifier n => taggedObject "identifier" [("name", .string n)]
  | .string s => taggedObject "stringLiteral" [("value", .string s)]
  | .computed e => taggedObject "computed" [("expr", e.toValue)]

end

end Adorn
