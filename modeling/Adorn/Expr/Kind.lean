import Adorn.Expr.Basic
import Adorn.Wire.Tagged

/-!
# Kinds of expressions and keys

The names under which expressions and the keys of objects travel in a
document. The order of the kinds is part of the format: a kind can also
be referred to by its number.
-/

namespace Adorn

namespace Expr

inductive Kind where
  | stringLiteral
  | numericLiteral
  | booleanLiteral
  | nullLiteral
  | templateLiteral
  | identifier
  | arrayLiteral
  | objectLiteral
  | callExpr
  | propertyAccess
  | functionExpr
  | arrowFunction
  | raw
  deriving DecidableEq

def Kind.name : Kind → String
  | .stringLiteral => "stringLiteral"
  | .numericLiteral => "numericLiteral"
  | .booleanLiteral => "booleanLiteral"
  | .nullLiteral => "nullLiteral"
  | .templateLiteral => "templateLiteral"
  | .identifier => "identifier"
  | .arrayLiteral => "arrayLiteral"
  | .objectLiteral => "objectLiteral"
  | .callExpr => "callExpr"
  | .propertyAccess => "propertyAccess"
  | .functionExpr => "functionExpr"
  | .arrowFunction => "arrowFunction"
  | .raw => "raw"

def kinds : Wire.Tagged Kind where
  type := "Expr"
  kinds := [.stringLiteral, .numericLiteral, .booleanLiteral, .nullLiteral, .templateLiteral,
    .identifier, .arrayLiteral, .objectLiteral, .callExpr, .propertyAccess, .functionExpr,
    .arrowFunction, .raw]
  name := Kind.name

end Expr

namespace Key

inductive Kind where
  | identifier
  | stringLiteral
  | computed
  deriving DecidableEq

def Kind.name : Kind → String
  | .identifier => "identifier"
  | .stringLiteral => "stringLiteral"
  | .computed => "computed"

def kinds : Wire.Tagged Kind where
  type := "PropertyKey"
  kinds := [.identifier, .stringLiteral, .computed]
  name := Kind.name

end Key

end Adorn
