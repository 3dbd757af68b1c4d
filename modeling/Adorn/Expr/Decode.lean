import Adorn.Expr.Kind

/-!
# Reading expressions

Inside an expression everything is decoded from a tree, so the only
recursion is from a tree to the trees inside it; the nesting of the
tree bounds it. The outermost expression, key or property of a document
is read straight off the text.
-/

namespace Adorn

open Json Wire

/-! ## From a tree -/

/-- A key of a known kind, where `expr` decodes a computed one. -/
def Key.ofBody (expr : Buffer Expr) (kind : Key.Kind) (body : Body) : Except Error Key := do
  match kind with
  | .identifier =>
    let (n, ()) ← body.fields (Key.kinds.title kind) [.required "name" Buffer.text]
    return .identifier n
  | .stringLiteral =>
    let (s, ()) ← body.fields (Key.kinds.title kind) [.required "value" Buffer.text]
    return .string s
  | .computed =>
    let (e, ()) ← body.fields (Key.kinds.title kind) [.required "expr" expr]
    return .computed e

def Key.ofValueWith (expr : Buffer Expr) : Buffer Key := fun v => do
  let (kind, body) ← Key.kinds.split v
  Key.ofBody expr kind body

def Property.ofValueWith (expr : Buffer Expr) : Buffer Property := fun v => do
  let body ← Body.ofRecord "ObjectProperty" v
  let (k, e, ()) ← body.fields (.record "ObjectProperty")
    [.required "key" (Key.ofValueWith expr), .required "value" expr]
  return .mk k e

/-- An expression of a known kind, where `expr` decodes the expressions inside it. -/
def Expr.ofBody (expr : Buffer Expr) (kind : Expr.Kind) (body : Body) : Except Error Expr := do
  let title := Expr.kinds.title kind
  match kind with
  | .stringLiteral =>
    let (s, ()) ← body.fields title [.required "value" Buffer.text]
    return .string s
  | .numericLiteral =>
    let (n, ()) ← body.fields title [.required "value" Buffer.text]
    return .number n
  | .booleanLiteral =>
    let (b, ()) ← body.fields title [.required "value" Buffer.flag]
    return .boolean b
  | .nullLiteral =>
    body.nothing
    return .null
  | .templateLiteral =>
    let (q, ()) ← body.fields title [.required "quasi" Buffer.text]
    return .template q
  | .identifier =>
    let (n, ()) ← body.fields title [.required "name" Buffer.text]
    return .identifier n
  | .arrayLiteral =>
    let (es, ()) ← body.fields title [.required "elements" (Buffer.list expr)]
    return .array es
  | .objectLiteral =>
    let (ps, ()) ← body.fields title
      [.required "properties" (Buffer.list (Property.ofValueWith expr))]
    return .object ps
  | .callExpr =>
    let (f, es, ()) ← body.fields title
      [.required "callee" expr, .required "arguments" (Buffer.list expr)]
    return .call f es
  | .propertyAccess =>
    let (e, p, ()) ← body.fields title
      [.required "object" expr, .required "property" Buffer.text]
    return .access e p
  | .functionExpr =>
    let (n, ps, b, ()) ← body.fields title
      [.omissible "name" (Buffer.nullable Buffer.text) none,
       .required "params" (Buffer.list Buffer.text), .required "body" Buffer.text]
    return .function n ps b
  | .arrowFunction =>
    let (ps, b, ()) ← body.fields title
      [.required "params" (Buffer.list Buffer.text), .required "body" Buffer.text]
    return .arrow ps b
  | .raw =>
    let (t, ()) ← body.fields title [.required "text" Buffer.text]
    return .raw t

/-- Decodes an expression from a tree with fewer than `levels` levels of nesting. -/
def Expr.ofValueWithin : (levels : Nat) → Buffer Expr
  | 0, _ => .error .nestedTooDeep
  | levels + 1, v => do
    let (kind, body) ← Expr.kinds.split v
    Expr.ofBody (Expr.ofValueWithin levels) kind body

def Expr.ofValue : Buffer Expr := fun v =>
  Expr.ofValueWithin (v.nesting + 1) v

/-! ## Straight off the text -/

def Expr.decoder : Decoder Expr := do
  let (kind, body) ← Expr.kinds.decode
  Expr.ofBody Expr.ofValue kind body

def Key.decoder : Decoder Key := do
  let (kind, body) ← Key.kinds.decode
  Key.ofBody Expr.ofValue kind body

def Property.decoder : Decoder Property := do
  let (k, e, ()) ← Decoder.record "ObjectProperty"
    [.required "key" Key.decoder, .required "value" Expr.decoder]
  return .mk k e

end Adorn
