import Adorn.Expr.Basic

/-!
# Building expressions on a stack

Expressions are put together from the inside out: a step pushes a leaf,
or pops as many expressions as it needs and pushes what they make. The
deepest of the popped expressions comes first. A step that needs more
than the stack holds does nothing.
-/

namespace Adorn.Expr.Builder

/-- Ways of wrapping an expression in another one. -/
inductive Wrap where
  | array
  | call
  | argument
  | access
  | object

def Wrap.apply : Wrap → Expr → Expr
  | .array, e => .array [e]
  | .call, e => .call e []
  | .argument, e => .call (.identifier "f") [e]
  | .access, e => .access e "p"
  | .object, e => .object [.mk (.identifier "k") e]

inductive Step where
  | push (e : Expr)
  | array (count : Nat)
  | call (count : Nat)
  | access (property : String)
  | object (keys : List Key)
  | nest (wrap : Wrap) (times : Nat)

/-- Expressions with the last one pushed in front. -/
abbrev Stack := List Expr

/-- Takes `count` expressions, the deepest of them first. -/
def pop (count : Nat) (s : Stack) : Option (List Expr × Stack) :=
  if count ≤ s.length then some ((s.take count).reverse, s.drop count) else none

/-- One step; `none` if the stack does not hold enough. -/
def step (s : Stack) : Step → Option Stack
  | .push e => some (e :: s)
  | .array count => do
    let (es, s) ← pop count s
    return .array es :: s
  | .call count => do
    match ← pop (count + 1) s with
    | (f :: es, s) => return .call f es :: s
    | ([], _) => none
  | .access property => do
    match s with
    | e :: s => return .access e property :: s
    | [] => none
  | .object keys => do
    let (es, s) ← pop keys.length s
    return .object (keys.zipWith Property.mk es) :: s
  | .nest wrap times => do
    match s with
    | e :: s => return Nat.repeat wrap.apply times e :: s
    | [] => none

end Adorn.Expr.Builder
