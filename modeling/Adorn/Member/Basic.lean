import Adorn.Name
import Adorn.Trace.Basic

/-!
# Members

What synthesis needs to know about one member of a class: the names of
its decorators, the arguments of its defining call, the modifiers
chained behind that call, and two flags. Where the last argument of the
call is no literal it is the body of the member, and only the arguments
before it belong to the decorator.
-/

namespace Adorn

/-- A modifier chained behind a defining call. -/
structure Modifier where
  property : String
  args : List Expr
  deriving DecidableEq

/-- A property of a whole class. -/
structure ClassProperty where
  name : String
  value : Expr
  deriving DecidableEq

structure Member where
  names : List Name
  args : List Expr
  /-- Whether the last argument is the body of the member. -/
  nonLiteral : Bool
  /-- A volatile read-only member is never decorated. -/
  isVolatile : Bool
  modifiers : List Modifier
  props : Option (List String)
  deriving DecidableEq

namespace Member

def ofResolved (names : List Name) : Member where
  names := names
  args := []
  nonLiteral := false
  isVolatile := false
  modifiers := []
  props := none

def empty : Member :=
  .ofResolved []

instance : Inhabited Member := ⟨empty⟩

/-- Resolves tokens in their order; the blank ones are dropped and recorded. -/
def resolve (o : Options) : List String → Traced (List Name)
  | [] => pure []
  | raw :: raws => do
    match Name.classify? o raw with
    | some n => (n :: ·) <$> resolve o raws
    | none =>
      Traced.record (.dropped raw)
      resolve o raws

/-- A member with nothing but names. -/
def ofNames (o : Options) (raws : List String) : Traced Member := do
  return .ofResolved (← resolve o raws)

/-- Sets the arguments; whether there is a body is read off the last one. -/
def withArgs (m : Member) (args : List Expr) : Member :=
  { m with
    args := args
    nonLiteral := match args.getLast? with
      | some e => !e.isLiteral
      | none => false }

def withModifier (m : Member) (modifier : Modifier) : Member :=
  { m with modifiers := m.modifiers ++ [modifier] }

def withProps (m : Member) (props : List String) : Member :=
  { m with props := some props }

def withVolatile (m : Member) : Member :=
  { m with isVolatile := true }

/-- The arguments that belong to the decorator. -/
def decoratorArgs (m : Member) : List Expr :=
  if m.nonLiteral then m.args.dropLast else m.args

/-- The argument that is the body of the member. -/
def body? (m : Member) : Option Expr :=
  if m.nonLiteral then m.args.getLast? else none

end Member

end Adorn
