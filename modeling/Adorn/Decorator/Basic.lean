import Adorn.Expr.Basic

/-!
# Decorators

A decorator is a name, bare or called with arguments; a call without
arguments is not the same as a bare name. What is written in front of a
member is a list of decorators that is never empty: a member has such a
list or none at all, and attaching no decorators leaves it as it was.
-/

namespace Adorn

/-- A decorator: `arguments` is `none` for a bare name. -/
structure Spec where
  name : String
  arguments : Option (List Expr)
  deriving DecidableEq

namespace Spec

/-- A bare name. -/
def identifier (name : String) : Spec :=
  ⟨name, none⟩

def call (name : String) (arguments : List Expr) : Spec :=
  ⟨name, some arguments⟩

def isCall (s : Spec) : Bool :=
  s.arguments.isSome

/-- The arguments; a bare name has none. -/
def args (s : Spec) : List Expr :=
  s.arguments.getD []

end Spec

/-- A list of decorators that is not empty, outermost first. -/
structure Decorators where
  first : Spec
  others : List Spec
  deriving DecidableEq

namespace Decorators

def toList (d : Decorators) : List Spec :=
  d.first :: d.others

def ofList? : List Spec → Option Decorators
  | [] => none
  | s :: ss => some ⟨s, ss⟩

def length (d : Decorators) : Nat :=
  d.others.length + 1

end Decorators

/-- A member with the decorators written in front of it, if any. -/
structure Decorated (α : Type) where
  member : α
  decorators : Option Decorators
  deriving DecidableEq

namespace Decorated

variable {α : Type}

def bare (member : α) : Decorated α :=
  ⟨member, none⟩

def isDecorated (d : Decorated α) : Bool :=
  d.decorators.isSome

def toList (d : Decorated α) : List Spec :=
  (d.decorators.map Decorators.toList).getD []

/-- Replaces the decorators of a member, unless there is nothing to replace them with. -/
def attach (d : Decorated α) (specs : List Spec) : Decorated α :=
  match Decorators.ofList? specs with
  | some ds => { d with decorators := some ds }
  | none => d

end Decorated

end Adorn
