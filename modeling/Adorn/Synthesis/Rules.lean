import Adorn.Member.Basic

/-!
# Rules

One rule for each way in which a name turns into decorators. A rule
gives the decorators of a single name, in the order in which they are
written.
-/

namespace Adorn.Rules

/-- A property of a class is a call with the elements of its array, or with its one value. -/
def classDecorator (name : String) (prop : ClassProperty) : Spec :=
  .call name (prop.value.elements?.getD [prop.value])

/-- A modifier is a bare name, or a call if it has arguments. -/
def modifierDecorator (m : Modifier) : Spec :=
  if m.args.isEmpty then .identifier m.property else .call m.property m.args

/-- A called name, followed by the modifiers of the member. -/
def callDecorators (name : String) (m : Member) : Traced (List Spec) :=
  if m.isVolatile then do
    Traced.record (.callSkipped name)
    return []
  else
    return .call name m.decoratorArgs :: m.modifiers.map modifierDecorator

/-- A bare name. -/
def markerDecorators (name : Option String) : List Spec :=
  [.identifier (name.getD defaultMarker)]

/-- A binding is called with its properties, or stands bare if it has none. -/
def bindingDecorators (name : String) (m : Member) : List Spec :=
  match m.props with
  | none | some [] => [.identifier name]
  | some props => [.call name (props.map .string)]

end Adorn.Rules
