import Adorn.Synthesis.Rules

/-!
# Synthesis

The decorators of a member are those of its names, one after another,
each name under the rule of its category; blank names give nothing and
volatile members are left alone. All of it happens inside one span, and
every decorator is recorded.

The decorators of a class come from those of its properties that the
options list.
-/

namespace Adorn

/-- The decorators of one name of a member. -/
def Member.decoratorsFor (m : Member) (n : Name) : Traced (List Spec) := do
  if Text.isBlankText n.text then return []
  let t := Text.trim n.text
  let specs ← match n with
    | .binding _ => pure (Rules.bindingDecorators t m)
    | .marker _ => pure (Rules.markerDecorators (some t))
    | .call _ => Rules.callDecorators t m
  Traced.recordAll (specs.map .synthesized)
  return specs

def Member.decoratorsForAll (m : Member) : List Name → Traced (List Spec)
  | [] => pure []
  | n :: ns => do
    let specs ← m.decoratorsFor n
    (specs ++ ·) <$> m.decoratorsForAll ns

/-- The decorators of a member. -/
def Member.synthesize (m : Member) : Traced (List Spec) :=
  Traced.within ⟨m.names.length⟩ do
    if m.isVolatile then
      Traced.record .memberSkipped
      return []
    else
      m.decoratorsForAll m.names

/-- The decorators of a class that come from its properties. -/
def Options.classDecorators (o : Options) (props : List ClassProperty) : List Spec :=
  (props.filter fun p => o.isClassProp p.name).map fun p => Rules.classDecorator p.name p

/-- The decorator that every class gets. -/
def Options.classicDecorator (o : Options) : Spec :=
  .identifier o.classic

end Adorn
