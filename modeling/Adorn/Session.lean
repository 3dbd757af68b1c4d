import Adorn.Decorator.Wire
import Adorn.Member.Document
import Adorn.Synthesis.Dispatch

/-!
# Sessions

A session works step by step on one set of options, one member, one
decorated member and one piece of written text. Every step has an
answer; a step that fails leaves the session as it was.
-/

namespace Adorn

structure Session where
  options : Options
  member : Member
  decorated : Decorated String
  /-- The text written so far. -/
  written : String

namespace Session

def start (o : Options) : Session where
  options := o
  member := .empty
  decorated := .bare ""
  written := ""

inductive Step where
  | readOptions (text : String)
  | addBinding (name : String)
  | addMarker (name : String)
  | setNames (raws : List String)
  | readMember (text : String)
  | setArgs (args : List Expr)
  | addModifier (modifier : Modifier)
  | setProps (props : List String)
  | setVolatile
  | setNonLiteral (flag : Bool)
  | synthesize
  | bare (name : String)
  | attachSynthesized
  | attachSpecs (specs : List Spec)
  | parts
  | writeExpr (expr : Expr)
  | writeSpec (spec : Spec)
  | writeDecorators
  | finish

inductive Answer where
  | options (o : Options)
  | member (m : Member)
  | specs (ss : List Spec)
  | decorated (d : Decorated String)
  | parts (name : String) (ss : List Spec)
  | nothing
  | text (t : String)
  | refused (e : DocumentError)

def setOptions (s : Session) (o : Options) : Answer × Session :=
  (.options o, { s with options := o })

def setMember (s : Session) (m : Member) : Answer × Session :=
  (.member m, { s with member := m })

def setDecorated (s : Session) (d : Decorated String) : Answer × Session :=
  (.decorated d, { s with decorated := d })

def write (s : Session) (t : String) : Answer × Session :=
  (.nothing, { s with written := s.written ++ t })

/-- One step of a session. -/
def step (s : Session) : Step → Answer × Session
  | .readOptions text =>
    match Options.ofText text with
    | .ok o => s.setOptions o
    | .error e => (.refused e, s)
  | .addBinding name => s.setOptions (s.options.addBinding name)
  | .addMarker name => s.setOptions (s.options.addMarker name)
  | .setNames raws => s.setMember (Member.ofNames s.options raws).value
  | .readMember text =>
    match Member.ofText s.options text with
    | .ok m => s.setMember m.value
    | .error e => (.refused e, s)
  | .setArgs args => s.setMember (s.member.withArgs args)
  | .addModifier m => s.setMember (s.member.withModifier m)
  | .setProps props => s.setMember (s.member.withProps props)
  | .setVolatile => s.setMember s.member.withVolatile
  | .setNonLiteral flag => s.setMember { s.member with nonLiteral := flag }
  | .synthesize => (.specs s.member.synthesize.value, s)
  | .bare name => s.setDecorated (.bare name)
  | .attachSynthesized => s.setDecorated (s.decorated.attach s.member.synthesize.value)
  | .attachSpecs specs => s.setDecorated (s.decorated.attach specs)
  | .parts => (.parts s.decorated.member s.decorated.toList, s)
  | .writeExpr e => s.write e.render
  | .writeSpec spec => s.write spec.render
  | .writeDecorators => s.write ((s.decorated.decorators.map Decorators.render).getD "")
  | .finish => (.text s.written, { s with written := "" })

/-- The answers to a list of steps. -/
def run (s : Session) : List Step → List Answer
  | [] => []
  | x :: xs =>
    let (a, t) := s.step x
    a :: t.run xs

end Session

end Adorn
