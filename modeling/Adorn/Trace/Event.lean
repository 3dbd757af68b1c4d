import Adorn.Trace.Basic

/-!
# What an event shows

Level, place, message and fields of each event. A field is either a raw
text, which a log line shows between quotes, or a text that is shown as
it is.
-/

namespace Adorn

/-- The value of a field. -/
inductive Shown where
  | quoted (text : String)
  | plain (text : String)
  deriving DecidableEq

def Shown.text : Shown → String
  | .quoted t | .plain t => t

namespace Event

def level : Event → Level
  | .synthesized _ => .trace
  | _ => .debug

/-- The place in the program that an event belongs to. -/
def target : Event → String
  | .dropped _ => "declass_synth::descriptor"
  | .callSkipped _ => "declass_synth::rules"
  | .memberSkipped | .synthesized _ => "declass_synth::dispatch"
  | .alreadyInstalled => "declass::tracing_config"

def message : Event → String
  | .dropped _ => "dropping unresolvable decorator name"
  | .callSkipped _ | .memberSkipped => "volatile read-only member left undecorated"
  | .synthesized _ => "synthesized decorator"
  | .alreadyInstalled => "global subscriber already installed"

def fields : Event → List (String × Shown)
  | .dropped raw => [("raw", .quoted raw)]
  | .callSkipped name => [("decorator", .quoted name)]
  | .memberSkipped => []
  | .synthesized s => [("decorator", .plain s.render)]
  | .alreadyInstalled =>
    [("err", .plain "a global default trace dispatcher has already been set")]

end Event

namespace Span

def name : String := "create_instance_prop_decorators"

def level : Level := .trace

def target : String := "declass_synth::dispatch"

end Span

end Adorn
