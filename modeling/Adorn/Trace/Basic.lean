import Adorn.Decorator.Render

/-!
# Traces

What synthesis decides on the way is recorded as data: a `Traced` value
carries the entries that were recorded while it was computed, in order.
An entry is an event or the beginning or end of a span, and an event
knows the span it was recorded in.
-/

namespace Adorn

/-- Levels of detail, from the least to the most verbose. -/
inductive Level where
  | error
  | warn
  | info
  | debug
  | trace
  deriving DecidableEq

def Level.rank : Level → Nat
  | .error => 1
  | .warn => 2
  | .info => 3
  | .debug => 4
  | .trace => 5

def Level.text : Level → String
  | .error => "ERROR"
  | .warn => "WARN"
  | .info => "INFO"
  | .debug => "DEBUG"
  | .trace => "TRACE"

def Level.all : List Level :=
  [.error, .warn, .info, .debug, .trace]

/-- What can be recorded. -/
inductive Event where
  /-- A token that is blank was dropped. -/
  | dropped (raw : String)
  /-- A call rule left a volatile member alone. -/
  | callSkipped (decorator : String)
  /-- A volatile member was left alone altogether. -/
  | memberSkipped
  | synthesized (decorator : Spec)
  /-- A log was asked for while another one was already in place. -/
  | alreadyInstalled

/-- The work on one member, which has so many names. -/
structure Span where
  nameCount : Nat
  deriving DecidableEq

inductive Entry where
  | opened (span : Span)
  | recorded (inside : Option Span) (event : Event)
  | closed (span : Span)

/-- A value with the entries recorded while it was computed. -/
structure Traced (α : Type) where
  value : α
  entries : List Entry

namespace Traced

variable {α : Type}

instance : Monad Traced where
  pure a := ⟨a, []⟩
  map f x := ⟨f x.value, x.entries⟩
  bind x f :=
    let y := f x.value
    ⟨y.value, x.entries ++ y.entries⟩

/-- A result with its entries, or why there is none; the entries of a failure are left behind. -/
def accepted {ε : Type} (x : Traced (Except ε α)) : Except ε (Traced α) :=
  x.value.map fun a => ⟨a, x.entries⟩

/-- Records an event. -/
def record (e : Event) : Traced Unit :=
  ⟨(), [.recorded none e]⟩

/-- Records events one after another. -/
def recordAll (es : List Event) : Traced Unit :=
  ⟨(), es.map (.recorded none)⟩

end Traced

/-- Moves an entry into a span, unless it is in one. -/
def Entry.into (span : Span) : Entry → Entry
  | .recorded none e => .recorded (some span) e
  | x => x

/-- Computes a value inside a span. -/
def Traced.within {α : Type} (span : Span) (x : Traced α) : Traced α :=
  ⟨x.value, .opened span :: x.entries.map (Entry.into span) ++ [.closed span]⟩

end Adorn
