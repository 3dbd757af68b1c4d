import Adorn.Log.Writer

/-!
# Installing a log

A host has at most one subscriber. The first one that is asked for
stays; a later request is turned down, and the one in place is told so
if the request came from the variables. Entries recorded before there
is a subscriber are lost.
-/

namespace Adorn.Log

structure Host where
  /-- The settings of the subscriber in place. -/
  installed : Option Settings
  /-- The entries that were recorded since there is a subscriber. -/
  seen : List Entry

namespace Host

def start : Host :=
  ⟨none, []⟩

/-- Hands entries to the subscriber in place. -/
def receive (h : Host) (entries : List Entry) : Host :=
  match h.installed with
  | none => h
  | some _ => { h with seen := h.seen ++ entries }

/-- Installs a subscriber, unless there is one; tells whether it was installed. -/
def install (h : Host) (s : Settings) : Bool × Host :=
  match h.installed with
  | none => (true, { h with installed := some s })
  | some _ => (false, h)

/-- Installs the subscriber that the variables ask for; tells whether it was installed. -/
def init (h : Host) (lookup : String → Option String) : Bool × Host :=
  match Settings.ofLookup? lookup with
  | none => (false, h)
  | some s =>
    match h.install s with
    | (true, k) => (true, k)
    | (false, k) => (false, k.receive [.recorded none .alreadyInstalled])

/-- A request for a subscriber: with given settings, or with those that variables ask for. -/
inductive Request where
  | install (settings : Settings)
  | init (lookup : String → Option String)

def step (h : Host) : Request → Bool × Host
  | .install s => h.install s
  | .init lookup => h.init lookup

/-- Answers requests in turn. -/
def run : Host → List Request → List Bool × Host
  | h, [] => ([], h)
  | h, r :: rs =>
    let (b, k) := h.step r
    let (bs, l) := k.run rs
    (b :: bs, l)

/-- What the log of a host holds. -/
def output (h : Host) : Output :=
  match h.installed with
  | none => .lines []
  | some s => s.subscriber.write h.seen

end Host

end Adorn.Log
