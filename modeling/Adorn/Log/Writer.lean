import Adorn.Json.Value
import Adorn.Log.Filter
import Adorn.Log.Settings
import Adorn.Text.Quoted

/-!
# Log output

A subscriber lets the enabled entries of a trace through and writes
them down in its format: as plain lines, as a tree in which the events
of a span hang under it, or as one JSON object for each event. A span
that is not enabled is not shown, but its events may be.

Lines and trees are printed in rows, one after another, and what has
been printed is read line by line. A row of a plain log holds a whole
event, which may take several lines; a row of a tree holds one line of
an event.
-/

namespace Adorn.Log

/-- Whoever receives the entries: a format and a filter. -/
structure Subscriber where
  format : Format
  filter : Filter

def Settings.subscriber (s : Settings) : Subscriber :=
  ⟨s.format, .parse s.directives⟩

namespace Subscriber

def spanEnabled (s : Subscriber) : Bool :=
  s.filter.enabled Span.target Span.level

/-- Whether a subscriber wants to see an entry. -/
def enabled (s : Subscriber) : Entry → Bool
  | .opened _ | .closed _ => s.spanEnabled
  | .recorded _ e => s.filter.enabled e.target e.level

/-- The span of an event, if it is shown. -/
def shownSpan (s : Subscriber) (inside : Option Span) : Option Span :=
  if s.spanEnabled then inside else none

end Subscriber

/-! ## Lines -/

/-- A field of an event as a line shows it. -/
def fieldText (f : String × Shown) : String :=
  f.1 ++ "=" ++ match f.2 with
    | .quoted t => Text.quoted t
    | .plain t => t

def nameCountText (span : Span) : String :=
  "name_count=" ++ toString span.nameCount

/-- A line without the carriage return that may end it. -/
def dropReturn (l : List Char) : List Char :=
  if l.getLast? = some '\r' then l.dropLast else l

/-- The lines of a text. A line ends with a newline or with a carriage return and a newline. -/
def lines (s : String) : List String :=
  (s.toList.splitOn '\n').map fun l => String.ofList (dropReturn l)

/-- An event on a line of its own, behind the span it was recorded in. -/
def plainLine (span : Option Span) (e : Event) : String :=
  let place := match span with
    | some s => Span.name ++ "\x7b" ++ nameCountText s ++ "\x7d: "
    | none => ""
  " ".intercalate
    ((e.level.text ++ " " ++ place ++ e.target ++ ": " ++ e.message) :: e.fields.map fieldText)

def plainRows (s : Subscriber) : List Entry → List String
  | [] => []
  | .recorded inside e :: es => plainLine (s.shownSpan inside) e :: plainRows s es
  | _ :: es => plainRows s es

/-! ## Trees -/

/-- An event as it hangs in a tree. -/
def treeLine (e : Event) : String :=
  ", ".intercalate ((e.level.text ++ " " ++ e.target ++ " " ++ e.message) :: e.fields.map fieldText)

/-- The first line hangs on a branch; the others stand in its column. -/
def branch (ls : List String) : List String :=
  match ls with
  | [] => []
  | l :: ls => ("├─ " ++ l) :: ls.map ("│  " ++ ·)

def spanLine (span : Span) : String :=
  "┐" ++ Span.target ++ "::" ++ Span.name ++ " " ++ nameCountText span

/-- The rows of a tree. A span is shown from its first event on; `shown` tells whether the span that
is open has been shown. -/
def treeRows (shown : Bool) : List Entry → List String
  | [] => []
  | .opened _ :: es => treeRows false es
  | .recorded none e :: es => lines (treeLine e) ++ treeRows shown es
  | .recorded (some span) e :: es =>
    (if shown then [] else [spanLine span]) ++ branch (lines (treeLine e)) ++ treeRows true es
  | .closed _ :: es => (if shown then ["┘"] else []) ++ treeRows false es

/-- Takes the events out of spans that are not shown. -/
def Subscriber.unspanned (s : Subscriber) : Entry → Entry
  | .recorded inside e => .recorded (s.shownSpan inside) e
  | x => x

/-! ## Objects -/

open Json in
def spanObject (span : Span) : Value :=
  .object [("name_count", .integer span.nameCount), ("name", .string Span.name)]

open Json in
/-- An event as an object; its span is the current one and the only one. -/
def eventObject (span : Option Span) (e : Event) : Value :=
  let fields := ("message", Value.string e.message) :: e.fields.map fun f => (f.1, .string f.2.text)
  let spans := match span with
    | some s => [("span", spanObject s), ("spans", .array [spanObject s])]
    | none => []
  .object ([("level", .string e.level.text), ("fields", .object fields),
    ("target", .string e.target)] ++ spans)

def eventObjects (s : Subscriber) : List Entry → List Json.Value
  | [] => []
  | .recorded inside e :: es => eventObject (s.shownSpan inside) e :: eventObjects s es
  | _ :: es => eventObjects s es

/-- What has been written: lines or objects. -/
inductive Output where
  | lines (ls : List String)
  | objects (vs : List Json.Value)

/-- What is read where rows were printed. -/
def Output.ofRows (rows : List String) : Output :=
  .lines (rows.flatMap Log.lines)

/-- What a subscriber writes for a list of entries. -/
def Subscriber.write (s : Subscriber) (entries : List Entry) : Output :=
  let shown := entries.filter s.enabled
  match s.format with
  | .text => .ofRows (plainRows s shown)
  | .tree => .ofRows (treeRows false (shown.map s.unspanned))
  | .json => .objects (eventObjects s shown)

end Adorn.Log
