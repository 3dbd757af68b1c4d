import Adorn.Text.Blank

/-!
# Log settings

Whether and how decisions are logged is read from named variables. No
log is wanted unless one of the two directive variables is set, if only
to the empty text; the format is a matter of taste and never an error.
-/

namespace Adorn.Log

inductive Format where
  | text
  | tree
  | json
  deriving DecidableEq

/-- Any value that names no other format means plain text. -/
def Format.parse (value : String) : Format :=
  let v := Text.lowerAscii (Text.trim value)
  if v = "tree" then .tree
  else if v = "json" then .json
  else .text

structure Settings where
  format : Format
  directives : String
  deriving DecidableEq

/-- The settings that a set of variables asks for. -/
def Settings.ofLookup? (lookup : String → Option String) : Option Settings := do
  let directives ← lookup "DECLASS_LOG" <|> lookup "RUST_LOG"
  return { format := ((lookup "DECLASS_LOG_FORMAT").map Format.parse).getD .text, directives }

end Adorn.Log
