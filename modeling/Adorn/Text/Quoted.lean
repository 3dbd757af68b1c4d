import Adorn.Text.Hex
import Adorn.Text.Hidden

/-!
# Quoted text

Messages and log lines show a text between double quotes. The quote and
the backslash take a backslash, the common line characters have their
letter, and every other hidden character is spelled by its code between
braces, so a quoted text stays on one line.
-/

namespace Adorn.Text

def quotedChar (c : Char) : List Char :=
  if c = '"' then ['\\', '"']
  else if c = '\\' then ['\\', '\\']
  else if c = '\n' then ['\\', 'n']
  else if c = '\r' then ['\\', 'r']
  else if c = '\t' then ['\\', 't']
  else if c.toNat = 0 then ['\\', '0']
  else if isHidden c then ['\\', 'u', '\x7b'] ++ hex c.toNat ++ ['\x7d']
  else [c]

def quoted (s : String) : String :=
  String.ofList ('"' :: s.toList.flatMap quotedChar ++ ['"'])

end Adorn.Text
