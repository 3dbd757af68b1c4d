import Adorn.Json.Reader
import Adorn.Text.Hex

/-!
# Strings

A string runs from its opening quote to the next quote that no
backslash precedes. Characters beyond the sixteen-bit range may be
spelled by two escapes, a leading and a trailing surrogate; a half
without its partner spells nothing. A string that is passed over is
checked for its escapes but not for its surrogates.
-/

namespace Adorn.Json

/-- The number of bytes of a text. -/
def byteLength (s : List Char) : Nat :=
  s.foldl (fun n c => n + c.utf8Size) 0

/-- Four hexadecimal digits. -/
def hexUnit : Reader Nat
  | a :: b :: c :: d :: rest =>
    match Text.hexValue4? a b c d with
    | some n => .ok (n, rest)
    | none => .error .invalidEscape
  | s => .error (if 4 ≤ byteLength s then .invalidEscape else .endOfString)

def isLeading (n : Nat) : Bool :=
  0xd800 ≤ n && n ≤ 0xdbff

def isTrailing (n : Nat) : Bool :=
  0xdc00 ≤ n && n ≤ 0xdfff

/-- The character that a leading and a trailing surrogate spell. -/
def paired (leading trailing : Nat) : Char :=
  Char.ofNat ((leading - 0xd800) * 0x400 + (trailing - 0xdc00) + 0x10000)

/-- The character of a numeric escape whose `u` has been taken. -/
def numericEscape : Reader Char := do
  let n ← hexUnit
  if isTrailing n then throw .loneSurrogate
  else if isLeading n then
    if (← next .endOfString) ≠ '\\' then throw .cutSurrogate
    if (← next .endOfString) ≠ 'u' then throw .cutSurrogate
    let m ← hexUnit
    if isTrailing m then return paired n m else throw .loneSurrogate
  else return Char.ofNat n

/-- The character that a one-letter escape stands for. -/
def shortEscape? (c : Char) : Option Char :=
  if c = '"' then some '"'
  else if c = '\\' then some '\\'
  else if c = '/' then some '/'
  else if c = 'b' then some '\x08'
  else if c = 'f' then some '\x0c'
  else if c = 'n' then some '\n'
  else if c = 'r' then some '\r'
  else if c = 't' then some '\t'
  else none

/-- The character of an escape whose backslash has been taken. -/
def escape : Reader Char := do
  let c ← next .endOfString
  match shortEscape? c with
  | some d => return d
  | none => if c = 'u' then numericEscape else throw .invalidEscape

/-- Takes one more character of a string, or its closing quote. -/
def stringStep (text : String) : Reader (String ⊕ String) := do
  let c ← next .endOfString
  if c = '"' then return .inr text
  else if c = '\\' then return .inl (text.push (← escape))
  else if c.toNat < 0x20 then throw .controlCharacter
  else return .inl (text.push c)

/-- The rest of a string whose opening quote has been taken. -/
def string : Reader String :=
  Reader.loop stringStep ""

def skipEscape : Reader Unit := do
  let c ← next .endOfString
  if (shortEscape? c).isSome then return ()
  else if c = 'u' then
    let _ ← hexUnit
  else throw .invalidEscape

def skipStringStep (_ : Unit) : Reader (Unit ⊕ Unit) := do
  let c ← next .endOfString
  if c = '"' then return .inr ()
  else if c = '\\' then
    skipEscape
    return .inl ()
  else if c.toNat < 0x20 then throw .controlCharacter
  else return .inl ()

/-- Passes over the rest of a string whose opening quote has been taken. -/
def skipString : Reader Unit :=
  Reader.loop skipStringStep ()

end Adorn.Json
