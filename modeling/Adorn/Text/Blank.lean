/-!
# Blank characters

Names and property names arrive with blanks around them, and a name of
blanks alone stands for nothing. A character is blank when it has the
White_Space property, so the table below reaches well beyond the
blanks of a keyboard; the blanks that may stand between the tokens of
a document are a much smaller set and have their own test.
-/

namespace Adorn.Text

/-- The characters with the White_Space property. -/
def isBlank (c : Char) : Bool :=
  let n := c.toNat
  (0x09 ≤ n && n ≤ 0x0d) || n == 0x20 || n == 0x85 || n == 0xa0 || n == 0x1680 ||
    (0x2000 ≤ n && n ≤ 0x200a) || n == 0x2028 || n == 0x2029 || n == 0x202f ||
    n == 0x205f || n == 0x3000

/-- Drops the blanks at both ends. -/
def trimChars (cs : List Char) : List Char :=
  (((cs.dropWhile isBlank).reverse).dropWhile isBlank).reverse

def trim (s : String) : String :=
  String.ofList (trimChars s.toList)

/-- Whether nothing is left of a text once its blanks are trimmed. -/
def isBlankText (s : String) : Bool :=
  (trim s).isEmpty

/-- Lowers the letters A to Z and leaves every other character alone. -/
def lowerAscii (s : String) : String :=
  String.ofList (s.toList.map Char.toLower)

end Adorn.Text
