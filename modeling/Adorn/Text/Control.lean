/-!
# Control characters

The characters of category Cc: the two blocks of thirty-two and the
delete character between them.
-/

namespace Adorn.Text

def isControl (c : Char) : Bool :=
  let n := c.toNat
  n ≤ 0x1f || (0x7f ≤ n && n ≤ 0x9f)

end Adorn.Text
