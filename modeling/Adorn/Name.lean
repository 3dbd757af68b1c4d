import Adorn.Options
import Adorn.Text.Blank

/-!
# Names of decorators

A raw token becomes a name once, when a member is put together: its
blanks are trimmed, and the options tell to which of the three
categories it belongs. Bindings come before markers, and whatever is
neither is called. A blank token has no name.
-/

namespace Adorn

inductive Name where
  | binding (text : String)
  | marker (text : String)
  | call (text : String)
  deriving DecidableEq

namespace Name

def text : Name → String
  | .binding t | .marker t | .call t => t

/-- The name that a raw token stands for. -/
def classify? (o : Options) (raw : String) : Option Name :=
  let t := Text.trim raw
  if Text.isBlankText raw then none
  else if o.isBinding t then some (.binding t)
  else if o.isMarker t then some (.marker t)
  else some (.call t)

end Name

end Adorn
