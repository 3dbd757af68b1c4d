import Adorn.NameSet
import Adorn.Wire.Decoder

/-!
# Options

The tables that steer synthesis: which names are bindings, which are
bare markers, which properties of a class turn into decorators of the
class, and the decorator that every class gets. A document may replace
any of them.
-/

namespace Adorn

open Json Wire

structure Options where
  bindings : NameSet
  markers : NameSet
  classProps : NameSet
  classic : String
  deriving DecidableEq

/-- The marker that is used where none is named. -/
def defaultMarker : String := "action"

namespace Options

def default : Options where
  bindings := .ofList ["className", "attribute"]
  markers := .ofList [defaultMarker, "off", "unobserves"]
  classProps := .ofList ["tagName", "classNames"]
  classic := "classic"

instance : Inhabited Options := ⟨default⟩

def addBinding (o : Options) (name : String) : Options :=
  { o with bindings := o.bindings.insert name }

def addMarker (o : Options) (name : String) : Options :=
  { o with markers := o.markers.insert name }

def isBinding (o : Options) (name : String) : Bool :=
  o.bindings.contains name

def isMarker (o : Options) (name : String) : Bool :=
  o.markers.contains name

def isClassProp (o : Options) (name : String) : Bool :=
  o.classProps.contains name

/-- A list of names, read as a set. -/
def namesDecoder : Decoder NameSet := do
  return .ofList (← Decoder.list Decoder.text)

/-- The tables of a document; one that it leaves out keeps its default. -/
abbrev fields : List (Field Decoder) :=
  [.optional "bindingDecorators" namesDecoder default.bindings,
   .optional "markerDecorators" namesDecoder default.markers,
   .optional "classDecoratorProps" namesDecoder default.classProps,
   .optional "classicDecorator" Decoder.text default.classic]

def decoder : Decoder Options := do
  let (bindings, markers, classProps, classic, ()) ← Decoder.record "SynthesisOptions" fields
  return { bindings, markers, classProps, classic }

end Options

end Adorn
