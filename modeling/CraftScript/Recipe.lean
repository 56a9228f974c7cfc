import CraftScript.Amount.Basic
import CraftScript.Dict

/-! Recipes and what goes into and comes out of them. -/
namespace CraftScript

structure Fluid where
  types : List String
  amount : Amount
deriving DecidableEq, Repr

structure Item where
  index : UInt32
  ids : List String
  mapper : Option String := none
  mode : Option String := none
  tags : NameSet := ∅
  flags : NameSet := ∅
  fluid : Option Fluid := none
deriving DecidableEq, Repr

structure Energy where
  amount : Amount
  type : String
  modifiers : Option String := none
deriving DecidableEq, Repr

structure Skin where
  displayName : Option String := none
  icon : Option String := none
deriving DecidableEq, Repr

inductive Entry where
  | item (item : Item)
  | fluid (fluid : Fluid)
  | energy (energy : Energy)
  | skin (skin : Skin)
deriving DecidableEq, Repr

namespace Entry

def item? : Entry → Option Item
  | item i => some i
  | _ => none

def fluid? : Entry → Option Fluid
  | fluid f => some f
  | _ => none

def energy? : Entry → Option Energy
  | energy e => some e
  | _ => none

def skin? : Entry → Option Skin
  | skin s => some s
  | _ => none

end Entry

inductive Detail where
  | list (items : List String)
  | text (value : String)
deriving DecidableEq, Repr

namespace Detail

def text? : Detail → Option String
  | text value => some value
  | list _ => none

def list? : Detail → Option (List String)
  | list items => some items
  | text _ => none

end Detail

abbrev Mappers := Dict (Dict String)

structure Recipe where
  name : String
  inputs : List Entry := []
  outputs : List Entry := []
  mappers : Option Mappers := none
  category : Option String := none
  construction : Bool := false
  sprites : Option (Dict (List String)) := none
  baseHealth : Option Amount := none
  details : Dict Detail := ∅
deriving DecidableEq, Repr

namespace Recipe

def itemInputs (recipe : Recipe) : List Item :=
  recipe.inputs.filterMap Entry.item?

def itemOutputs (recipe : Recipe) : List Item :=
  recipe.outputs.filterMap Entry.item?

def detail? (recipe : Recipe) (key : String) : Option Detail :=
  recipe.details.get? key

end Recipe

end CraftScript
