import CraftScript.Json.Basic
import CraftScript.Recipe

/-! Recipes as JSON. The fields stand in one order; optional ones and empty sets are left out, and an
entry begins with its kind. -/
namespace CraftScript

namespace Json

def strings (items : List String) : Json :=
  .list (items.map .string)

def member? (key : String) : Option Json → List (String × Json)
  | none => []
  | some value => [(key, value)]

def names? (set : NameSet) : Option Json :=
  if set.isEmpty then none else some (strings set.names)

def table {α : Type} (encode : α → Json) (dict : Dict α) : Json :=
  .record (dict.entries.map fun entry => (entry.1, encode entry.2))

end Json

open Json

def Fluid.toJson (fluid : Fluid) : Json :=
  .record [("fluidType", strings fluid.types), ("amount", .amount fluid.amount)]

def Item.members (item : Item) : List (String × Json) :=
  [("index", .natural item.index.toNat), ("items", strings item.ids)] ++
    member? "mapper" (item.mapper.map .string) ++
    member? "mode" (item.mode.map .string) ++
    member? "tags" (names? item.tags) ++
    member? "flags" (names? item.flags) ++
    member? "fluidModifier" (item.fluid.map Fluid.toJson)

def Fluid.members (fluid : Fluid) : List (String × Json) :=
  [("amount", .amount fluid.amount), ("items", strings fluid.types)]

def Energy.members (energy : Energy) : List (String × Json) :=
  [("amount", .amount energy.amount), ("type", .string energy.type)] ++
    member? "modifiers" (energy.modifiers.map .string)

def Skin.members (skin : Skin) : List (String × Json) :=
  member? "displayName" (skin.displayName.map .string) ++
    member? "icon" (skin.icon.map .string)

def Entry.toJson : Entry → Json
  | .item i => .record (("kind", .string "item") :: i.members)
  | .fluid f => .record (("kind", .string "fluid") :: f.members)
  | .energy e => .record (("kind", .string "energy") :: e.members)
  | .skin s => .record (("kind", .string "skin") :: s.members)

def Detail.toJson : Detail → Json
  | .list items => strings items
  | .text value => .string value

def Recipe.toJson (recipe : Recipe) : Json :=
  .record (
    [("name", .string recipe.name),
     ("inputs", .list (recipe.inputs.map Entry.toJson)),
     ("outputs", .list (recipe.outputs.map Entry.toJson))] ++
    member? "itemMappers" (recipe.mappers.map (table (table .string))) ++
    member? "category" (recipe.category.map .string) ++
    [("construction", .bool recipe.construction)] ++
    member? "spriteOutputs" (recipe.sprites.map (table strings)) ++
    member? "skillBaseHealth" (recipe.baseHealth.map .amount) ++
    [("extra", table Detail.toJson recipe.details)])

abbrev Document := List Recipe

namespace Document

def toJson (document : Document) : Json :=
  .list (document.map Recipe.toJson)

def get? (document : Document) (name : String) : Option Recipe :=
  document.find? (·.name == name)

end Document

end CraftScript
