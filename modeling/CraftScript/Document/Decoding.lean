import CraftScript.Document.Encoding
import CraftScript.Json.Decoder

/-! Recipes from JSON. Members may come in any order and unknown ones are passed by; a list of values
in the order of the keys will do as well. An entry is read whole before its fields are looked at,
because its kind may stand behind them. -/
namespace CraftScript

open Json (Fault)
open Decoder

structure Fluid.Draft where
  types : Option (List String) := none
  amount : Option Amount := none

def Fluid.Draft.step (typesKey : String) (draft : Fluid.Draft) (key : String) (j : Json) :
    Except Fault Fluid.Draft :=
  if key = typesKey then return { draft with types := ← once draft.types (Decoder.list string) j }
  else if key = "amount" then
    return { draft with amount := ← once draft.amount Decoder.amount j }
  else do pass j; return draft

def Fluid.decoderOf (keys : List String) (typesKey : String) : Decoder Fluid := fun j => do
  let draft ← fields keys .mismatch (Fluid.Draft.step typesKey) {} j
  return ⟨← required draft.types, ← required draft.amount⟩

def Fluid.partDecoder : Decoder Fluid :=
  Fluid.decoderOf ["fluidType", "amount"] "fluidType"

def Fluid.decoder : Decoder Fluid :=
  Fluid.decoderOf ["amount", "items"] "items"

structure Item.Draft where
  index : Option UInt32 := none
  ids : Option (List String) := none
  mapper : Option (Option String) := none
  mode : Option (Option String) := none
  tags : Option NameSet := none
  flags : Option NameSet := none
  fluid : Option (Option Fluid) := none

def Item.Draft.step (draft : Item.Draft) (key : String) (j : Json) : Except Fault Item.Draft :=
  match key with
  | "index" => return { draft with index := ← once draft.index Decoder.index j }
  | "items" => return { draft with ids := ← once draft.ids (list string) j }
  | "mapper" => return { draft with mapper := ← once draft.mapper (optional string) j }
  | "mode" => return { draft with mode := ← once draft.mode (optional string) j }
  | "tags" => return { draft with tags := ← once draft.tags nameSet j }
  | "flags" => return { draft with flags := ← once draft.flags nameSet j }
  | "fluidModifier" =>
    return { draft with fluid := ← once draft.fluid (optional Fluid.partDecoder) j }
  | _ => do pass j; return draft

def Item.decoder : Decoder Item := fun j => do
  let keys := ["index", "items", "mapper", "mode", "tags", "flags", "fluidModifier"]
  let draft ← fields keys .mismatch Item.Draft.step {} j
  return {
    index := ← required draft.index
    ids := ← required draft.ids
    mapper := draft.mapper.getD none
    mode := draft.mode.getD none
    tags := draft.tags.getD ∅
    flags := draft.flags.getD ∅
    fluid := draft.fluid.getD none }

structure Energy.Draft where
  amount : Option Amount := none
  type : Option String := none
  modifiers : Option (Option String) := none

def Energy.Draft.step (draft : Energy.Draft) (key : String) (j : Json) :
    Except Fault Energy.Draft :=
  match key with
  | "amount" => return { draft with amount := ← once draft.amount Decoder.amount j }
  | "type" => return { draft with type := ← once draft.type string j }
  | "modifiers" => return { draft with modifiers := ← once draft.modifiers (optional string) j }
  | _ => do pass j; return draft

def Energy.decoder : Decoder Energy := fun j => do
  let draft ← fields ["amount", "type", "modifiers"] .mismatch Energy.Draft.step {} j
  return {
    amount := ← required draft.amount
    type := ← required draft.type
    modifiers := draft.modifiers.getD none }

structure Skin.Draft where
  displayName : Option (Option String) := none
  icon : Option (Option String) := none

def Skin.Draft.step (draft : Skin.Draft) (key : String) (j : Json) : Except Fault Skin.Draft :=
  match key with
  | "displayName" =>
    return { draft with displayName := ← once draft.displayName (optional string) j }
  | "icon" => return { draft with icon := ← once draft.icon (optional string) j }
  | _ => do pass j; return draft

def Skin.decoder : Decoder Skin := fun j => do
  let draft ← fields ["displayName", "icon"] .mismatch Skin.Draft.step {} j
  return { displayName := draft.displayName.getD none, icon := draft.icon.getD none }

inductive Entry.Kind where
  | item
  | fluid
  | energy
  | skin
deriving DecidableEq, Repr

namespace Entry

def kind : Decoder Kind := fun j => do
  match ← string j with
  | "item" => return .item
  | "fluid" => return .fluid
  | "energy" => return .energy
  | "skin" => return .skin
  | _ => throw .mismatch

def kindStep (room : Nat) (found : Option Kind) (key : String) (j : Json) :
    Except Fault (Option Kind) :=
  if key = "kind" then once found kind j else do whole room j; return found

def ofKind (j : Json) : Kind → Except Fault Entry
  | .item => return .item (← Item.decoder j)
  | .fluid => return .fluid (← Fluid.decoder j)
  | .energy => return .energy (← Energy.decoder j)
  | .skin => return .skin (← Skin.decoder j)

def decoder (room : Nat) : Decoder Entry
  | .array [] fault => do close () fault; throw .mismatch
  | .array (first :: items) fault => do
    let found ← kind first
    wholeItems (room - 1) items
    close () fault
    ofKind (.list items) found
  | j => do ofKind j (← required (← members (kindStep (room - 1)) none j))

end Entry

def Detail.decoder (room : Nat) : Decoder Detail := fun j => do
  whole room j
  match j with
  | .array _ _ => return .list (← Decoder.list string j)
  | _ => return .text (← string j)

namespace Recipe

structure Draft where
  name : Option String := none
  inputs : Option (List Entry) := none
  outputs : Option (List Entry) := none
  mappers : Option (Option Mappers) := none
  category : Option (Option String) := none
  construction : Option Bool := none
  sprites : Option (Option (Dict (List String))) := none
  baseHealth : Option (Option Amount) := none
  details : Option (Dict Detail) := none

def keys : List String :=
  ["name", "inputs", "outputs", "itemMappers", "category", "construction", "spriteOutputs",
   "skillBaseHealth", "extra"]

def Draft.step (room : Nat) (draft : Draft) (key : String) (j : Json) : Except Fault Draft :=
  match key with
  | "name" => return { draft with name := ← once draft.name string j }
  | "inputs" =>
    return { draft with inputs := ← once draft.inputs (list (Entry.decoder (room - 2))) j }
  | "outputs" =>
    return { draft with outputs := ← once draft.outputs (list (Entry.decoder (room - 2))) j }
  | "itemMappers" =>
    return { draft with mappers := ← once draft.mappers (optional (dict (dict string))) j }
  | "category" => return { draft with category := ← once draft.category (optional string) j }
  | "construction" => return { draft with construction := ← once draft.construction bool j }
  | "spriteOutputs" =>
    return { draft with sprites := ← once draft.sprites (optional (dict (list string))) j }
  | "skillBaseHealth" =>
    return { draft with baseHealth := ← once draft.baseHealth (optional Decoder.amount) j }
  | "extra" =>
    return { draft with details := ← once draft.details (dict (Detail.decoder (room - 2))) j }
  | _ => do pass j; return draft

def decoder (room : Nat) : Decoder Recipe := fun j => do
  let draft ← fields keys .malformed (Draft.step room) {} j
  return {
    name := ← required draft.name
    inputs := draft.inputs.getD []
    outputs := draft.outputs.getD []
    mappers := draft.mappers.getD none
    category := draft.category.getD none
    construction := draft.construction.getD false
    sprites := draft.sprites.getD none
    baseHealth := draft.baseHealth.getD none
    details := draft.details.getD ∅ }

def ofJsonText (t : Text) : Except Fault Recipe :=
  (decoder depthLimit).run t

end Recipe

def Document.ofJsonText (t : Text) : Except Fault Document :=
  Decoder.run (Decoder.list (Recipe.decoder (depthLimit - 1))) t

end CraftScript
