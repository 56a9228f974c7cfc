import CraftScript.FileRule
import CraftScript.Json.Decoder
import CraftScript.Settings

/-! Configuration read from JSON. Every field has a default, and unknown ones are passed by. A list
of values in the order of the keys will do as well. -/
namespace CraftScript

open Json (Fault)
open Decoder

structure Configuration where
  settings : Settings := {}
  files : FileRule := {}
deriving DecidableEq, Repr

structure Settings.Draft where
  defaultModule : Option String := none
  wildcardFluidLabel : Option String := none

def Settings.Draft.step (draft : Settings.Draft) (key : String) (j : Json) :
    Except Fault Settings.Draft :=
  match key with
  | "default_module" =>
    return { draft with defaultModule := ← once draft.defaultModule string j }
  | "wildcard_fluid_label" =>
    return { draft with wildcardFluidLabel := ← once draft.wildcardFluidLabel string j }
  | _ => do pass j; return draft

def Settings.decoder : Decoder Settings := fun j => do
  let keys := ["default_module", "wildcard_fluid_label"]
  let draft ← fields keys .malformed Settings.Draft.step {} j
  let standard : Settings := {}
  return {
    defaultModule := draft.defaultModule.getD standard.defaultModule
    wildcardFluidLabel := draft.wildcardFluidLabel.getD standard.wildcardFluidLabel }

structure FileRule.Draft where
  beginnings : Option (List String) := none
  ending : Option String := none
  excluded : Option (List String) := none

def FileRule.Draft.step (draft : FileRule.Draft) (key : String) (j : Json) :
    Except Fault FileRule.Draft :=
  match key with
  | "prefixes" => return { draft with beginnings := ← once draft.beginnings (list string) j }
  | "suffix" => return { draft with ending := ← once draft.ending string j }
  | "exclude" => return { draft with excluded := ← once draft.excluded (list string) j }
  | _ => do pass j; return draft

def FileRule.decoder : Decoder FileRule := fun j => do
  let draft ← fields ["prefixes", "suffix", "exclude"] .malformed FileRule.Draft.step {} j
  let standard : FileRule := {}
  return {
    beginnings := draft.beginnings.getD standard.beginnings
    ending := draft.ending.getD standard.ending
    excluded := draft.excluded.getD standard.excluded }

namespace Configuration

structure Draft where
  settings : Option Settings := none
  files : Option FileRule := none

def Draft.step (draft : Draft) (key : String) (j : Json) : Except Fault Draft :=
  match key with
  | "parser" => return { draft with settings := ← once draft.settings Settings.decoder j }
  | "sources" => return { draft with files := ← once draft.files FileRule.decoder j }
  | _ => do pass j; return draft

def decoder : Decoder Configuration := fun j => do
  let draft ← fields ["parser", "sources"] .malformed Draft.step {} j
  return { settings := draft.settings.getD {}, files := draft.files.getD {} }

def ofJsonText (t : Text) : Except Fault Configuration :=
  decoder.run t

end Configuration

end CraftScript
