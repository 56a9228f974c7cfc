import CraftScript.EntryLine
import CraftScript.Issue

/-! Sections: the entries between the braces of `inputs` or `outputs`. A fluid line belongs to the
item line before it until another item or an energy line comes; a fluid that an item yields is
set aside for the recipe's outputs. -/
namespace CraftScript

structure Section where
  entries : List Entry := []
  carriedOver : List Entry := []
deriving DecidableEq, Repr

def Item.drawing (settings : Settings) (item : Item) (fluid : Fluid) : Item :=
  { item with
    ids := if item.ids = [settings.wildcard] then [settings.wildcardFluidLabel] else item.ids
    fluid := some fluid }

namespace Section

def cleanLine (line : Text) : Text :=
  Text.trimEnd (Text.dropEndWhile (· == ',') (Text.trim line.beforeLineComment))

def contentLines (t : Text) : List Text :=
  (t.lines.map cleanLine).filter (· ≠ [])

def ofLines (settings : Settings) : (current : Option Item) → List EntryLine → Section
  | current, [] => { entries := current.toList.map .item }
  | current, .item item :: lines =>
    let rest := ofLines settings (some item) lines
    { rest with entries := current.toList.map .item ++ rest.entries }
  | current, .energy energy :: lines =>
    let rest := ofLines settings none lines
    { rest with entries := current.toList.map .item ++ .energy energy :: rest.entries }
  | none, .fluid _ fluid :: lines =>
    let rest := ofLines settings none lines
    { rest with entries := .fluid fluid :: rest.entries }
  | some item, .fluid .consumed fluid :: lines =>
    ofLines settings (some (item.drawing settings fluid)) lines
  | some item, .fluid .produced fluid :: lines =>
    let rest := ofLines settings (some item) lines
    { rest with carriedOver := .item { item with fluid := some fluid } :: rest.carriedOver }

def classify (settings : Settings) (line : Text) : WithIssues (Option EntryLine) := do
  match EntryLine.read? settings line with
  | some entry => return some entry
  | none =>
    WithIssues.note (.unrecognizedLine (String.ofList line))
    return none

def read (settings : Settings) (t : Text) : WithIssues Section := do
  let lines ← (contentLines t).mapM (classify settings)
  return ofLines settings none (lines.filterMap id)

end Section

end CraftScript
