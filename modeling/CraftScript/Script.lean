import CraftScript.Construction
import CraftScript.RecipeSource
import CraftScript.Report

/-! Reading whole scripts. Block comments go first; then the recipes found line by line are read,
and the same text is searched for constructions. -/
namespace CraftScript.Script

def readBlock (settings : Settings) (block : RecipeSource) : WithIssues (Option Recipe) :=
  block.body?.mapM (RecipeBody.read settings (String.ofList block.name))

def recipes (settings : Settings) (source : Text) : WithIssues (List Recipe) := do
  let stripped := Comment.strip source
  if let some offset := stripped.unclosedAt then
    WithIssues.note (.unclosedComment offset)
  let blocks ← RecipeSource.all stripped.text
  let crafted ← blocks.mapM (readBlock settings)
  let constructed ← Construction.all settings stripped.text
  return crafted.filterMap id ++ constructed

def reportAll (settings : Settings) (sources : List Text) : Report :=
  sources.foldl (fun report source => report.add (recipes settings source)) {}

def report (settings : Settings) (source : Text) : Report :=
  reportAll settings [source]

end CraftScript.Script
