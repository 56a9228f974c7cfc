import CraftScript.Issue
import CraftScript.Recipe

/-! Reports: the recipes of one or more scripts, one of each name, and the issues met. A recipe of
a name that is known takes the place of the earlier one, which an index by name finds. -/
namespace CraftScript

structure Report where
  recipes : List Recipe := []
  issues : List Issue := []
  positions : Dict Nat := ∅
deriving DecidableEq, Repr

namespace Report

def insert (report : Report) (recipe : Recipe) : Report :=
  match report.positions.get? recipe.name with
  | some index => { report with recipes := report.recipes.set index recipe }
  | none =>
    { report with
      recipes := report.recipes ++ [recipe]
      positions := report.positions.insert recipe.name report.recipes.length }

def get? (report : Report) (name : String) : Option Recipe := do
  let index ← report.positions.get? name
  report.recipes[index]?

def add (report : Report) (found : WithIssues (List Recipe)) : Report :=
  found.value.foldl insert { report with issues := report.issues ++ found.issues }

def merge (report other : Report) : Report :=
  report.add ⟨other.recipes, other.issues⟩

end Report

end CraftScript
