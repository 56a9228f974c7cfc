import CraftScript.Script
import CraftScript.Proofs.ReportHistory

/-! What reading a script yields, stage by stage, and the report that comes of it. -/
namespace CraftScript.Script

theorem value_readBlock (settings : Settings) (block : RecipeSource) :
    (readBlock settings block).value =
      block.body?.map fun body =>
        (RecipeBody.read settings (String.ofList block.name) body).value := by
  unfold readBlock
  cases block.body? <;> rfl

def commentIssues (source : Text) : List Issue :=
  (Comment.strip source).unclosedAt.toList.map .unclosedComment

theorem value_recipes (settings : Settings) (source : Text) :
    (recipes settings source).value =
      ((RecipeSource.all (Comment.strip source).text).value.map
        fun block => (readBlock settings block).value).filterMap id ++
      (Construction.all settings (Comment.strip source).text).value := by
  simp only [recipes]
  split <;> simp

theorem issues_recipes (settings : Settings) (source : Text) :
    (recipes settings source).issues =
      commentIssues source ++ ((RecipeSource.all (Comment.strip source).text).issues ++
      (((RecipeSource.all (Comment.strip source).text).value.mapM (readBlock settings)).issues ++
      (Construction.all settings (Comment.strip source).text).issues)) := by
  simp only [recipes, commentIssues]
  split
  next offset unclosed => simp [unclosed]
  next closed =>
    have closed : (Comment.strip source).unclosedAt = none := by
      cases found : (Comment.strip source).unclosedAt with
      | none => rfl
      | some offset => exact absurd found (closed offset)
    simp [closed]

end CraftScript.Script

namespace CraftScript.Report

theorem issues_foldl_insert (recipes : List Recipe) (report : Report) :
    (recipes.foldl insert report).issues = report.issues := by
  induction recipes generalizing report with
  | nil => rfl
  | cons recipe recipes ih =>
    rw [List.foldl_cons, ih, insert]
    split <;> rfl

theorem issues_add (report : Report) (found : WithIssues (List Recipe)) :
    (report.add found).issues = report.issues ++ found.issues :=
  issues_foldl_insert _ _

theorem Indexed.lt_length {report : Report} (indexed : Indexed report) {name : String} {index : Nat}
    (known : report.positions.get? name = some index) : index < report.recipes.length := by
  have place := (indexed name index).mp known
  have bound := (List.getElem?_eq_some_iff.mp place).1
  rwa [names, List.length_map] at bound

theorem Indexed.add {report : Report} (indexed : Indexed report)
    (found : WithIssues (List Recipe)) :
    Indexed (report.add found) ∧
      (report.add found).recipes = found.value.foldl place report.recipes := by
  have noted : Indexed { report with issues := report.issues ++ found.issues } := indexed
  exact noted.foldl_insert found.value

end CraftScript.Report

namespace CraftScript.Script

open Report

theorem reportAll_concat (settings : Settings) (sources : List Text) (source : Text) :
    reportAll settings (sources ++ [source]) =
      (reportAll settings sources).add (recipes settings source) := by
  simp [reportAll]

/-- The recipes of several sources are those of one after the other, the last of each name where the
first stood. -/
theorem recipes_reportAll (settings : Settings) (sources : List Text) :
    Indexed (reportAll settings sources) ∧ (reportAll settings sources).recipes =
      collect (sources.flatMap fun source => (recipes settings source).value) := by
  induction sources using List.reverseRecOn with
  | nil => exact ⟨indexed_empty, rfl⟩
  | append_singleton sources source ih =>
    obtain ⟨indexed, collected⟩ := ih
    obtain ⟨grown, placed⟩ := indexed.add (recipes settings source)
    rw [reportAll_concat]
    refine ⟨grown, ?_⟩
    rw [placed, collected]
    simp [collect]

theorem issues_reportAll (settings : Settings) (sources : List Text) :
    (reportAll settings sources).issues =
      sources.flatMap fun source => (recipes settings source).issues := by
  induction sources using List.reverseRecOn with
  | nil => rfl
  | append_singleton sources source ih =>
    rw [reportAll_concat, issues_add, ih]
    simp

theorem recipes_report (settings : Settings) (source : Text) :
    (report settings source).recipes = collect (recipes settings source).value := by
  simpa [report] using (recipes_reportAll settings [source]).2

theorem issues_report (settings : Settings) (source : Text) :
    (report settings source).issues = (recipes settings source).issues := by
  simpa [report] using issues_reportAll settings [source]

end CraftScript.Script
