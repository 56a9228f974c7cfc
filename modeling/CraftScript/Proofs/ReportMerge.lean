import CraftScript.Proofs.Reading
import CraftScript.Proofs.Tables

/-! Merging reports. Equal recipes and issues make equal reports, because the index follows from the
recipes; so merging has the laws of joining lists, and scripts may be read in parts. -/
namespace CraftScript.Report

theorem Indexed.ext {a b : Report} (left : Indexed a) (right : Indexed b)
    (recipes : a.recipes = b.recipes) (issues : a.issues = b.issues) : a = b := by
  have positions : a.positions = b.positions := by
    apply Dict.ext_get?
    intro name
    apply Option.ext
    intro index
    rw [left name index, right name index, recipes]
  obtain ⟨_, _, _⟩ := a
  obtain ⟨_, _, _⟩ := b
  simp only at recipes issues positions
  rw [recipes, issues, positions]

theorem issues_merge (report other : Report) :
    (report.merge other).issues = report.issues ++ other.issues :=
  issues_add _ _

namespace Indexed

variable {report : Report}

theorem merge (indexed : Indexed report) (other : Report) :
    Indexed (report.merge other) ∧
      (report.merge other).recipes = other.recipes.foldl place report.recipes :=
  indexed.add _

/-- Placing recipes among distinct ones and then all of them on a base is placing them in turn. -/
theorem foldl_place_foldl (indexed : Indexed report) (later base : List Recipe) :
    (later.foldl place report.recipes).foldl place base =
      later.foldl place (report.recipes.foldl place base) := by
  have whole : later.foldl place report.recipes = collect (report.recipes ++ later) := by
    rw [collect, List.foldl_append, ← collect, collect_of_nodup indexed.distinct]
  rw [whole, foldl_place_collect, List.foldl_append]

theorem merge_assoc {a b c : Report} (first : Indexed a) (second : Indexed b) :
    (a.merge b).merge c = a.merge (b.merge c) := by
  have inner := first.merge b
  have outer := second.merge c
  apply (inner.1.merge c).1.ext (first.merge _).1
  · rw [(inner.1.merge c).2, inner.2, (first.merge _).2, outer.2, second.foldl_place_foldl]
  · simp only [issues_merge, List.append_assoc]

theorem merge_empty (indexed : Indexed report) : report.merge {} = report := by
  apply (indexed.merge {}).1.ext indexed
  · rw [(indexed.merge {}).2]
    rfl
  · rw [issues_merge, List.append_nil]

theorem empty_merge (indexed : Indexed report) : Report.merge {} report = report := by
  apply (indexed_empty.merge report).1.ext indexed
  · rw [(indexed_empty.merge report).2]
    exact collect_of_nodup indexed.distinct
  · rw [issues_merge, List.nil_append]

end Indexed

inductive Reachable : Report → Prop where
  | empty : Reachable {}
  | insert {report : Report} (reached : Reachable report) (recipe : Recipe) :
      Reachable (report.insert recipe)
  | add {report : Report} (reached : Reachable report) (found : WithIssues (List Recipe)) :
      Reachable (report.add found)
  | merge {report other : Report} (reached : Reachable report) (merged : Reachable other) :
      Reachable (report.merge other)

theorem Reachable.indexed {report : Report} (reached : Reachable report) : Indexed report := by
  induction reached with
  | empty => exact indexed_empty
  | insert _ recipe ih => exact ih.insert recipe
  | add _ found ih => exact (ih.add found).1
  | @merge _ other _ _ ih _ => exact (ih.merge other).1

end CraftScript.Report

namespace CraftScript.Script

open Report

theorem reachable_reportAll (settings : Settings) (sources : List Text) :
    Reachable (reportAll settings sources) := by
  induction sources using List.reverseRecOn with
  | nil => exact .empty
  | append_singleton sources source ih =>
    rw [reportAll_concat]
    exact ih.add _

/-- Sources read in two parts and merged give the report of reading them all, with the same recipes,
issues and index; and merging joins reports like lists. -/
theorem reportAll_append_merge (settings : Settings) (xs ys : List Text) :
    reportAll settings (xs ++ ys) = (reportAll settings xs).merge (reportAll settings ys) ∧
    (∀ a b c : Report, Reachable a → Reachable b → Reachable c →
      (a.merge b).merge c = a.merge (b.merge c)) ∧
    ∀ a : Report, Reachable a → a.merge {} = a ∧ Report.merge {} a = a := by
  refine ⟨?_, ?_, ?_⟩
  · obtain ⟨left, early⟩ := recipes_reportAll settings xs
    obtain ⟨-, late⟩ := recipes_reportAll settings ys
    obtain ⟨whole, all⟩ := recipes_reportAll settings (xs ++ ys)
    apply whole.ext (left.merge _).1
    · rw [(left.merge _).2, early, late, all, foldl_place_collect, List.flatMap_append, collect,
        List.foldl_append, ← collect]
    · rw [issues_merge, issues_reportAll, issues_reportAll, issues_reportAll, List.flatMap_append]
  · intro a b c first second _
    exact first.indexed.merge_assoc second.indexed
  · intro a reached
    exact ⟨reached.indexed.merge_empty, reached.indexed.empty_merge⟩

/-- Recipes of one name within and across the parts, and a report merged with itself. -/
theorem reportAll_append_merge_repeated :
    let first := "craftRecipe A \x7b\x7d \n craftRecipe B \x7b\x7d \n craftRecipe A \x7b\x7d".toList
    let again := "craftRecipe B \x7b time = 5 \x7d".toList
    let early := reportAll {} [first]
    let late := reportAll {} [again]
    reportAll {} [first, again] = early.merge late ∧ Reachable early ∧ Reachable late ∧
      (early.merge late).merge early = early.merge (late.merge early) ∧ early.merge {} = early := by
  intro first again early late
  have reached := reachable_reportAll {} [first]
  have reached' := reachable_reportAll {} [again]
  obtain ⟨parts, assoc, identity⟩ := reportAll_append_merge {} [first] [again]
  exact ⟨parts, reached, reached', assoc _ _ _ reached reached' reached, (identity _ reached).1⟩

end CraftScript.Script
