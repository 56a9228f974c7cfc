import CraftScript.Proofs.Canonical.Layout
import CraftScript.Proofs.RecipePaths

/-! The lines of a text, laid out by the recipes in it. Every line is passed over, or belongs to one
recipe, or to the recipe that is open where the text ends. A recipe takes its lines from its head to
the first line that completes it, and this leaves one layout for each text. -/
namespace CraftScript.RecipeSource

open Text
open Canonical (unlines unlines_append)

/-- A brace opens in the lines, and at least as many close as open. -/
def Complete (lines : List Text) : Prop :=
  '{' ∈ unlines lines ∧ (unlines lines).count '{' ≤ (unlines lines).count '}'

instance (lines : List Text) : Decidable (Complete lines) :=
  inferInstanceAs (Decidable (_ ∧ _))

/-- The lines of a recipe: its head is the first, and only the last completes it. -/
structure IsWhole (name : Text) (lines : List Text) : Prop where
  headed : lines.head?.bind header? = some name
  complete : Complete lines
  earliest : ∀ front, front <+: lines → front ≠ lines → ¬ Complete front

structure IsUnclosed (name : Text) (lines : List Text) : Prop where
  headed : lines.head?.bind header? = some name
  incomplete : ∀ front, front <+: lines → ¬ Complete front

theorem not_complete_nil : ¬ Complete [] := by
  decide

theorem complete_cases (lines : List Text) :
    (∃ own rest, lines = own ++ rest ∧ Complete own ∧
      ∀ front, front <+: own → front ≠ own → ¬ Complete front) ∨
      ∀ front, front <+: lines → ¬ Complete front := by
  induction lines using List.reverseRecOn with
  | nil =>
    refine .inr fun front early => ?_
    rw [List.prefix_nil.mp early]
    exact not_complete_nil
  | append_singleton lines last ih =>
    rcases ih with ⟨own, rest, rfl, complete, earliest⟩ | incomplete
    · exact .inl ⟨own, rest ++ [last], by simp, complete, earliest⟩
    · by_cases complete : Complete (lines ++ [last])
      · refine .inl ⟨lines ++ [last], [], by simp, complete, fun front early short => ?_⟩
        exact incomplete front ((List.prefix_concat_iff.mp early).resolve_left short)
      · refine .inr fun front early => ?_
        rcases List.prefix_concat_iff.mp early with rfl | early
        · exact complete
        · exact incomplete front early

theorem head?_append_of_headed {name : Text} {own : List Text}
    (headed : own.head?.bind header? = some name) (rest : List Text) :
    (own ++ rest).head?.bind header? = some name := by
  cases own with
  | nil => simp at headed
  | cons line own => exact headed

theorem ne_nil_of_headed {name : Text} {own : List Text}
    (headed : own.head?.bind header? = some name) : own ≠ [] := by
  rintro rfl
  simp at headed

theorem IsWhole.unique {name name' : Text} {own own' rest rest' : List Text}
    (whole : IsWhole name own) (whole' : IsWhole name' own') (same : own ++ rest = own' ++ rest') :
    name = name' ∧ own = own' ∧ rest = rest' := by
  have lined : own = own' := by
    rcases List.prefix_or_prefix_of_prefix (List.prefix_append own rest)
      (same ▸ List.prefix_append own' rest') with early | early
    · exact Decidable.byContradiction fun short => whole'.earliest own early short whole.complete
    · exact Decidable.byContradiction fun short =>
        whole.earliest own' early (Ne.symm short) whole'.complete
  subst lined
  refine ⟨?_, rfl, List.append_cancel_left same⟩
  exact Option.some.inj (whole.headed.symm.trans whole'.headed)

namespace Gathering

def reading (name : Text) (lines : List Text) : Gathering :=
  lines.foldl push { name }

theorem reading_concat (name : Text) (lines : List Text) (line : Text) :
    reading name (lines ++ [line]) = (reading name lines).push line := by
  simp [reading]

theorem counted_reading (name : Text) (lines : List Text) : (reading name lines).Counted := by
  induction lines using List.reverseRecOn with
  | nil => exact counted_new name
  | append_singleton lines line ih =>
    rw [reading_concat]
    exact ih.push line

theorem text_reading (name : Text) (lines : List Text) :
    (reading name lines).text = unlines lines := by
  induction lines using List.reverseRecOn with
  | nil => rfl
  | append_singleton lines line ih =>
    rw [reading_concat, text_push, ih, unlines_append]
    simp [unlines]

theorem name_reading (name : Text) (lines : List Text) : (reading name lines).name = name := by
  induction lines using List.reverseRecOn with
  | nil => rfl
  | append_singleton lines line ih => rw [reading_concat, push_name, ih]

theorem isComplete_reading (name : Text) (lines : List Text) :
    (reading name lines).isComplete ↔ Complete lines := by
  rw [(counted_reading name lines).isComplete_iff, text_reading, Complete]

end Gathering

open Gathering (reading)

def ofLines (name : Text) (lines : List Text) : RecipeSource :=
  ⟨name, (Comment.strip (unlines lines)).text⟩

theorem finish_reading (name : Text) (lines : List Text) :
    (reading name lines).finish = ofLines name lines := by
  rw [Gathering.finish, Gathering.text_reading, Gathering.name_reading, ofLines]

theorem gather_headed {name : Text} {lines : List Text}
    (headed : lines.head?.bind header? = some name) :
    gather none lines = gather (some (reading name [])) lines := by
  cases lines with
  | nil => simp at headed
  | cons line lines =>
    have named : header? line = some name := by simpa using headed
    simp [gather, named, reading]

theorem gather_held (name : Text) {held more : List Text}
    (incomplete : ∀ front, front <+: more → front ≠ [] → ¬ Complete (held ++ front))
    (rest : List Text) :
    gather (some (reading name held)) (more ++ rest) =
      gather (some (reading name (held ++ more))) rest := by
  induction more generalizing held with
  | nil => simp
  | cons line more ih =>
    have first : ¬ ((reading name held).push line).isComplete := by
      rw [← Gathering.reading_concat, Gathering.isComplete_reading]
      exact incomplete [line] (by simp) (by simp)
    have later : ∀ front, front <+: more → front ≠ [] → ¬ Complete (held ++ [line] ++ front) := by
      intro front early _
      simpa using incomplete (line :: front) (by simpa using early) (by simp)
    have step : gather (some (reading name held)) (line :: (more ++ rest)) =
        gather (some (reading name (held ++ [line]))) (more ++ rest) := by
      simp [gather, first, Gathering.reading_concat]
    rw [List.cons_append, step, ih later]
    simp

theorem gather_whole {name : Text} {own : List Text} (whole : IsWhole name own)
    (rest : List Text) :
    gather none (own ++ rest) =
      (ofLines name own :: (gather none rest).1, (gather none rest).2) := by
  obtain ⟨front, last, rfl⟩ : ∃ front last, own = front ++ [last] :=
    (List.eq_nil_or_concat' own).resolve_left (ne_nil_of_headed whole.headed)
  have incomplete : ∀ early, early <+: front → early ≠ [] → ¬ Complete ([] ++ early) := by
    intro early inside _
    refine whole.earliest early (inside.trans (List.prefix_append front [last])) ?_
    rintro rfl
    simpa using inside.length_le
  have complete : ((reading name front).push last).isComplete := by
    rw [← Gathering.reading_concat, Gathering.isComplete_reading]
    exact whole.complete
  rw [gather_headed (head?_append_of_headed whole.headed rest), List.append_assoc,
    gather_held name incomplete, List.nil_append, ← finish_reading, Gathering.reading_concat]
  simp [gather, complete]

theorem gather_unclosed {name : Text} {own : List Text} (unclosed : IsUnclosed name own) :
    gather none own = ([], some name) := by
  have incomplete : ∀ front, front <+: own → front ≠ [] → ¬ Complete ([] ++ front) :=
    fun front early _ => unclosed.incomplete front early
  have held := gather_held name incomplete []
  rw [List.append_nil, List.nil_append] at held
  rw [gather_headed unclosed.headed, held, gather, Option.map_some, Gathering.name_reading]

/-- Ranges of lines, one after another: lines that are passed over, recipes, and at the end at most
one recipe that is not closed. -/
inductive Layout where
  | done
  | unclosed (name : Text) (own : List Text)
  | skipped (line : Text) (rest : Layout)
  | recipe (name : Text) (own : List Text) (rest : Layout)
deriving DecidableEq, Repr

namespace Layout

def lines : Layout → List Text
  | done => []
  | unclosed _ own => own
  | skipped line rest => line :: rest.lines
  | recipe _ own rest => own ++ rest.lines

def recipes : Layout → List RecipeSource
  | done => []
  | unclosed _ _ => []
  | skipped _ rest => rest.recipes
  | recipe name own rest => ofLines name own :: rest.recipes

def unclosed? : Layout → Option Text
  | done => none
  | unclosed name _ => some name
  | skipped _ rest => rest.unclosed?
  | recipe _ _ rest => rest.unclosed?

def Sound : Layout → Prop
  | done => True
  | unclosed name own => IsUnclosed name own
  | skipped line rest => header? line = none ∧ rest.Sound
  | recipe name own rest => IsWhole name own ∧ rest.Sound

theorem gather_lines {layout : Layout} (sound : layout.Sound) :
    gather none layout.lines = (layout.recipes, layout.unclosed?) := by
  induction layout with
  | done => rfl
  | unclosed name own => exact gather_unclosed sound
  | skipped line rest ih =>
    rw [lines, recipes, unclosed?, gather, sound.1]
    exact ih sound.2
  | recipe name own rest ih => rw [lines, gather_whole sound.1, ih sound.2, recipes, unclosed?]

theorem exists_sound (lines : List Text) : ∃ layout : Layout, layout.lines = lines ∧ layout.Sound := by
  induction size : lines.length using Nat.strong_induction_on generalizing lines with
  | _ n ih =>
    cases lines with
    | nil => exact ⟨done, rfl, trivial⟩
    | cons line lines =>
      cases named : header? line with
      | none =>
        obtain ⟨rest, rfl, sound⟩ := ih lines.length (by simp [← size]) lines rfl
        exact ⟨skipped line rest, rfl, named, sound⟩
      | some name =>
        have headed : (line :: lines).head?.bind header? = some name := named
        rcases complete_cases (line :: lines) with ⟨own, later, split, complete, earliest⟩ | incomplete
        · cases own with
          | nil => exact absurd complete not_complete_nil
          | cons first own =>
            rw [List.cons_append] at split
            obtain ⟨rfl, rfl⟩ := List.cons.inj split
            have shorter : later.length < n := by
              simp only [← size, List.length_cons, List.length_append]
              omega
            obtain ⟨rest, rfl, sound⟩ := ih later.length shorter later rfl
            exact ⟨recipe name (line :: own) rest, rfl, ⟨named, complete, earliest⟩, sound⟩
        · exact ⟨unclosed name (line :: lines), rfl, headed, incomplete⟩

theorem eq_done {layout : Layout} (sound : layout.Sound) (lined : layout.lines = []) :
    layout = done := by
  cases layout with
  | done => rfl
  | unclosed name own => exact absurd lined (ne_nil_of_headed sound.headed)
  | skipped line rest => cases lined
  | recipe name own rest =>
    exact absurd (List.append_eq_nil_iff.mp lined).1 (ne_nil_of_headed sound.1.headed)

theorem eq_skipped {layout : Layout} (sound : layout.Sound) {line : Text} {more : List Text}
    (lined : layout.lines = line :: more) (headless : header? line = none) :
    ∃ rest, layout = skipped line rest ∧ rest.lines = more ∧ rest.Sound := by
  have unheaded : layout.lines.head?.bind header? = none := by simp [lined, headless]
  cases layout with
  | done => cases lined
  | unclosed name own =>
    rw [lines, sound.headed] at unheaded
    contradiction
  | skipped line' rest =>
    obtain ⟨rfl, rfl⟩ := List.cons.inj lined
    exact ⟨rest, rfl, rfl, sound.2⟩
  | recipe name own rest =>
    rw [lines, head?_append_of_headed sound.1.headed] at unheaded
    contradiction

theorem eq_recipe {layout : Layout} (sound : layout.Sound) {name : Text} {own more : List Text}
    (whole : IsWhole name own) (lined : layout.lines = own ++ more) :
    ∃ rest, layout = recipe name own rest ∧ rest.lines = more ∧ rest.Sound := by
  have headed := head?_append_of_headed whole.headed more
  cases layout with
  | done => exact absurd lined (by simp [lines, ne_nil_of_headed whole.headed])
  | unclosed name' own' =>
    exact absurd whole.complete (sound.incomplete own ⟨more, lined.symm⟩)
  | skipped line rest =>
    rw [← lined] at headed
    exact absurd (sound.1.symm.trans headed) (by simp)
  | recipe name' own' rest =>
    obtain ⟨rfl, rfl, same⟩ := sound.1.unique whole lined
    exact ⟨rest, rfl, same, sound.2⟩

theorem eq_unclosed {layout : Layout} (sound : layout.Sound) {name : Text} {own : List Text}
    (isUnclosed : IsUnclosed name own) (lined : layout.lines = own) :
    layout = unclosed name own := by
  have headed := isUnclosed.headed
  cases layout with
  | done => exact absurd lined.symm (ne_nil_of_headed headed)
  | unclosed name' own' =>
    obtain rfl : own' = own := lined
    rw [Option.some.inj (sound.headed.symm.trans headed)]
  | skipped line rest =>
    rw [← lined] at headed
    exact absurd (sound.1.symm.trans headed) (by simp)
  | recipe name' own' rest =>
    exact absurd sound.1.complete (isUnclosed.incomplete own' ⟨rest.lines, lined⟩)

theorem eq_of_lines {layout other : Layout} (sound : layout.Sound) (sound' : other.Sound)
    (same : other.lines = layout.lines) : other = layout := by
  induction layout generalizing other with
  | done => exact eq_done sound' same
  | unclosed name own => exact eq_unclosed sound' sound same
  | skipped line rest ih =>
    obtain ⟨rest', rfl, same', sound''⟩ := eq_skipped sound' same sound.1
    rw [ih sound.2 sound'' same']
  | recipe name own rest ih =>
    obtain ⟨rest', rfl, same', sound''⟩ := eq_recipe sound' sound.1 same
    rw [ih sound.2 sound'' same']

end Layout

/-- The lines of every text have one sound layout, and its recipes are those of the text. The text has
an issue exactly when the layout ends with a recipe that is not closed, which the issue names. -/
theorem all_layout (t : Text) :
    ∃ layout : Layout, (∀ other : Layout, other.lines = t.lines ∧ other.Sound ↔ other = layout) ∧
      (all t).value = layout.recipes ∧
      (all t).issues = layout.unclosed?.toList.map fun name =>
        .unclosedBlock .craftRecipe (String.ofList name) := by
  obtain ⟨layout, lined, sound⟩ := Layout.exists_sound t.lines
  have gathered := Layout.gather_lines sound
  rw [lined] at gathered
  refine ⟨layout, fun other => ⟨?_, ?_⟩, ?_, ?_⟩
  · rintro ⟨lined', sound'⟩
    exact Layout.eq_of_lines sound sound' (lined'.trans lined.symm)
  · rintro rfl
    exact ⟨lined, sound⟩
  · rw [all, gathered]
  · rw [all, gathered]

end CraftScript.RecipeSource
