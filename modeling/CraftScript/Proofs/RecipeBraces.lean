import CraftScript.Proofs.RecipeMatching

/-! The braces of a recipe. Its lines never open more braces than they close, but they can close more:
the line that completes a recipe belongs to it as a whole, and so do closing braces before the first
one that opens. -/
namespace CraftScript

open Text
open Canonical (unlines unlines_append unlines_cons)

namespace Text

theorem braceless_iff {t : Text} : Braceless t ↔ t.count '{' = 0 ∧ t.count '}' = 0 := by
  rw [List.count_eq_zero, List.count_eq_zero]
  refine ⟨Braceless.not_mem, fun ⟨unopened, unclosed⟩ c inside => ⟨?_, ?_⟩⟩
  · rintro rfl
    exact unopened inside
  · rintro rfl
    exact unclosed inside

theorem exists_lines_of_newline {own : List Text} (single : ∀ line ∈ own, '\n' ∉ line)
    {front rest : Text} (split : unlines own = front ++ '\n' :: rest) :
    ∃ early late, own = early ++ late ∧ unlines early = front ++ ['\n'] ∧ unlines late = rest := by
  induction own generalizing front with
  | nil => simp [unlines] at split
  | cons line own ih =>
    have plain : '\n' ∉ line := single line (by simp)
    rw [unlines_cons] at split
    rcases List.append_eq_append_iff.mp split with ⟨between, rfl, behind⟩ | ⟨between, rfl, behind⟩
    · cases between with
      | nil =>
        obtain ⟨-, rfl⟩ := List.cons.inj behind
        exact ⟨[line], own, rfl, by simp [unlines], rfl⟩
      | cons c between =>
        obtain ⟨rfl, later⟩ := List.cons.inj behind
        obtain ⟨early, late, rfl, text, text'⟩ :=
          @ih (fun other inside => single other (by simp [inside])) between later
        exact ⟨line :: early, late, rfl, by rw [unlines_cons, text]; simp, text'⟩
    · cases between with
      | nil =>
        obtain ⟨-, rfl⟩ := List.cons.inj behind
        exact ⟨[front ++ []], own, rfl, by simp [unlines], rfl⟩
      | cons c between =>
        obtain ⟨rfl, -⟩ := List.cons.inj behind
        exact absurd (by simp) plain

end Text

namespace RecipeSource

theorem Layout.exists_lines_of_mem {layout : Layout} (sound : layout.Sound) {block : RecipeSource}
    (member : block ∈ layout.recipes) :
    ∃ own, own <:+: layout.lines ∧ IsWhole block.name own ∧ block = ofLines block.name own := by
  induction layout with
  | done => simp [recipes] at member
  | unclosed name own => simp [recipes] at member
  | skipped line rest ih =>
    obtain ⟨own, inside, found⟩ := ih sound.2 member
    exact ⟨own, inside.trans (List.suffix_cons line _).isInfix, found⟩
  | recipe name own rest ih =>
    rcases List.mem_cons.mp member with rfl | later
    · exact ⟨own, (List.prefix_append own _).isInfix, sound.1, rfl⟩
    · obtain ⟨own', inside, found⟩ := ih sound.2 later
      exact ⟨own', inside.trans (List.suffix_append own _).isInfix, found⟩

theorem exists_lines_of_mem {t : Text} {block : RecipeSource} (member : block ∈ (all t).value) :
    ∃ own, own <:+: t.lines ∧ IsWhole block.name own ∧ block = ofLines block.name own := by
  obtain ⟨layout, lined, sound⟩ := Layout.exists_sound t.lines
  have gathered := Layout.gather_lines sound
  rw [lined] at gathered
  rw [all, gathered] at member
  rw [← lined]
  exact Layout.exists_lines_of_mem sound member

section Around

variable {own : List Text} {name lead inside behind : Text}

theorem count_around (whole : unlines own = lead ++ '{' :: (inside ++ '}' :: behind))
    (unopened : '{' ∉ lead) (balanced : Brace.Balanced inside) :
    (unlines own).count '{' = inside.count '{' + 1 + behind.count '{' ∧
      (unlines own).count '}' = lead.count '}' + (inside.count '{' + 1 + behind.count '}') := by
  have total := balanced.settled
  rw [whole]
  simp [List.count_append, List.count_eq_zero.mpr unopened]
  omega

/-- A recipe that closes its block ends with the line on which it does, if nothing opens behind it
there. -/
theorem IsWhole.nextLine_eq_nil (isWhole : IsWhole name own) (single : ∀ line ∈ own, '\n' ∉ line)
    (whole : unlines own = lead ++ '{' :: (inside ++ '}' :: behind)) (unopened : '{' ∉ lead)
    (balanced : Brace.Balanced inside) (unopened' : '{' ∉ behind.restOfLine) :
    behind.nextLine = [] := by
  rcases restOfLine_cases behind with ⟨-, ended⟩ | split
  · exact ended
  · have cut : unlines own =
        (lead ++ '{' :: (inside ++ '}' :: behind.restOfLine)) ++ '\n' :: behind.nextLine := by
      rw [whole]
      nth_rewrite 1 [split]
      simp
    obtain ⟨early, late, rfl, text, text'⟩ := exists_lines_of_newline single cut
    have complete : Complete early := by
      have counted := @count_around early lead inside (behind.restOfLine ++ ['\n'])
        (by rw [text]; simp) unopened balanced
      simp only [List.count_append, List.count_eq_zero.mpr unopened'] at counted
      refine ⟨by rw [text]; simp, ?_⟩
      rw [counted.1, counted.2]
      simp
      omega
    -- The lines up to the one that closes the block are complete, so no other line is taken.
    have last : early = early ++ late := Decidable.byContradiction fun short =>
      isWhole.earliest early (List.prefix_append early late) short complete
    obtain rfl : late = [] := by simpa using last
    exact text'.symm

end Around

/-- Every recipe is made of lines of the text, and its text is theirs exactly when they open no comment.
They close at least as many braces as they open. Where the first brace that opens is closed again, the
numbers are equal exactly when what stands before and behind that block evens out; and if nothing opens
behind the block on its line, exactly when no other brace stands around the block at all. Where it is
not closed, a closing brace comes first. -/
theorem even_iff_around {t : Text} {block : RecipeSource} (member : block ∈ (all t).value) :
    ∃ own, own <:+: t.lines ∧ IsWhole block.name own ∧ block = ofLines block.name own ∧
      let text := unlines own
      (block.text = text ↔ ¬ ['/', '*'] <:+: text) ∧
      text.count '{' ≤ text.count '}' ∧
      (Brace.firstBlock? text = none → firstBrace? text = some '}') ∧
      ∀ inside behind, Brace.firstBlock? text = some (inside, behind) →
        ∃ lead, text = lead ++ '{' :: (inside ++ '}' :: behind) ∧ '{' ∉ lead ∧
          (text.count '{' = text.count '}' ↔
            behind.count '{' = lead.count '}' + behind.count '}') ∧
          ('{' ∉ behind.restOfLine →
            (text.count '{' = text.count '}' ↔ Braceless lead ∧ Braceless behind)) := by
  obtain ⟨own, within, isWhole, made⟩ := exists_lines_of_mem member
  have single : ∀ line ∈ own, '\n' ∉ line :=
    fun line member => newline_not_mem_lines (within.subset member)
  refine ⟨own, within, isWhole, made, ?_, isWhole.complete.2, fun bodiless => ?_, ?_⟩
  · rw [made]
    exact Comment.strip_eq_self_iff _
  · cases first : firstBrace? (unlines own) with
    | none => exact absurd (List.find?_eq_none.mp first '{' isWhole.complete.1) (by decide)
    | some b =>
      have brace : b = '{' ∨ b = '}' := by simpa using List.find?_some first
      rcases brace with rfl | rfl
      · obtain ⟨inside, after, found⟩ := Brace.exists_firstBlock? first isWhole.complete.2
        rw [bodiless] at found
        contradiction
      · rfl
  · intro inside behind found
    obtain ⟨lead, whole, unopened, balanced⟩ := Brace.firstBlock?_eq_some_iff.mp found
    obtain ⟨opens, closes⟩ := count_around whole unopened balanced
    have even : (unlines own).count '{' = (unlines own).count '}' ↔
        behind.count '{' = lead.count '}' + behind.count '}' := by
      rw [opens, closes]
      omega
    refine ⟨lead, whole, unopened, even, fun unopened' => ?_⟩
    have ends := isWhole.nextLine_eq_nil single whole unopened balanced unopened'
    have unopened'' : behind.count '{' = 0 := by
      rw [List.count_eq_zero]
      rcases restOfLine_cases behind with ⟨same, -⟩ | same
      · rwa [same]
      · rw [same, ends]
        simpa using unopened'
    rw [even, braceless_iff, braceless_iff, List.count_eq_zero.mpr unopened, unopened'']
    omega

/-- The brace of the module stands on the line that completes the recipe. -/
theorem even_iff_around_module :
    let t : Text := "module M \x7b\ncraftRecipe N \x7b a \x7b \x7d\n\x7d \x7d\n".toList
    let block : RecipeSource := ⟨"N".toList, "craftRecipe N \x7b a \x7b \x7d\n\x7d \x7d\n".toList⟩
    block ∈ (all t).value ∧ block.body? = some " a \x7b \x7d\n".toList ∧
      block.text.count '{' < block.text.count '}' := by
  intro t block
  have member : block ∈ (all t).value := by decide +kernel
  have signless : ¬ ['/', '*'] <:+: unlines t.lines := by decide +kernel
  have found : Brace.firstBlock? block.text = some (" a \x7b \x7d\n".toList, " \x7d\n".toList) := by
    decide +kernel
  obtain ⟨own, ⟨front, back, split⟩, -, -, kept, few, -, around⟩ := even_iff_around member
  have text : block.text = unlines own := by
    refine kept.mpr fun opens => signless (opens.trans ⟨unlines front, unlines back, ?_⟩)
    rw [← split, unlines_append, unlines_append]
  rw [← text] at few around
  obtain ⟨lead, -, -, -, even⟩ := around _ _ found
  refine ⟨member, by rw [body?, found, Option.map_some], lt_of_le_of_ne few fun same => ?_⟩
  have free := ((even (by decide +kernel)).mp same).2
  exact free.not_mem.2 (by decide)

/-- A closing brace behind the block on its line belongs to the recipe. -/
theorem surplus_behind_closing_brace :
    ∃ block ∈ (all "craftRecipe N \x7b \x7d \x7d".toList).value,
      block.text.count '{' = 1 ∧ block.text.count '}' = 2 := by
  decide +kernel

end RecipeSource

end CraftScript
