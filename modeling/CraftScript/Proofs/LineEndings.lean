import CraftScript.Proofs.Returns

/-! Line endings. A script whose newlines get carriage returns in front of them is read as before:
sections, properties and sprites do not see the returns, and no name holds one. -/
namespace CraftScript

open Text

open WithIssues

namespace Block

variable {t t' : Text}

theorem agree_pieces (keyword : Keyword) (texts : Returned t t') :
    Agree (AlikePieces Returned) (pieces keyword t) (pieces keyword t') := by
  obtain ⟨unclosed, alike⟩ := scanFrom_alike (isKeyword_word keyword) texts none
  refine ⟨?_, alike⟩
  rw [pieces, pieces, unclosed]

end Block

namespace RecipeBody

variable {t t' : Text}

theorem unmoved_mapper : mapper.Unmoved (Block.Alike Returned) := by
  have opener := @Block.unmoved_opener "itemMapper".toList (by decide)
  refine ⟨fun previous t => ?_, fun previous _ _ texts => ?_⟩
  · rw [mapper, opener.newline]
    rfl
  · refine rel_bind (opener.alike previous texts) fun _ _ named => ?_
    refine rel_bind (rel_splitOnce? (by decide) (by decide) named.2) fun _ _ parts => ?_
    exact .some ⟨⟨named.1, parts.1⟩, parts.2⟩

theorem advances_mapper : mapper.Advances := by
  intro previous t block rest read
  obtain ⟨inside, head, cut⟩ := mapper_eq_some_iff.mp read
  obtain ⟨-, gap, gap', -, -, -, -, -, rfl⟩ := Block.opener_eq_some_iff.mp head
  obtain ⟨-, rfl⟩ := splitOnce?_eq_some_iff.mp cut
  exact ⟨"itemMapper".toList ++ gap ++ block.name ++ gap' ++ '{' :: block.body ++ ['}'], by simp,
    by simp⟩

theorem unmoved_sectionOpener {keyword : Text} (word : IsKeyword keyword) :
    (sectionOpener keyword).Unmoved (· = ·) where
  newline previous t := by
    rw [sectionOpener, literal?_newline word]
    rfl
  alike previous _ _ texts := by
    have line := word.not_mem (c := '\n') (by decide)
    have unreturned := word.not_mem (c := '\r') (by decide)
    refine rel_bind (rel_literal? line unreturned texts) fun _ _ texts => ?_
    refine rel_bind (rel_guard _) fun _ _ _ => ?_
    refine rel_bind (rel_literal? (by decide) (by decide) (returned_dropBlanks texts)) ?_
    exact fun _ _ texts => .some ⟨rfl, texts⟩

theorem rel_cutSection? {keyword : Text} (word : IsKeyword keyword) (texts : Returned t t') :
    Option.Rel (AlikeParts Returned) (cutSection? keyword t) (cutSection? keyword t') := by
  refine rel_bind ((unmoved_sectionOpener word).rel_firstFrom? texts none) fun _ _ found => ?_
  refine rel_bind (Brace.rel_closeFrom? 0 found.2.2) fun _ _ parts => ?_
  exact .some ⟨parts.1, found.1.append parts.2⟩

end RecipeBody

theorem EntryLine.rel_amount? {t t' : Text} (texts : Returned t t') :
    Option.Rel (AlikeRest Returned) (amount? t) (amount? t') := by
  have rest := @returned_dropWhile t t' isDigit (by decide) texts
  have fraction : Option.Rel (AlikeRest Returned) ((literal? (t.dropWhile isDigit) ['.']).bind (run? isDigit))
      ((literal? (t'.dropWhile isDigit) ['.']).bind (run? isDigit)) :=
    rel_bind (rel_literal? (by decide) (by decide) rest) fun _ _ texts =>
      rel_run? (by decide) (by decide) texts
  rw [amount?, amount?, takeWhile_returned_eq (by decide) (by decide) texts]
  generalize (literal? (t.dropWhile isDigit) ['.']).bind (run? isDigit) = found at fraction ⊢
  generalize (literal? (t'.dropWhile isDigit) ['.']).bind (run? isDigit) = found' at fraction ⊢
  cases fraction with
  | some parts => exact .some ⟨congrArg (Prod.mk _) parts.1, parts.2⟩
  | none =>
    dsimp only
    split
    · exact .none
    · exact .some ⟨rfl, rest⟩

namespace Construction

variable {t t' : Text}

theorem unmoved_spriteRow : spriteRow.Unmoved fun row row' => row.words = row'.words where
  newline previous t := rfl
  alike previous _ _ texts := by
    refine rel_bind (rel_literal? (by decide) (by decide) texts) fun _ _ texts => ?_
    refine rel_bind (rel_guard _) fun _ _ _ => ?_
    refine rel_bind (rel_literal? (by decide) (by decide) (returned_dropBlanks texts)) ?_
    intro _ _ texts
    have behind := returned_dropBlanks texts
    refine .some ⟨?_, returned_dropWhile (by decide) behind⟩
    -- A row may keep the return that ends its line, which is a blank between its words.
    have row := @takeWhile_returned _ _ (fun c => c ≠ ',' && c ≠ '\n' && c ≠ '}') (by decide) behind
    rcases row with same | ⟨-, same⟩
    · exact congrArg words same.symm
    · exact ((congrArg words same).trans (words_snoc (by decide) _)).symm

theorem advances_spriteRow : spriteRow.Advances := by
  intro previous t row rest read
  simp only [spriteRow, Option.bind_eq_bind, Option.bind_eq_some_iff, Option.pure_def,
    Option.some.injEq, Prod.mk.injEq, literal?_eq_some_iff] at read
  obtain ⟨behind, rfl, -, -, value, opens, -, rfl⟩ := read
  obtain ⟨gap, -, split⟩ := exists_gap behind
  obtain ⟨gap', -, split'⟩ := exists_gap value
  obtain ⟨row, whole⟩ := value.dropBlanks.dropWhile_suffix fun c => c ≠ ',' && c ≠ '\n' && c ≠ '}'
  refine ⟨"row".toList ++ gap ++ '=' :: gap' ++ row, by simp, ?_⟩
  rw [opens, split', ← whole] at split
  simp [split]

theorem spritesOf_returned {face face' : Block} (alike : face.Alike Returned face') :
    spritesOf face' = spritesOf face := by
  obtain ⟨rows, -⟩ := unmoved_spriteRow.piecesFrom_alike advances_spriteRow alike.2 none none
    fun _ => rfl
  rw [spritesOf, spritesOf, List.flatMap_def, List.flatMap_def]
  refine congrArg List.flatten (Eq.symm ?_)
  exact map_eq_of_forall₂ rows fun _ _ same => congrArg _ same

theorem faces_returned (texts : Returned t t') : faces t' = faces t := by
  apply eq_of_agree
  refine agree_bind (Block.agree_all (Block.agree_pieces .face texts)) fun _ _ found => agree_pure ?_
  refine congrArg Dict.ofList (map_eq_of_forall₂ found fun _ _ each => ?_)
  rw [each.1, spritesOf_returned each]

theorem unmoved_healthAmount : healthAmount.Unmoved (· = ·) where
  newline previous t := rfl
  alike previous _ _ texts := by
    refine rel_bind (rel_folded? (by decide) (by decide) texts) fun _ _ texts => ?_
    refine rel_bind (rel_guard _) fun _ _ _ => ?_
    refine rel_bind (rel_literal? (by decide) (by decide) (returned_dropBlanks texts)) ?_
    exact fun _ _ texts => EntryLine.rel_amount? (returned_dropBlanks texts)

theorem baseHealth?_returned (texts : Returned t t') : baseHealth? t' = baseHealth? t := by
  have found := unmoved_healthAmount.rel_firstFrom? texts none
  rw [baseHealth?, baseHealth?, Pattern.first?, Pattern.first?]
  generalize Pattern.firstFrom? healthAmount none t = here at found ⊢
  generalize Pattern.firstFrom? healthAmount none t' = here' at found ⊢
  cases found with
  | none => rfl
  | some parts => simp [parts.2.1]

end Construction

/-- No reader sees the returns before newlines. -/
theorem unseen_returned : Unseen Returned where
  properties texts := by rw [Property.all, Property.all, lines_returned texts]
  lines texts := by rw [Section.contentLines, Section.contentLines, lines_returned texts]
  mappers texts := RecipeBody.unmoved_mapper.piecesFrom_alike RecipeBody.advances_mapper texts none
    none fun _ => rfl
  sections known texts := by
    have words : ∀ keyword ∈ ["inputs", "outputs"], IsKeyword keyword.toList := by decide
    exact RecipeBody.rel_cutSection? (words _ known) texts
  blocks _ texts := Block.agree_pieces _ texts

theorem Construction.alikeSprites_returned {entity entity' : Block}
    (alike : entity.Alike Returned entity') : AlikeSprites entity entity' := by
  have components := Block.rel_bodies (Block.agree_all (Block.agree_pieces .component alike.2)).2
  exact rel_mono (components "SpriteConfig") fun _ _ texts =>
    ⟨faces_returned texts, baseHealth?_returned texts⟩

/-- The issue without the place of a comment. -/
def Issue.placeless : Issue → Issue
  | .unclosedComment _ => .unclosedComment 0
  | issue => issue

namespace Script

theorem commentIssues_returned {source source' : Text} (texts : Returned source source') :
    (commentIssues source').map Issue.placeless = (commentIssues source).map Issue.placeless := by
  have closed : (Comment.strip source').unclosedAt.isSome =
      (Comment.strip source).unclosedAt.isSome :=
    (Comment.returned_stripFrom texts 0 0).2
  rw [commentIssues, commentIssues]
  cases here : (Comment.strip source).unclosedAt with
  | none =>
    rw [here, Option.isSome_none, Option.isSome_eq_false_iff, Option.isNone_iff_eq_none] at closed
    rw [closed]
  | some offset =>
    rw [here, Option.isSome_some, Option.isSome_iff_exists] at closed
    obtain ⟨offset', here'⟩ := closed
    rw [here']
    rfl

theorem recipes_returned (settings : Settings) {source source' : Text}
    (texts : Returned source source') :
    (recipes settings source').value = (recipes settings source).value ∧
      (recipes settings source').issues.map Issue.placeless =
        (recipes settings source).issues.map Issue.placeless := by
  -- The recipes are found in lines, which are equal; the constructions in texts that are alike.
  have stripped : Returned (Comment.strip source).text (Comment.strip source').text :=
    (Comment.returned_stripFrom texts 0 0).1
  have blocks : RecipeSource.all (Comment.strip source').text =
      RecipeSource.all (Comment.strip source).text := by
    rw [RecipeSource.all, RecipeSource.all, lines_returned stripped]
  have constructed := unseen_returned.constructions settings stripped fun _ _ _ _ alike =>
    Construction.alikeSprites_returned alike
  constructor
  · rw [value_recipes, value_recipes, blocks, constructed]
  · rw [issues_recipes, issues_recipes, blocks, constructed, List.map_append,
      commentIssues_returned texts, ← List.map_append]

/-- Carriage returns before the newlines change no recipe, and of the issues only the place of a
comment that never closes. -/
theorem report_crlf (settings : Settings) {source : Text} (unreturned : '\r' ∉ source) :
    (report settings (crlf source)).recipes = (report settings source).recipes ∧
      (report settings (crlf source)).issues.map Issue.placeless =
        (report settings source).issues.map Issue.placeless := by
  obtain ⟨recipes, issues⟩ := recipes_returned settings (returned_crlf unreturned)
  rw [recipes_report, recipes_report, issues_report, issues_report, recipes]
  exact ⟨rfl, issues⟩

/-- A construction with rows of sprites, one of which begins on a line of its own, a line that is
noted, and a comment that never closes and moves. -/
theorem report_crlf_sprites :
    let source := "module M \x7b\nentity E \x7b\ncomponent CraftRecipe \x7binputs \x7b\nodd\n\x7d\n\x7d
component SpriteConfig \x7b face S \x7b\nrow = a b\nrow =\n c \x7d\x7d\x7d\x7d\n/* open".toList
    '\r' ∉ source ∧ (report {} source).recipes ≠ [] ∧
      (report {} (crlf source)).issues ≠ (report {} source).issues ∧
      (report {} (crlf source)).recipes = (report {} source).recipes ∧
      (report {} (crlf source)).issues.map Issue.placeless =
        (report {} source).issues.map Issue.placeless := by
  intro source
  have unreturned : '\r' ∉ source := by decide +kernel
  exact ⟨unreturned, by decide +kernel, by decide +kernel, report_crlf {} unreturned⟩

end Script

end CraftScript
