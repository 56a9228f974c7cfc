import CraftScript.RecipeBody
import CraftScript.Proofs.Canonical.EntryLines
import CraftScript.Proofs.PropertyLayout

/-! Property lines in canonical form, and what a recipe keeps of them. -/
namespace CraftScript.Canonical

open Text

def Pair.property (pair : Pair) : Property :=
  ⟨pair.key.text, pair.value.text⟩

theorem Pair.lined_line (pair : Pair) : Lined pair.line :=
  lined_append (lined_append (lined_append (lined_word pair.key) (by decide)) (lined_word pair.value))
    (by decide)

theorem isEdge_of_isPlain {c : Char} (plain : isPlain c) : Property.isEdge c = false := by
  have notOpen : c ≠ '{' := fun same => absurd (same ▸ plain) (by decide)
  have notClose : c ≠ '}' := fun same => absurd (same ▸ plain) (by decide)
  simp [Property.isEdge, isBlank_of_isPlain plain, notOpen, notClose]

theorem isPiece_word (word : Word) : Property.IsPiece word.text where
  nonempty := word.nonempty
  starts := stops_of_forall fun c inside => isEdge_of_isPlain (word.every c inside)
  ends := stops_of_forall fun c inside => isEdge_of_isPlain (word.every c (by simpa using inside))
  plain := ⟨word.not_mem rfl, word.not_mem rfl, word.not_mem rfl⟩

def Pair.form (pair : Pair) : Property.Form where
  key := pair.key.text
  first := pair.value.text
  others := []
  named := pair.key.nonempty
  oneWord c inside := by
    have plain := pair.key.every c inside
    refine ⟨isBlank_of_isPlain plain, fun sign => ?_⟩
    have foreign : ∀ d ∈ [',', '=', '{', '}', '/'], isPlain d = false := by decide
    rw [foreign c sign] at plain
    contradiction
  pieces := by simpa using isPiece_word pair.value
  unequal := by simp

theorem readLine_line (pair : Pair) : Property.readLine pair.line = [pair.property] := by
  have row := Property.Row.readLine_text ⟨[pair.form], true⟩
  simpa [Property.Row.text, Property.Form.text, Property.Form.value, Property.Form.property,
    Pair.form, Pair.line, Pair.property] using row

theorem readLine_nil : Property.readLine [] = [] := rfl

theorem all_lines {texts : List Text} (single : ∀ t ∈ texts, '\n' ∉ t ∧ '\r' ∉ t) :
    Property.all (unlines texts) = texts.flatMap Property.readLine := by
  rw [Property.all, lines_unlines single]

theorem flatMap_readLine (pairs : List Pair) :
    (pairs.map Pair.line).flatMap Property.readLine = pairs.map Pair.property := by
  induction pairs with
  | nil => rfl
  | cons pair pairs ih => rw [List.map_cons, List.flatMap_cons, readLine_line, ih]; rfl

theorem single_pairs (pairs : List Pair) :
    ∀ t ∈ pairs.map Pair.line, '\n' ∉ t ∧ '\r' ∉ t := by
  intro t inside
  obtain ⟨pair, -, rfl⟩ := List.mem_map.mp inside
  exact ⟨pair.lined_line.not_mem rfl, pair.lined_line.not_mem rfl⟩

theorem detail_word (word : Word) : RecipeBody.detail word.text = .text word.string := by
  have single : ';' ∉ word.text := word.not_mem rfl
  simp [RecipeBody.detail, single, Run.string]

theorem foldl_store_details {pairs : List Pair}
    (uncategorized : ∀ pair ∈ pairs, pair.key.text.sameIgnoringCase "category".toList = false)
    (recipe : Recipe) :
    (pairs.map Pair.property).foldl RecipeBody.store recipe =
      { recipe with
        details := (pairs.map fun pair => (pair.key.string, Detail.text pair.value.string)).foldl
          (fun details entry => details.insert entry.1 entry.2) recipe.details } := by
  induction pairs generalizing recipe with
  | nil => rfl
  | cons pair pairs ih =>
    have stored : RecipeBody.store recipe pair.property =
        { recipe with
          details := recipe.details.insert pair.key.string (.text pair.value.string) } := by
      have other := uncategorized pair (by simp)
      simp only [RecipeBody.store, Pair.property, other, detail_word]
      rfl
    rw [List.map_cons, List.foldl_cons, stored,
      ih fun pair inside => uncategorized pair (by simp [inside])]
    rfl

theorem RecipeForm.foldl_store (form : RecipeForm) {recipe : Recipe} (empty : recipe.details = ∅)
    (uncategorized : recipe.category = none) :
    (form.pairs.map Pair.property).foldl RecipeBody.store recipe =
      { recipe with
        category := form.category.map (·.string)
        details := Dict.ofList (form.properties.map fun pair =>
          (pair.key.string, .text pair.value.string)) } := by
  rw [RecipeForm.pairs, List.map_append, List.foldl_append,
    foldl_store_details form.uncategorized, empty]
  cases form.category with
  | none =>
    rw [uncategorized]
    rfl
  | some value => rfl

end CraftScript.Canonical
