import CraftScript.Proofs.Braces
import CraftScript.Proofs.Reading

/-! Recipe heads and what becomes of them. A head met outside every recipe starts one; the recipe is
read, or noted as unclosed, or lost. Which of the three it is depends on its braces alone. -/
namespace CraftScript

def Issue.unclosedRecipe? : Issue → Option String
  | .unclosedBlock .craftRecipe name => some name
  | _ => none

namespace WithIssues

def KeepsRecipes {α : Type} (found : WithIssues α) : Prop :=
  ∀ issue ∈ found.issues, issue.unclosedRecipe? = none

theorem keepsRecipes_pure {α : Type} (a : α) : KeepsRecipes (pure a) := by
  simp [KeepsRecipes]

theorem keepsRecipes_note {issue : Issue} (other : issue.unclosedRecipe? = none) :
    KeepsRecipes (note issue) := by
  simpa [KeepsRecipes] using other

theorem keepsRecipes_bind {α β : Type} {x : WithIssues α} {f : α → WithIssues β}
    (first : KeepsRecipes x) (second : ∀ a, KeepsRecipes (f a)) : KeepsRecipes (x >>= f) := by
  intro issue inside
  rcases List.mem_append.mp inside with early | late
  · exact first issue early
  · exact second x.value issue late

theorem keepsRecipes_map {α β : Type} {f : α → β} {x : WithIssues α} (kept : KeepsRecipes x) :
    KeepsRecipes (f <$> x) := by
  intro issue inside
  rw [issues_map] at inside
  exact kept issue inside

theorem keepsRecipes_mapM {α β : Type} {f : α → WithIssues β} {xs : List α}
    (each : ∀ x ∈ xs, KeepsRecipes (f x)) : KeepsRecipes (xs.mapM f) := by
  intro issue inside
  rw [issues_mapM] at inside
  obtain ⟨x, member, inside⟩ := List.mem_flatMap.mp inside
  exact each x member issue inside

theorem unclosed_of_keepsRecipes {α : Type} {found : WithIssues α} (kept : KeepsRecipes found) :
    found.issues.filterMap Issue.unclosedRecipe? = [] :=
  List.filterMap_eq_nil_iff.mpr kept

end WithIssues

open WithIssues

namespace RecipeBody

theorem keepsRecipes_classify (settings : Settings) (line : Text) :
    KeepsRecipes (Section.classify settings line) := by
  unfold Section.classify
  split
  · exact keepsRecipes_pure _
  · exact keepsRecipes_bind (keepsRecipes_note rfl) fun _ => keepsRecipes_pure _

theorem keepsRecipes_section (settings : Settings) (t : Text) :
    KeepsRecipes (Section.read settings t) :=
  keepsRecipes_bind (keepsRecipes_mapM fun _ _ => keepsRecipes_classify settings _)
    fun _ => keepsRecipes_pure _

theorem keepsRecipes_takeSection (settings : Settings) (recipe keyword : String) (body : Text) :
    KeepsRecipes (takeSection settings recipe keyword body) := by
  unfold takeSection
  split
  · exact keepsRecipes_bind (keepsRecipes_section settings _) fun _ => keepsRecipes_pure _
  · exact keepsRecipes_bind (keepsRecipes_note rfl) fun _ => keepsRecipes_pure _

theorem keepsRecipes_read (settings : Settings) (name : String) (body : Text) :
    KeepsRecipes (read settings name body) := by
  unfold read
  refine keepsRecipes_bind (keepsRecipes_takeSection settings name _ _) fun inputs => ?_
  refine keepsRecipes_bind (keepsRecipes_takeSection settings name _ _) fun outputs => ?_
  exact keepsRecipes_pure _

theorem store_name (recipe : Recipe) (property : Property) :
    (store recipe property).name = recipe.name := by
  unfold store
  split <;> rfl

theorem store_construction (recipe : Recipe) (property : Property) :
    (store recipe property).construction = recipe.construction := by
  unfold store
  split <;> rfl

theorem foldl_store_name (recipe : Recipe) (properties : List Property) :
    (properties.foldl store recipe).name = recipe.name := by
  induction properties generalizing recipe with
  | nil => rfl
  | cons property properties ih => rw [List.foldl_cons, ih, store_name]

theorem foldl_store_construction (recipe : Recipe) (properties : List Property) :
    (properties.foldl store recipe).construction = recipe.construction := by
  induction properties generalizing recipe with
  | nil => rfl
  | cons property properties ih => rw [List.foldl_cons, ih, store_construction]

theorem read_name (settings : Settings) (name : String) (body : Text) :
    (read settings name body).value.name = name := by
  simp [read, foldl_store_name]

theorem read_construction (settings : Settings) (name : String) (body : Text) :
    (read settings name body).value.construction = false := by
  simp [read, foldl_store_construction]

end RecipeBody

namespace Construction

theorem keepsRecipes_pieces {keyword : Keyword} (other : keyword ≠ .craftRecipe) (t : Text) :
    KeepsRecipes (Block.pieces keyword t) := by
  intro issue inside
  obtain ⟨name, -, rfl⟩ := List.mem_map.mp inside
  cases keyword with
  | craftRecipe => contradiction
  | module | xuiSkin | entity | component | face => rfl

theorem keepsRecipes_blocks {keyword : Keyword} (other : keyword ≠ .craftRecipe) (t : Text) :
    KeepsRecipes (Block.all keyword t) :=
  keepsRecipes_bind (keepsRecipes_pieces other t) fun _ => keepsRecipes_pure _

theorem keepsRecipes_entity (settings : Settings) (skins : Option SkinSheet) (entity : Block) :
    KeepsRecipes (readEntity settings skins entity) := by
  unfold readEntity
  refine keepsRecipes_bind (keepsRecipes_blocks (by decide) _) fun components => ?_
  dsimp only
  split
  · exact keepsRecipes_pure _
  · refine keepsRecipes_bind (RecipeBody.keepsRecipes_read settings _ _) fun recipe => ?_
    split
    · exact keepsRecipes_pure _
    · refine keepsRecipes_bind ?_ fun _ => keepsRecipes_pure _
      exact keepsRecipes_bind (keepsRecipes_blocks (by decide) _) fun _ => keepsRecipes_pure _

theorem keepsRecipes_skins (skins : Option Block) :
    KeepsRecipes (skins.mapM SkinSheet.read) := by
  cases skins with
  | none => exact keepsRecipes_pure _
  | some block =>
    refine keepsRecipes_map ?_
    exact keepsRecipes_bind (keepsRecipes_blocks (by decide) _) fun _ => keepsRecipes_pure _

theorem keepsRecipes_module (settings : Settings) (module : Block) :
    KeepsRecipes (readModule settings module) := by
  unfold readModule
  refine keepsRecipes_bind (keepsRecipes_pieces (by decide) _) fun pieces => ?_
  refine keepsRecipes_bind (keepsRecipes_skins _) fun skins => ?_
  refine keepsRecipes_bind (keepsRecipes_blocks (by decide) _) fun entities => ?_
  refine keepsRecipes_bind ?_ fun _ => keepsRecipes_pure _
  exact keepsRecipes_mapM fun _ _ => keepsRecipes_entity settings skins _

theorem keepsRecipes_all (settings : Settings) (t : Text) : KeepsRecipes (all settings t) := by
  unfold all
  refine keepsRecipes_bind (keepsRecipes_blocks (by decide) _) fun modules => ?_
  refine keepsRecipes_bind ?_ fun _ => keepsRecipes_pure _
  exact keepsRecipes_mapM fun _ _ => keepsRecipes_module settings _

theorem readEntity_construction {settings : Settings} {skins : Option SkinSheet} {entity : Block}
    {recipe : Recipe} (found : (readEntity settings skins entity).value = some recipe) :
    recipe.construction = true := by
  simp only [readEntity, value_bind] at found
  split at found
  · simp at found
  · simp only [value_bind] at found
    split at found
    all_goals
      simp only [value_bind, value_pure, Option.some.injEq] at found
      rw [← found]

theorem all_construction (settings : Settings) (t : Text) :
    ∀ recipe ∈ (all settings t).value, recipe.construction = true := by
  intro recipe inside
  simp only [all, readModule, value_bind, value_pure, value_mapM, List.mem_flatten,
    List.mem_map] at inside
  obtain ⟨recipes, ⟨module, -, rfl⟩, inside⟩ := inside
  simp only [List.mem_filterMap, List.mem_map, id] at inside
  obtain ⟨_, ⟨entity, -, rfl⟩, found⟩ := inside
  exact readEntity_construction found

end Construction

namespace RecipeSource

def advance (state : Option Gathering) (line : Text) : Option Gathering :=
  match state <|> (header? line).map fun name => { name := name } with
  | none => none
  | some current =>
    let grown := current.push line
    if grown.isComplete then none else some grown

/-- The names in the heads that the scan meets while no recipe is being gathered. -/
def heads : Option Gathering → List Text → List Text
  | _, [] => []
  | none, line :: lines => (header? line).toList ++ heads (advance none line) lines
  | some gathering, line :: lines => heads (advance (some gathering) line) lines

theorem push_name (gathering : Gathering) (line : Text) :
    (gathering.push line).name = gathering.name := rfl

/-- A head becomes a block or is the one left open, and these stand in the order of the heads. -/
theorem names_gather (state : Option Gathering) (lines : List Text) :
    (gather state lines).1.map (·.name) ++ (gather state lines).2.toList =
      (state.map (·.name)).toList ++ heads state lines := by
  induction lines generalizing state with
  | nil => simp [gather, heads]
  | cons line lines ih =>
    cases state with
    | some gathering =>
      cases complete : (gathering.push line).isComplete with
      | true =>
        have rest := ih none
        simp only [Option.map_none, Option.toList_none, List.nil_append] at rest
        simp [gather, heads, advance, complete, rest, Gathering.finish, push_name]
      | false =>
        have rest := ih (some (gathering.push line))
        simpa [gather, heads, advance, complete, push_name] using rest
    | none =>
      cases head : header? line with
      | none =>
        have rest := ih none
        simpa [gather, heads, advance, head] using rest
      | some name =>
        cases complete : (Gathering.push { name := name } line).isComplete with
        | true =>
          have rest := ih none
          simp only [Option.map_none, Option.toList_none, List.nil_append] at rest
          simp [gather, heads, advance, head, complete, rest, Gathering.finish, push_name]
        | false =>
          have rest := ih (some (Gathering.push { name := name } line))
          simpa [gather, heads, advance, head, complete, push_name] using rest

theorem body?_isSome_iff (block : RecipeSource) :
    block.body?.isSome ↔ Brace.Encloses block.text := by
  rw [← Brace.firstBlock?_isSome_iff]
  simp [body?]

end RecipeSource

namespace Script

open RecipeSource

/-- What answers for a head, by name: the recipes that are no constructions, and behind them the
recipes noted as unclosed. -/
def answers (found : WithIssues (List Recipe)) : List String :=
  (found.value.filter (!·.construction)).map (·.name) ++
    found.issues.filterMap Issue.unclosedRecipe?

theorem keepsRecipes_readBlock (settings : Settings) (block : RecipeSource) :
    KeepsRecipes (readBlock settings block) := by
  unfold readBlock
  cases block.body? with
  | none => exact keepsRecipes_pure _
  | some body => exact keepsRecipes_map (RecipeBody.keepsRecipes_read settings _ body)

theorem names_readBlocks (settings : Settings) (blocks : List RecipeSource) :
    ((blocks.map fun block => (readBlock settings block).value).filterMap id).map (·.name) =
      (blocks.filter (·.body?.isSome)).map (String.ofList ·.name) := by
  induction blocks with
  | nil => rfl
  | cons block blocks ih =>
    cases body : block.body? with
    | none => simpa [value_readBlock, body] using ih
    | some inside => simpa [value_readBlock, body, RecipeBody.read_name] using ih

/-- Taking only some blocks loses a name unless all of them are taken. -/
theorem filter_names_eq_iff (blocks : List RecipeSource) (rest : List String) :
    (blocks.filter (·.body?.isSome)).map (String.ofList ·.name) ++ rest =
      blocks.map (String.ofList ·.name) ++ rest ↔ ∀ block ∈ blocks, block.body?.isSome := by
  constructor
  · intro same
    have sizes := congrArg List.length same
    simp only [List.length_append, List.length_map, Nat.add_right_cancel_iff] at sizes
    exact List.length_filter_eq_length_iff.mp sizes
  · intro every
    rw [List.filter_eq_self.mpr every]

theorem filter_crafted (settings : Settings) (blocks : List RecipeSource) :
    ((blocks.map fun block => (readBlock settings block).value).filterMap id).filter
      (!·.construction) =
      (blocks.map fun block => (readBlock settings block).value).filterMap id := by
  rw [List.filter_eq_self]
  intro recipe inside
  simp only [List.mem_filterMap, List.mem_map, id] at inside
  obtain ⟨_, ⟨block, -, rfl⟩, found⟩ := inside
  rw [value_readBlock, Option.map_eq_some_iff] at found
  obtain ⟨body, -, rfl⟩ := found
  simp [RecipeBody.read_construction]

theorem answers_recipes (settings : Settings) (source : Text) :
    answers (recipes settings source) =
      ((RecipeSource.all (Comment.strip source).text).value.filter (·.body?.isSome)).map
        (String.ofList ·.name) ++
      (gather none (Comment.strip source).text.lines).2.toList.map String.ofList := by
  have constructed : (Construction.all settings (Comment.strip source).text).value.filter
      (!·.construction) = [] := by
    rw [List.filter_eq_nil_iff]
    intro recipe inside
    simp [Construction.all_construction settings _ recipe inside]
  have comments : (commentIssues source).filterMap Issue.unclosedRecipe? = [] := by
    rw [List.filterMap_eq_nil_iff]
    intro issue inside
    obtain ⟨offset, -, rfl⟩ := List.mem_map.mp inside
    rfl
  have noted : (RecipeSource.all (Comment.strip source).text).issues.filterMap
      Issue.unclosedRecipe? =
      (gather none (Comment.strip source).text.lines).2.toList.map String.ofList := by
    simp [RecipeSource.all, List.filterMap_map, Function.comp_def, Issue.unclosedRecipe?]
  have kept : KeepsRecipes
      ((RecipeSource.all (Comment.strip source).text).value.mapM (readBlock settings)) :=
    keepsRecipes_mapM fun block _ => keepsRecipes_readBlock settings block
  have crafted := unclosed_of_keepsRecipes kept
  have others := unclosed_of_keepsRecipes
    (Construction.keepsRecipes_all settings (Comment.strip source).text)
  unfold answers
  rw [value_recipes, issues_recipes, List.filter_append, filter_crafted, constructed,
    List.append_nil, names_readBlocks]
  simp only [List.filterMap_append, comments, noted, crafted, others, List.nil_append,
    List.append_nil]

/-- Each head met outside every recipe is answered by one recipe of its name or by one issue that
names it, exactly when the first brace of every block closes. -/
theorem answers_eq_heads_iff (settings : Settings) (source : Text) :
    answers (recipes settings source) =
        (heads none (Comment.strip source).text.lines).map String.ofList ↔
      ∀ block ∈ (RecipeSource.all (Comment.strip source).text).value,
        Brace.Encloses block.text := by
  have names := names_gather none (Comment.strip source).text.lines
  simp only [Option.map_none, Option.toList_none, List.nil_append] at names
  rw [answers_recipes, ← names, List.map_append, List.map_map]
  have counted := filter_names_eq_iff (RecipeSource.all (Comment.strip source).text).value
    ((gather none (Comment.strip source).text.lines).2.toList.map String.ofList)
  simp only [body?_isSome_iff] at counted
  exact counted

/-- The braces of `craftRecipe N }{` balance by their count, so the block is complete; but its first
opening brace never closes, and neither a recipe nor an issue answers for `N`. -/
theorem head_lost_behind_closing_brace :
    heads none (Comment.strip "craftRecipe N \x7d\x7b".toList).text.lines = ["N".toList] ∧
      answers (recipes {} "craftRecipe N \x7d\x7b".toList) = [] := by
  decide

end Script

end CraftScript
