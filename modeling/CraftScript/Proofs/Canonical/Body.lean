import CraftScript.Proofs.Canonical.Layout

/-! The body of a recipe in canonical form. Its mappers, its sections and its properties are each read
back as they were written. -/
namespace CraftScript.Canonical

open Text
open Block (opener)

theorem isKeyword_inputs : IsKeyword "inputs".toList := by decide

theorem isKeyword_outputs : IsKeyword "outputs".toList := by decide

theorem isKeyword_itemMapper : IsKeyword "itemMapper".toList := by decide

theorem lined_pairs (pairs : List Pair) : ∀ t ∈ pairs.map Pair.line, Lined t := by
  intro t inside
  obtain ⟨pair, -, rfl⟩ := List.mem_map.mp inside
  exact pair.lined_line

theorem lined_entries (entries : List EntryForm) : ∀ t ∈ entryLines entries, Lined t := by
  intro t inside
  obtain ⟨entry, -, rfl⟩ := List.mem_map.mp inside
  exact lined_append entry.lined_text (by decide)

def inputsText (form : RecipeForm) : Text :=
  blockText "inputs".toList (entryLines form.inputs)

def outputsText (form : RecipeForm) : Text :=
  blockText "outputs".toList (entryLines form.outputs)

theorem unlines_body (form : RecipeForm) :
    unlines ([] :: form.bodyLines) = unlines ([] :: form.pairs.map Pair.line) ++
      (unlines (form.mappers.flatMap MapperForm.lines) ++
        (inputsText form ++ '\n' :: (outputsText form ++ ['\n']))) := by
  rw [RecipeForm.bodyLines, ← List.cons_append, unlines_append, unlines_append, unlines_append,
    unlines_enclosed, unlines_enclosed, List.append_assoc]
  rfl

theorem unlines_mappers (mapper : MapperForm) (mappers : List MapperForm) :
    unlines ((mapper :: mappers).flatMap MapperForm.lines) =
      blockText (headLine "itemMapper".toList mapper.name) (mapper.pairs.map Pair.line) ++
        '\n' :: unlines (mappers.flatMap MapperForm.lines) := by
  rw [List.flatMap_cons, unlines_append, MapperForm.lines, unlines_enclosed, List.append_assoc]
  rfl

section Quiet

variable {word pending after rest : Text}

theorem silent_section (keyword : IsKeyword word) (foreign : word.reverse.head? ≠ some ',')
    (calm : Calm pending) {head : Text} (known : IsKeyword head) {entries : List EntryForm}
    (later : ∀ previous, (opener word).Silent previous after rest) (previous : Option Char) :
    (opener word).Silent previous (pending ++ (blockText head (entryLines entries) ++ after))
      rest := by
  apply silent_block keyword
  · exact braceless_append.mpr ⟨calm.free, braceless_append.mpr ⟨known.braceless, braceless_newline⟩⟩
  · exact calm.absent_one known keyword foreign
  · exact lined_entries entries
  · exact later

theorem silent_sections (keyword : IsKeyword word) (foreign : word.reverse.head? ≠ some ',')
    (form : RecipeForm) (calm : Calm pending)
    (later : ∀ previous, (opener word).Silent previous ('\n' :: after) rest)
    (previous : Option Char) :
    (opener word).Silent previous
      (pending ++ (inputsText form ++ '\n' :: (outputsText form ++ '\n' :: after))) rest := by
  apply silent_section keyword foreign calm isKeyword_inputs
  intro before
  exact silent_section keyword foreign calm_newline isKeyword_outputs later before

theorem silent_mappers (keyword : IsKeyword word) (short : word.length ≤ "itemMapper".toList.length)
    (foreign : ¬ word.reverse <+: "itemMapper".toList.reverse) (mappers : List MapperForm)
    (later : ∀ pending, Calm pending → ∀ previous,
      (opener word).Silent previous (pending ++ after) rest)
    (calm : Calm pending) (previous : Option Char) :
    (opener word).Silent previous
      (pending ++ (unlines (mappers.flatMap MapperForm.lines) ++ after)) rest := by
  induction mappers generalizing pending previous with
  | nil => exact later pending calm previous
  | cons mapper mappers ih =>
    rw [unlines_mappers, List.append_assoc]
    apply silent_block keyword
    · exact braceless_append.mpr ⟨calm.free, braceless_head isKeyword_itemMapper mapper.name⟩
    · exact absent_two pending isKeyword_itemMapper mapper.name short foreign
    · exact lined_pairs mapper.pairs
    · intro before
      exact ih calm_newline before

end Quiet

theorem mapper_silent {s rest : Text} {previous : Option Char}
    (silent : (opener "itemMapper".toList).Silent previous s rest) :
    RecipeBody.mapper.Silent previous s rest := by
  intro front c back split
  simp only [RecipeBody.mapper, silent front c back split, Option.bind_eq_bind, Option.bind_none]

def MapperForm.block (form : MapperForm) : Block :=
  ⟨form.name.text, unlines ([] :: form.pairs.map Pair.line)⟩

theorem mapper_read (form : MapperForm) {previous : Option Char} (begins : beginsWord previous)
    (rest : Text) :
    RecipeBody.mapper previous (blockText (headLine "itemMapper".toList form.name) (form.pairs.map Pair.line) ++ rest) =
      some (form.block, rest) := by
  have opened : opener "itemMapper".toList previous
      (blockText (headLine "itemMapper".toList form.name) (form.pairs.map Pair.line) ++ rest) =
        some (form.name.text, form.block.body ++ '}' :: rest) :=
    opener_block form.name (form.pairs.map Pair.line) rest begins
  have free : '}' ∉ form.block.body :=
    fun inside => (braceless_inside (lined_pairs form.pairs) '}' inside).2 rfl
  have closed : splitOnce? '}' (form.block.body ++ '}' :: rest) = some (form.block.body, rest) :=
    splitOnce?_eq_some_iff.mpr ⟨free, rfl⟩
  simp only [RecipeBody.mapper, opened, closed, Option.bind_eq_bind, Option.bind_some]
  rfl

/-- The mappers are found one after another, and a line break is left of each. -/
theorem piecesFrom_mappers (mappers : List MapperForm) {pending after : Text} (calm : Calm pending)
    (quiet : ∀ pending, Calm pending → ∀ previous,
      (opener "itemMapper".toList).Silent previous (pending ++ after) [])
    (previous : Option Char) :
    let pieces := RecipeBody.mapper.piecesFrom 0 previous
      (pending ++ (unlines (mappers.flatMap MapperForm.lines) ++ after))
    pieces.filterMap Piece.value? = mappers.map MapperForm.block ∧
      pieces.flatMap (Piece.replaced []) =
        pending ++ (List.replicate mappers.length '\n' ++ after) := by
  induction mappers generalizing pending previous with
  | nil =>
    have kept := Pattern.piecesFrom_of_silent (mapper_silent (quiet pending calm previous))
    change let pieces := RecipeBody.mapper.piecesFrom 0 previous (pending ++ after)
      pieces.filterMap Piece.value? = [] ∧ pieces.flatMap (Piece.replaced []) = pending ++ after
    rw [kept]
    exact ⟨Piece.filterMap_value?_kept _, Piece.flatMap_replaced_kept [] _⟩
  | cons mapper mappers ih =>
    let block := blockText (headLine "itemMapper".toList mapper.name) (mapper.pairs.map Pair.line)
    let rest := ['\n'] ++ (unlines (mappers.flatMap MapperForm.lines) ++ after)
    have text : pending ++ (unlines ((mapper :: mappers).flatMap MapperForm.lines) ++ after) =
        pending ++ (block ++ rest) := by
      rw [unlines_mappers, List.append_assoc]
      rfl
    have silent : RecipeBody.mapper.Silent previous pending (block ++ rest) :=
      mapper_silent (silent_before_block mapper.name _ rest isKeyword_itemMapper calm.free previous)
    have nonempty : block ≠ [] := by simp [block, blockText]
    have found := Pattern.piecesFrom_found nonempty (mapper_read mapper (calm.beginsWord previous) rest)
    obtain ⟨values, left⟩ := ih calm_newline (lastOf (lastOf previous pending) block)
    rw [text, Pattern.piecesFrom_silent silent, found]
    refine ⟨?_, ?_⟩
    · simp only [List.filterMap_append, Piece.filterMap_value?_kept, List.nil_append,
        List.filterMap_cons, Piece.value?, values, rest, List.map_cons]
    · rw [List.flatMap_append, List.flatMap_cons, Piece.flatMap_replaced_kept]
      exact congrArg (pending ++ ·) left

theorem all_inside (pairs : List Pair) (breaks : Nat) :
    Property.all (unlines ([] :: pairs.map Pair.line) ++ List.replicate breaks '\n') =
      pairs.map Pair.property := by
  have text : unlines ([] :: pairs.map Pair.line) ++ List.replicate breaks '\n' =
      unlines ([] :: pairs.map Pair.line ++ List.replicate breaks []) := by
    rw [unlines_append]
    simp [unlines, List.flatMap_replicate]
  have single : ∀ t ∈ [] :: pairs.map Pair.line ++ List.replicate breaks [],
      '\n' ∉ t ∧ '\r' ∉ t := by
    intro t inside
    rcases List.mem_append.mp inside with early | late
    · rcases List.mem_cons.mp early with rfl | later
      · simp
      · exact single_pairs pairs t later
    · rw [List.eq_of_mem_replicate late]
      simp
  rw [text, all_lines single, List.flatMap_append, List.flatMap_cons, flatMap_readLine, readLine_nil]
  simp [readLine_nil]

theorem mapperTable_block (form : MapperForm) :
    RecipeBody.mapperTable form.block = RecipeForm.table form.pairs := by
  have properties := all_inside form.pairs 0
  rw [List.replicate_zero, List.append_nil] at properties
  rw [RecipeBody.mapperTable, MapperForm.block, properties, List.map_map]
  rfl

theorem takeMappers_body (form : RecipeForm) :
    RecipeBody.takeMappers (unlines ([] :: form.bodyLines)) =
      (Dict.ofList (form.mappers.map fun mapper =>
          (mapper.name.string, RecipeForm.table mapper.pairs)),
        unlines ([] :: form.pairs.map Pair.line) ++ (List.replicate form.mappers.length '\n' ++
          (inputsText form ++ '\n' :: (outputsText form ++ ['\n'])))) := by
  have quiet (pending : Text) (calm : Calm pending) (previous : Option Char) :
      (opener "itemMapper".toList).Silent previous
        (pending ++ (inputsText form ++ '\n' :: (outputsText form ++ ['\n']))) [] := by
    apply silent_sections isKeyword_itemMapper (by decide) form calm
    intro before
    exact Block.opener_silent_end braceless_newline before
  obtain ⟨values, left⟩ := piecesFrom_mappers form.mappers (calm_pairs form.pairs) quiet none
  rw [← unlines_body] at values left
  have entries : form.mappers.map ((fun block => (String.ofList block.name,
      RecipeBody.mapperTable block)) ∘ MapperForm.block) =
      form.mappers.map fun mapper => (mapper.name.string, RecipeForm.table mapper.pairs) := by
    apply List.map_congr_left
    intro mapper _
    exact congrArg (Prod.mk mapper.name.string) (mapperTable_block mapper)
  simp only [RecipeBody.takeMappers, Pattern.takeAll, Pattern.pieces, values, left, List.map_map,
    entries]

theorem braceless_breaks (breaks : Nat) : Braceless (List.replicate breaks '\n') := by
  intro c inside
  rw [List.eq_of_mem_replicate inside]
  decide

theorem Calm.beginsWord_breaks {pending : Text} (calm : Calm pending) (breaks : Nat) :
    Text.beginsWord (lastOf none (pending ++ List.replicate breaks '\n')) := by
  cases breaks with
  | zero =>
    rw [List.replicate_zero, List.append_nil]
    exact calm.beginsWord none
  | succ breaks =>
    rw [List.replicate_succ', ← List.append_assoc, lastOf_append, lastOf_cons, lastOf_nil]
    decide

theorem takeSection_block (settings : Settings) (recipe : String) {word : String}
    (keyword : IsKeyword word.toList) {pending : Text} (calm : Calm pending) (breaks : Nat)
    (entries : List EntryForm) (rest : Text) :
    let found := RecipeBody.takeSection settings recipe word
      (pending ++ List.replicate breaks '\n' ++
        (blockText word.toList (entryLines entries) ++ rest))
    found.value = (⟨Section.entriesOf settings false (entries.map (EntryForm.meaning settings)),
        Section.carriedOf settings (entries.map (EntryForm.meaning settings))⟩,
      pending ++ List.replicate breaks '\n' ++ rest) ∧ found.issues = [] := by
  have cut : RecipeBody.cutSection? word.toList (pending ++ List.replicate breaks '\n' ++
      (blockText word.toList (entryLines entries) ++ rest)) =
        some (unlines ([] :: entryLines entries), pending ++ List.replicate breaks '\n' ++ rest) := by
    rw [blockText_append]
    apply RecipeBody.cutSection?_eq keyword (by decide)
    · exact braceless_append.mpr ⟨calm.free, braceless_breaks breaks⟩
    · exact calm.beginsWord_breaks breaks
    · exact Brace.balanced_of_braceless (braceless_inside (lined_entries entries))
  obtain ⟨value, issues⟩ := read_entries settings entries
  dsimp only
  simp only [RecipeBody.takeSection, cut, WithIssues.value_bind, WithIssues.issues_bind,
    WithIssues.value_pure, WithIssues.issues_pure, value, issues, List.append_nil, and_self]

/-- The body of a form is read as the recipe that the form describes. -/
theorem read_body (settings : Settings) (form : RecipeForm) :
    let found := RecipeBody.read settings form.name.string (unlines ([] :: form.bodyLines))
    found.value = form.recipe settings ∧ found.issues = [] := by
  have calm := calm_pairs form.pairs
  have shift (pending t : Text) (breaks : Nat) : pending ++ List.replicate breaks '\n' ++ '\n' :: t =
      pending ++ List.replicate (breaks + 1) '\n' ++ t := by
    rw [List.replicate_succ', List.append_assoc, List.append_assoc, List.append_assoc]
    rfl
  obtain ⟨inputs, inputsIssues⟩ := takeSection_block settings form.name.string isKeyword_inputs calm
    form.mappers.length form.inputs ('\n' :: (outputsText form ++ ['\n']))
  obtain ⟨outputs, outputsIssues⟩ := takeSection_block settings form.name.string isKeyword_outputs calm
    (form.mappers.length + 1) form.outputs ['\n']
  have mappers := takeMappers_body form
  rw [shift] at inputs outputs
  rw [← List.append_assoc] at mappers
  obtain ⟨value, issues⟩ := RecipeBody.read_steps mappers inputs outputs
  rw [List.append_nil, all_inside, form.foldl_store rfl rfl] at value
  refine ⟨?_, issues.trans (congrArg₂ (· ++ ·) inputsIssues outputsIssues)⟩
  rw [value, RecipeForm.recipe, Dict.nonempty?, Dict.isEmpty_ofList, List.isEmpty_map]

end CraftScript.Canonical
