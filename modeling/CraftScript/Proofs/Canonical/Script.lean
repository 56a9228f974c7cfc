import CraftScript.Proofs.Canonical.Body
import CraftScript.Proofs.Reading

/-! Canonical scripts as a whole. Their recipes are found line by line where they were written, no
construction is found in them, and the report holds the described recipes in order. -/
namespace CraftScript

theorem Comment.stripFrom_eq_self {t : Text} (absent : '/' ∉ t) (opened offset : Nat) :
    stripFrom 0 opened offset t = ⟨t, none⟩ := by
  induction t generalizing offset with
  | nil => rfl
  | cons c t ih =>
    have other : c ≠ '/' := fun same => absent (by simp [same])
    have later := ih (fun inside => absent (by simp [inside])) (offset + c.utf8Size)
    rw [stripFrom, later]
    · intro t same
      exact absurd same other

theorem Comment.strip_eq_self {t : Text} (absent : '/' ∉ t) : strip t = ⟨t, none⟩ :=
  stripFrom_eq_self absent 0 0

namespace RecipeSource

/-- The lines pass through a gathering inside its braces and leave its depth as it was. -/
def Level (lines : List Text) : Prop :=
  ∀ name front depth rest, 0 < depth →
    gather (some ⟨name, front, depth, true⟩) (lines ++ rest) =
      gather (some ⟨name, front ++ lines, depth, true⟩) rest

theorem level_nil : Level [] := by
  intro name front depth rest deep
  rw [List.nil_append, List.append_nil]

theorem level_append {early late : List Text} (first : Level early) (second : Level late) :
    Level (early ++ late) := by
  intro name front depth rest deep
  rw [List.append_assoc, first name front depth _ deep, second name _ depth rest deep,
    List.append_assoc]

theorem gather_incomplete {gathering : Gathering} {line : Text}
    (incomplete : (gathering.push line).isComplete = false) (rest : List Text) :
    gather (some gathering) (line :: rest) = gather (some (gathering.push line)) rest := by
  simp [gather, incomplete]

theorem gather_complete {gathering : Gathering} {line : Text}
    (closed : (gathering.push line).isComplete) (rest : List Text) :
    gather (some gathering) (line :: rest) =
      ((gathering.push line).finish :: (gather none rest).1, (gather none rest).2) := by
  simp [gather, closed]

theorem push_braceless {line : Text} (free : Text.Braceless line) (gathering : Gathering) :
    gathering.push line = { gathering with lines := gathering.lines ++ [line] } := by
  have opens : '{' ∉ line := fun inside => (free '{' inside).1 rfl
  have closes : '}' ∉ line := fun inside => (free '}' inside).2 rfl
  simp [Gathering.push, List.count_eq_zero_of_not_mem opens, List.count_eq_zero_of_not_mem closes,
    opens]

theorem push_open (gathering : Gathering) :
    gathering.push ['{'] = { gathering with
      lines := gathering.lines ++ [['{']], depth := gathering.depth + 1, opened := true } := by
  simp [Gathering.push]

theorem push_close (gathering : Gathering) :
    gathering.push ['}'] = { gathering with
      lines := gathering.lines ++ [['}']], depth := gathering.depth - 1 } := by
  simp [Gathering.push]

theorem level_line {line : Text} (free : Text.Braceless line) : Level [line] := by
  intro name front depth rest deep
  have step := push_braceless free ⟨name, front, depth, true⟩
  have incomplete : (Gathering.push ⟨name, front, depth, true⟩ line).isComplete = false := by
    rw [step]
    simpa [Gathering.isComplete] using deep
  rw [List.singleton_append, gather_incomplete incomplete, step]

theorem level_lines {lines : List Text} (free : ∀ line ∈ lines, Text.Braceless line) :
    Level lines := by
  induction lines with
  | nil => exact level_nil
  | cons line lines ih =>
    have first := level_line (free line (by simp))
    have later := ih fun line inside => free line (by simp [inside])
    exact level_append first later

theorem level_enclosed {head : Text} {lines : List Text} (free : Text.Braceless head)
    (inner : Level lines) : Level (Canonical.enclosed head lines) := by
  intro name front depth rest deep
  have opening := push_open ⟨name, front ++ [head], depth, true⟩
  have incomplete : (Gathering.push ⟨name, front ++ [head], depth, true⟩ ['{']).isComplete = false := by
    rw [opening]
    simp [Gathering.isComplete]
    omega
  have closing := push_close ⟨name, front ++ [head] ++ [['{']] ++ lines, depth + 1, true⟩
  have stillOpen : (Gathering.push
      ⟨name, front ++ [head] ++ [['{']] ++ lines, depth + 1, true⟩ ['}']).isComplete = false := by
    rw [closing]
    simpa [Gathering.isComplete] using deep
  have split : Canonical.enclosed head lines ++ rest =
      [head] ++ (['{'] :: (lines ++ (['}'] :: rest))) := by
    simp [Canonical.enclosed]
  rw [split, level_line free name front depth _ deep, gather_incomplete incomplete, opening,
    inner name _ (depth + 1) _ (by omega), gather_incomplete stillOpen, closing]
  simp [Canonical.enclosed]

end RecipeSource

namespace Canonical

open Text RecipeSource

theorem header?_line (name : Word) :
    header? (headLine "craftRecipe".toList name) = some name.text := by
  have keyword : folded? (dropBlanks (headLine "craftRecipe".toList name)) "craftrecipe".toList =
      some (' ' :: name.text) := rfl
  have starts : Stops isBlank name.text := by
    simpa using name.stops (fun c => isBlank_of_isPlain) []
  have word : run? Block.isNameChar name.text = some (name.text, []) :=
    run?_eq_some_iff.mpr ⟨name.nonempty,
      fun c inside => isNameChar_of_isPlain (name.every c inside), stops_nil _, by simp⟩
  simp only [header?, keyword, EntryLine.afterBlanks?_space starts, word, Option.bind_eq_bind,
    Option.bind_some]
  rfl

theorem gather_enclosed {head name : Text} (named : header? head = some name)
    (free : Braceless head) {lines : List Text} (inner : Level lines) (rest : List Text) :
    gather none (enclosed head lines ++ rest) =
      (⟨name, (Comment.strip (unlines (enclosed head lines))).text⟩ :: (gather none rest).1,
        (gather none rest).2) := by
  have split : enclosed head lines ++ rest = head :: (['{'] :: (lines ++ (['}'] :: rest))) := by
    simp [enclosed]
  have begun := push_braceless free ⟨name, [], 0, false⟩
  have started : gather none (head :: (['{'] :: (lines ++ (['}'] :: rest)))) =
      gather (some ⟨name, [head], 0, false⟩) (['{'] :: (lines ++ (['}'] :: rest))) := by
    simp [gather, named, begun, Gathering.isComplete]
  have opening := push_open ⟨name, [head], 0, false⟩
  have incomplete : (Gathering.push ⟨name, [head], 0, false⟩ ['{']).isComplete = false := by
    rw [opening]
    rfl
  have closing := push_close ⟨name, [head] ++ [['{']] ++ lines, 0 + 1, true⟩
  have complete : (Gathering.push ⟨name, [head] ++ [['{']] ++ lines, 0 + 1, true⟩
      ['}']).isComplete = true := by
    rw [closing]
    rfl
  have whole : [head] ++ [['{']] ++ lines ++ [['}']] = enclosed head lines := by
    simp [enclosed]
  rw [split, started, gather_incomplete incomplete, opening, inner name _ (0 + 1) _ (by decide),
    gather_complete complete, closing, ← whole]
  rfl

theorem level_body (form : RecipeForm) : Level form.bodyLines := by
  have lines {texts : List Text} (lined : ∀ t ∈ texts, Lined t) : Level texts :=
    level_lines fun t inside => braceless_of_lined (lined t inside)
  have mapper (mapper : MapperForm) : Level mapper.lines := by
    apply level_enclosed
    · exact braceless_of_lined (lined_headLine (by decide) mapper.name)
    · exact lines (lined_pairs mapper.pairs)
  have mappers (mappers : List MapperForm) : Level (mappers.flatMap MapperForm.lines) := by
    induction mappers with
    | nil => exact level_nil
    | cons first mappers ih => exact level_append (mapper first) ih
  have inputs := level_enclosed isKeyword_inputs.braceless (lines (lined_entries form.inputs))
  have outputs := level_enclosed isKeyword_outputs.braceless (lines (lined_entries form.outputs))
  exact level_append (lines (lined_pairs form.pairs))
    (level_append (mappers form.mappers) (level_append inputs outputs))

theorem balanced_block {head : Text} {lines : List Text} {rest : Text} (free : Braceless head)
    (inner : Brace.Balanced (unlines ([] :: lines))) (after : Brace.Balanced rest) :
    Brace.Balanced (blockText head lines ++ rest) := by
  rw [blockText_append]
  apply Brace.settles_append
  · exact Brace.balanced_of_braceless (braceless_append.mpr ⟨free, braceless_newline⟩)
  · exact Brace.balanced_enclosed inner after

theorem balanced_body (form : RecipeForm) : Brace.Balanced (unlines ([] :: form.bodyLines)) := by
  have inside {texts : List Text} (lined : ∀ t ∈ texts, Lined t) :
      Brace.Balanced (unlines ([] :: texts)) :=
    Brace.balanced_of_braceless (braceless_inside lined)
  have newline {t : Text} (after : Brace.Balanced t) : Brace.Balanced ('\n' :: t) :=
    (Brace.settles_plain 0 t (by decide) (by decide)).mpr after
  have sections : Brace.Balanced (inputsText form ++ '\n' :: (outputsText form ++ ['\n'])) := by
    apply balanced_block isKeyword_inputs.braceless (inside (lined_entries form.inputs))
    apply newline
    apply balanced_block isKeyword_outputs.braceless (inside (lined_entries form.outputs))
    exact Brace.balanced_of_braceless braceless_newline
  have mappers (mappers : List MapperForm) {t : Text} (after : Brace.Balanced t) :
      Brace.Balanced (unlines (mappers.flatMap MapperForm.lines) ++ t) := by
    induction mappers with
    | nil => exact after
    | cons mapper mappers ih =>
      rw [unlines_mappers, List.append_assoc]
      apply balanced_block
      · exact braceless_of_lined (lined_headLine (by decide) mapper.name)
      · exact inside (lined_pairs mapper.pairs)
      · exact newline ih
  rw [unlines_body]
  exact Brace.settles_append (inside (lined_pairs form.pairs)) (mappers form.mappers sections)

def Written (t : Text) : Prop :=
  ∀ c ∈ t, isLineChar c || c == '{' || c == '}'

theorem Written.not_mem {t : Text} (written : Written t) {mark : Char}
    (other : (isLineChar mark || mark == '{' || mark == '}') = false) : mark ∉ t := by
  intro inside
  rw [written mark inside] at other
  contradiction

theorem written_of_lined {t : Text} (lined : Lined t) : Written t := by
  intro c inside
  simp [lined c inside]

theorem written_enclosed {head : Text} {lines : List Text} (lined : Lined head)
    (inner : ∀ t ∈ lines, Written t) : ∀ t ∈ enclosed head lines, Written t := by
  intro t inside
  simp only [enclosed, List.mem_cons, List.mem_append, List.not_mem_nil, or_false] at inside
  rcases inside with rfl | rfl | within | rfl
  · exact written_of_lined lined
  · intro c brace
    rw [List.mem_singleton.mp brace]
    decide
  · exact inner t within
  · intro c brace
    rw [List.mem_singleton.mp brace]
    decide

theorem written_lines (form : RecipeForm) : ∀ t ∈ form.lines, Written t := by
  have lines {texts : List Text} (lined : ∀ t ∈ texts, Lined t) : ∀ t ∈ texts, Written t :=
    fun t inside => written_of_lined (lined t inside)
  apply written_enclosed (lined_headLine (by decide) form.name)
  intro t inside
  simp only [RecipeForm.bodyLines, List.mem_append] at inside
  rcases inside with property | mapper | input | output
  · exact lines (lined_pairs form.pairs) t property
  · obtain ⟨mapper, -, within⟩ := List.mem_flatMap.mp mapper
    exact written_enclosed (lined_headLine (by decide) mapper.name) (lines (lined_pairs mapper.pairs))
      t within
  · exact written_enclosed (by decide) (lines (lined_entries form.inputs)) t input
  · exact written_enclosed (by decide) (lines (lined_entries form.outputs)) t output

theorem body?_form (form : RecipeForm) :
    body? ⟨form.name.text, unlines form.lines⟩ = some (unlines ([] :: form.bodyLines)) := by
  have free : Braceless (headLine "craftRecipe".toList form.name ++ ['\n']) :=
    braceless_append.mpr ⟨braceless_of_lined (lined_headLine (by decide) form.name),
      braceless_newline⟩
  have dropped : (unlines form.lines).dropWhile (· ≠ '{') =
      '{' :: (unlines ([] :: form.bodyLines) ++ '}' :: ['\n']) := by
    rw [RecipeForm.lines, unlines_enclosed, blockText_append]
    apply dropWhile_append_stop
    · exact fun c inside => by simpa using (free c inside).1
    · exact stops_cons (by decide) _
  rw [body?, Brace.firstBlock?, dropped]
  simp only [Brace.close?_balanced (balanced_body form)]
  rfl

theorem single_written {lines : List Text} (written : ∀ t ∈ lines, Written t) :
    ∀ t ∈ lines, '\n' ∉ t ∧ '\r' ∉ t :=
  fun t inside => ⟨(written t inside).not_mem rfl, (written t inside).not_mem rfl⟩

theorem strip_unlines {lines : List Text} (written : ∀ t ∈ lines, Written t) :
    Comment.strip (unlines lines) = ⟨unlines lines, none⟩ := by
  apply Comment.strip_eq_self
  intro inside
  obtain ⟨t, member, here⟩ := List.mem_flatMap.mp inside
  have absent : '/' ∉ t := (written t member).not_mem rfl
  simp [absent] at here

theorem gather_forms (forms : List RecipeForm) :
    gather none (forms.flatMap RecipeForm.lines) =
      (forms.map fun form => ⟨form.name.text, unlines form.lines⟩, none) := by
  induction forms with
  | nil => rfl
  | cons form forms ih =>
    have free : Braceless (headLine "craftRecipe".toList form.name) :=
      braceless_of_lined (lined_headLine (by decide) form.name)
    have first := gather_enclosed (header?_line form.name) free (level_body form)
      (forms.flatMap RecipeForm.lines)
    have kept := strip_unlines (written_lines form)
    rw [RecipeForm.lines] at kept
    rw [kept, ih] at first
    rw [List.flatMap_cons, List.map_cons]
    exact first

theorem written_script (forms : List RecipeForm) :
    ∀ t ∈ forms.flatMap RecipeForm.lines, Written t := by
  intro t inside
  obtain ⟨form, -, within⟩ := List.mem_flatMap.mp inside
  exact written_lines form t within

theorem all_script (forms : List RecipeForm) :
    RecipeSource.all (script forms) =
      ⟨forms.map fun form => ⟨form.name.text, unlines form.lines⟩, []⟩ := by
  rw [RecipeSource.all, script, lines_unlines (single_written (written_script forms)), gather_forms]
  rfl

theorem isKeyword_craftRecipe : IsKeyword "craftRecipe".toList := by decide

theorem isKeyword_module : IsKeyword "module".toList := by decide

theorem script_cons (form : RecipeForm) (forms : List RecipeForm) :
    script (form :: forms) = (headLine "craftRecipe".toList form.name ++ ['\n']) ++
      '{' :: (unlines ([] :: form.bodyLines) ++ '}' :: (['\n'] ++ script forms)) := by
  rw [script, List.flatMap_cons, unlines_append, RecipeForm.lines, unlines_enclosed,
    List.append_assoc, blockText_append]
  rfl

/-- No module is found in a canonical script, whatever its names and values are. -/
theorem silent_script (forms : List RecipeForm) {pending : Text} (free : Braceless pending)
    (previous : Option Char) :
    (Block.opener "module".toList).Silent previous (pending ++ script forms) [] := by
  induction forms generalizing pending previous with
  | nil =>
    rw [script, List.flatMap_nil, unlines, List.flatMap_nil, List.append_nil]
    exact Block.opener_silent_end free previous
  | cons form forms ih =>
    have closing (before : Option Char) : (Block.opener "module".toList).Silent before
        ('\n' :: ('}' :: (['\n'] ++ script forms))) [] := by
      apply Block.opener_silent_step isKeyword_module braceless_newline (.inr rfl) (by simp)
      exact ih braceless_newline
    have sections (pending : Text) (calm : Calm pending) (before : Option Char) :
        (Block.opener "module".toList).Silent before (pending ++ (inputsText form ++
          '\n' :: (outputsText form ++ '\n' :: ('}' :: (['\n'] ++ script forms))))) [] :=
      silent_sections isKeyword_module (by decide) form calm closing before
    have body (before : Option Char) : (Block.opener "module".toList).Silent before
        (unlines ([] :: form.bodyLines) ++ '}' :: (['\n'] ++ script forms)) [] := by
      have passed := silent_mappers isKeyword_module (by decide) (by decide) form.mappers sections
        (calm_pairs form.pairs) before
      rw [unlines_body]
      simpa only [List.append_assoc, List.cons_append, List.nil_append] using passed
    rw [script_cons, ← List.append_assoc]
    apply Block.opener_silent_step isKeyword_module _ (.inl rfl) _ body
    · exact braceless_append.mpr ⟨free, braceless_head isKeyword_craftRecipe form.name⟩
    · exact fun _ => absent_two pending isKeyword_craftRecipe form.name (by decide) (by decide)

theorem construction_script (settings : Settings) (forms : List RecipeForm) :
    Construction.all settings (script forms) = pure [] := by
  have silent : (Block.opener Keyword.module.word.toList).Silent none (script forms) [] :=
    @silent_script forms [] (by simp [Braceless]) none
  rw [Construction.all, Block.all_silent silent]
  rfl

theorem readBlock_form (settings : Settings) (form : RecipeForm) :
    (Script.readBlock settings ⟨form.name.text, unlines form.lines⟩).value =
        some (form.recipe settings) ∧
      (Script.readBlock settings ⟨form.name.text, unlines form.lines⟩).issues = [] := by
  obtain ⟨value, issues⟩ := read_body settings form
  have read : Script.readBlock settings ⟨form.name.text, unlines form.lines⟩ =
      some <$> RecipeBody.read settings form.name.string (unlines ([] :: form.bodyLines)) := by
    rw [Script.readBlock, body?_form]
    rfl
  rw [read, WithIssues.value_map, WithIssues.issues_map, value, issues]
  exact ⟨rfl, rfl⟩

/-- A canonical script with distinct names is read without an issue, and the report holds the
described recipes in the order in which they are written. -/
theorem report_script (settings : Settings) {forms : List RecipeForm}
    (distinct : (forms.map (·.name.string)).Nodup) :
    (Script.report settings (script forms)).recipes = forms.map (RecipeForm.recipe settings) ∧
      (Script.report settings (script forms)).issues = [] := by
  have stripped : Comment.strip (script forms) = ⟨script forms, none⟩ :=
    strip_unlines (written_script forms)
  have values : (Script.recipes settings (script forms)).value =
      forms.map (RecipeForm.recipe settings) := by
    rw [Script.value_recipes, stripped, all_script, construction_script, List.map_map]
    simp [Function.comp_def, readBlock_form]
  have issues : (Script.recipes settings (script forms)).issues = [] := by
    rw [Script.issues_recipes, Script.commentIssues, stripped, all_script, construction_script]
    simp [readBlock_form]
  have named : Report.names (forms.map (RecipeForm.recipe settings)) =
      forms.map (·.name.string) := by
    rw [Report.names, List.map_map]
    rfl
  rw [Script.recipes_report, Script.issues_report, values, issues,
    Report.collect_of_nodup (named ▸ distinct)]
  exact ⟨rfl, rfl⟩

def keywordForms : List RecipeForm :=
  let module : Word := ⟨"module".toList, by decide, by decide⟩
  let inputs : Word := ⟨"inputs".toList, by decide, by decide⟩
  let tags : Word := ⟨"tags".toList, by decide, by decide⟩
  let plank : ItemId := ⟨"Base.Plank".toList, by decide, by decide⟩
  let half : Numeral :=
    ⟨⟨"0".toList, by decide, by decide⟩, some ⟨"5".toList, by decide, by decide⟩⟩
  [{ name := module
     properties := [⟨inputs, tags⟩]
     category := some module
     mappers := [⟨inputs, [⟨tags, module⟩]⟩]
     inputs := [
       .item { index := 4294967295, ids := [plank, plank], mapper := some inputs, mode := some tags,
               tags := some [tags, module], flags := some [inputs] },
       .fluid .consumed half [inputs, tags], .fluid .produced half [module], .energy half tags]
     outputs := []
     uncategorized := by decide },
   { name := tags, properties := [], category := none, mappers := [], inputs := [], outputs := []
     uncategorized := by decide }]

theorem report_script_keywords :
    (keywordForms.map (·.name.string)).Nodup ∧
      (Script.report {} (script keywordForms)).recipes = keywordForms.map (RecipeForm.recipe {}) ∧
      (Script.report {} (script keywordForms)).issues = [] :=
  ⟨by decide, report_script {} (by decide)⟩

end Canonical

end CraftScript
