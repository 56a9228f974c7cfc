import CraftScript.Script
import CraftScript.Proofs.Reading
import CraftScript.Proofs.Bytewise.Occurrences

/-! The whole reading of a script with scanners that walk bytes. Every step that cuts a text, counts
a depth down or looks a recipe up by its index may be left without an answer, and then the reading
has none. Each stage is shown to be the stage that runs, so no script leaves one without. -/
namespace CraftScript.Bytewise

open Text

abbrev Checked := OptionT WithIssues

theorem mapM_some {α β : Type} {f : α → Option β} {g : α → β} (same : ∀ a, f a = some (g a))
    (xs : List α) : xs.mapM f = some (xs.map g) := by
  rw [funext same]
  exact List.mapM_pure

theorem lift_mapM {α β : Type} {f : α → Checked β} {g : α → WithIssues β}
    (same : ∀ a, f a = OptionT.lift (g a)) (xs : List α) :
    xs.mapM f = OptionT.lift (xs.mapM g) := by
  induction xs with
  | nil => simp
  | cons x xs ih => simp only [List.mapM_cons, same, ih, OptionT.lift_bind, OptionT.lift_pure]

/-- What follows a reading need only agree on the value that was read. -/
theorem lift_bind_congr {α β : Type} {x : WithIssues α} {f g : α → Checked β}
    (same : f x.value = g x.value) : OptionT.lift x >>= f = OptionT.lift x >>= g := by
  apply OptionT.ext
  rw [OptionT.run_bind_lift, OptionT.run_bind_lift]
  change (⟨(f x.value).run.value, x.issues ++ (f x.value).run.issues⟩ : WithIssues _) = _
  rw [same]
  rfl

theorem lift_option_mapM {α β : Type} {f : α → Checked β} {g : α → WithIssues β}
    (same : ∀ a, f a = OptionT.lift (g a)) (x : Option α) : x.mapM f = OptionT.lift (x.mapM g) := by
  cases x with
  | none => rfl
  | some a =>
    simp only [Option.mapM_some, same, ← bind_pure_comp, OptionT.lift_bind, OptionT.lift_pure]

def readLine? (line : Text) : Option (List Property) := do
  let line ← uncommented? line
  return Property.readPieces none ((line.splitBy (· == ',')).map (trimWhile Property.isEdge))

def properties? (t : Text) : Option (List Property) := do
  return (← t.lines.mapM readLine?).flatten

def mapperTable? (block : Block) : Option (Dict String) := do
  let properties ← properties? block.body
  return Dict.ofList (properties.map fun property =>
    (String.ofList property.key, String.ofList property.value))

def takeMappers? (body : Text) : Option (Mappers × Text) := do
  let (blocks, rest) := RecipeBody.mapper.takeAll [] body
  let tables ← blocks.mapM fun block => do
    return (String.ofList block.name, ← mapperTable? block)
  return (Dict.ofList tables, rest)

theorem properties?_eq (t : Text) : properties? t = some (Property.all t) := by
  have line (line : Text) : readLine? line = some (Property.readLine line) := by
    rw [readLine?, uncommented?_eq]
    rfl
  rw [properties?, mapM_some line]
  simp [Property.all, List.flatMap_def]

theorem takeMappers?_eq (body : Text) : takeMappers? body = some (RecipeBody.takeMappers body) := by
  have table (block : Block) : mapperTable? block = some (RecipeBody.mapperTable block) := by
    rw [mapperTable?, properties?_eq]
    rfl
  simp only [takeMappers?, table, Option.bind_eq_bind, Option.bind_some, Option.pure_def]
  rw [mapM_some fun _ => rfl]
  rfl

def cleanLine? (line : Text) : Option Text := do
  let line ← uncommented? line
  return trimEnd (dropEndWhile (· == ',') (trim line))

def contentLines? (t : Text) : Option (List Text) := do
  return (← t.lines.mapM cleanLine?).filter (· ≠ [])

def itemOf? (settings : Settings) (index : Nat) (t : Text) : Option Item := do
  let (tagLists, t) := EntryLine.tagList.takeAll [' '] t
  let (flagLists, t) := EntryLine.flagList.takeAll [' '] t
  let (mapper, t) ← takeFirst? EntryLine.mapperName t
  let (mode, t) ← takeFirst? EntryLine.modeWord t
  let (groups, t) := EntryLine.bracketGroup.takeAll [' '] t
  let (counts, t) := EntryLine.itemCount.takeAll [' '] t
  let flags := NameSet.ofList (flagLists.flatMap EntryLine.listOf)
  let ids := if groups.isEmpty then EntryLine.listOf t else groups.flatMap EntryLine.listOf
  return {
    index := UInt32.ofNat index
    ids := ids.map settings.qualify
    mapper := mapper.map String.ofList
    mode := mode.map fun word => String.ofList word.capitalize
    tags := NameSet.ofList (tagLists.flatMap EntryLine.listOf)
    flags := if counts.isEmpty then flags else flags.insert "itemcount" }

theorem itemOf?_eq (settings : Settings) (index : Nat) (t : Text) :
    itemOf? settings index t = some (EntryLine.itemOf settings index t) := by
  simp only [itemOf?, takeFirst?_eq (advances_labelled _ _), EntryLine.mapperName,
    EntryLine.modeWord, Option.bind_eq_bind, Option.bind_some, Option.pure_def]
  rfl

def itemHead? (line : Text) : Option (Nat × Text) := do
  let t ← line.folded? "item".toList
  let t ← t.afterBlanks?
  let (digits, t) ← t.run? isDigit
  guard (t.head?.all fun c => !isWord c)
  let t ← EntryLine.restOfLine? t
  let index ← digits.natural?
  guard (index < UInt32.size)
  return (index, t)

def entryLine? (settings : Settings) (line : Text) : Option (Option EntryLine) :=
  match EntryLine.fluid? line with
  | some (flow, drawn) => some (some (.fluid flow drawn))
  | none =>
    match EntryLine.energy? line with
    | some supplied => some (some (.energy supplied))
    | none =>
      match itemHead? line with
      | none => some none
      | some (index, t) => do
        return some (.item (← itemOf? settings index t))

theorem item?_eq (settings : Settings) (line : Text) :
    EntryLine.item? settings line =
      (itemHead? line).map fun (index, t) => EntryLine.itemOf settings index t := by
  simp only [EntryLine.item?, itemHead?, Option.bind_eq_bind, Option.map_bind,
    Function.comp_def, Option.pure_def, Option.map_some]

theorem entryLine?_eq (settings : Settings) (line : Text) :
    entryLine? settings line = some (EntryLine.read? settings line) := by
  unfold entryLine? EntryLine.read?
  rw [item?_eq]
  cases EntryLine.fluid? line with
  | some drawn => rfl
  | none =>
    cases EntryLine.energy? line with
    | some supplied => rfl
    | none =>
      cases itemHead? line with
      | none => rfl
      | some head => simp [itemOf?_eq]

def classify (settings : Settings) (line : Text) : Checked (Option EntryLine) := do
  match ← (entryLine? settings line).getM with
  | some entry => return some entry
  | none =>
    WithIssues.note (.unrecognizedLine (String.ofList line))
    return none

def readSection (settings : Settings) (t : Text) : Checked Section := do
  let lines ← (contentLines? t).getM
  let entries ← lines.mapM (classify settings)
  return Section.ofLines settings none (entries.filterMap id)

def takeSection (settings : Settings) (recipe keyword : String) (body : Text) :
    Checked (Section × Text) := do
  match ← (cutSection? keyword.toList body).getM with
  | some (inside, rest) => return (← readSection settings inside, rest)
  | none =>
    WithIssues.note (.missingSection recipe keyword)
    return ({}, body)

theorem contentLines?_eq (t : Text) : contentLines? t = some (Section.contentLines t) := by
  have line (line : Text) : cleanLine? line = some (Section.cleanLine line) := by
    rw [cleanLine?, uncommented?_eq]
    rfl
  rw [contentLines?, mapM_some line]
  rfl

theorem classify_eq (settings : Settings) (line : Text) :
    classify settings line = OptionT.lift (Section.classify settings line) := by
  simp only [classify, Section.classify, entryLine?_eq, Option.getM_some, pure_bind]
  cases EntryLine.read? settings line with
  | some entry => simp
  | none => simp only [OptionT.lift_bind, OptionT.lift_pure]; rfl

theorem readSection_eq (settings : Settings) (t : Text) :
    readSection settings t = OptionT.lift (Section.read settings t) := by
  simp only [readSection, Section.read, contentLines?_eq, Option.getM_some, pure_bind,
    lift_mapM (classify_eq settings), OptionT.lift_bind, OptionT.lift_pure]

theorem takeSection_eq (settings : Settings) (recipe keyword : String) (body : Text) :
    takeSection settings recipe keyword body =
      OptionT.lift (RecipeBody.takeSection settings recipe keyword body) := by
  simp only [takeSection, RecipeBody.takeSection, cutSection?_eq, Option.getM_some, pure_bind]
  cases RecipeBody.cutSection? keyword.toList body with
  | some parts => simp only [readSection_eq, OptionT.lift_bind, OptionT.lift_pure]
  | none => simp only [OptionT.lift_bind, OptionT.lift_pure]; rfl

def readBody (settings : Settings) (name : String) (body : Text) : Checked Recipe := do
  let (mappers, body) ← (takeMappers? body).getM
  let (inputs, body) ← takeSection settings name "inputs" body
  let (outputs, body) ← takeSection settings name "outputs" body
  let recipe : Recipe := {
    name
    inputs := inputs.entries
    outputs := outputs.entries ++ inputs.carriedOver ++ outputs.carriedOver
    mappers := mappers.nonempty? }
  let properties ← (properties? body).getM
  return properties.foldl RecipeBody.store recipe

theorem readBody_eq (settings : Settings) (name : String) (body : Text) :
    readBody settings name body = OptionT.lift (RecipeBody.read settings name body) := by
  simp only [readBody, RecipeBody.read, takeMappers?_eq, properties?_eq, takeSection_eq,
    Option.getM_some, pure_bind, OptionT.lift_bind, OptionT.lift_pure]

def located (keyword : Keyword) (t : Text) : Checked (List (Block × Span)) := do
  let (blocks, unclosed) ← (blocksFrom? keyword.word.toList t 0).getM
  if let some name := unclosed then
    WithIssues.note (.unclosedBlock keyword (String.ofList name))
  return blocks

def all (keyword : Keyword) (t : Text) : Checked (List Block) := do
  return (← located keyword t).map (·.1)

theorem blocksFrom?_eq (word t : Text) :
    blocksFrom? word t 0 = some (Piece.located 0 (Block.scanFrom word 0 none t).pieces,
      (Block.scanFrom word 0 none t).unclosed) :=
  blocksFrom?_append word [] t

theorem located_eq (keyword : Keyword) (t : Text) :
    located keyword t = OptionT.lift (Block.located keyword t) := by
  simp only [located, blocksFrom?_eq, Option.getM_some, pure_bind, Block.located, Block.pieces]
  cases (Block.scanFrom keyword.word.toList 0 none t).unclosed <;> rfl

theorem map_located {α : Type} (start : Nat) (pieces : List (Piece α)) :
    (Piece.located start pieces).map (·.1) = pieces.filterMap Piece.value? := by
  induction pieces generalizing start with
  | nil => rfl
  | cons piece pieces ih =>
    cases piece with
    | kept c => exact ih _
    | found value source => exact congrArg (value :: ·) (ih _)

theorem all_eq (keyword : Keyword) (t : Text) :
    all keyword t = OptionT.lift (Block.all keyword t) := by
  simp only [all, located_eq, Block.located, Block.all, OptionT.lift_bind, OptionT.lift_pure,
    bind_assoc, pure_bind, map_located]

def label? (body : Text) : Option Skin := do
  let properties ← properties? body
  return {
    displayName := (Property.find? "DisplayName".toList properties).map String.ofList
    icon := (Property.find? "Icon".toList properties).map String.ofList }

def labels? (entities : List Block) : Option (Dict Skin) := do
  let labels ← entities.mapM fun entity => do
    return (String.ofList entity.name, ← label? entity.body)
  return Dict.ofList labels

def readSkins (block : Block) : Checked SkinSheet := do
  let entities ← all .entity block.body
  let labels ← (labels? entities).getM
  return { name := String.ofList block.name, labels }

def faces (body : Text) : Checked (Dict (List String)) := do
  let faces ← all .face body
  return Dict.ofList (faces.map fun face => (String.ofList face.name, Construction.spritesOf face))

def skin? (skins : Option SkinSheet) (name : String) (components : Dict Text) :
    Option (Option Skin) :=
  match components.get? "UiConfig" with
  | none => some none
  | some body => do
    let properties ← properties? body
    return do
      let style ← Property.find? "entityStyle".toList properties
      let table ← skins
      table.resolve? (String.ofList style) name

def readEntity (settings : Settings) (skins : Option SkinSheet) (entity : Block) :
    Checked (Option Recipe) := do
  let components := Block.bodies (← all .component entity.body)
  let name := String.ofList entity.name
  match components.get? "CraftRecipe" with
  | none => return none
  | some body =>
    let recipe ← readBody settings name body
    let skin ← (skin? skins name components).getM
    let recipe := { recipe with
      construction := true
      outputs := recipe.outputs ++ skin.toList.map .skin }
    match components.get? "SpriteConfig" with
    | none => return some recipe
    | some body =>
      let sprites ← faces body
      return some { recipe with
        sprites := sprites.nonempty?
        baseHealth := Construction.baseHealth? body }

def readModule (settings : Settings) (module : Block) : Checked (List Recipe) := do
  let first := (← located .xuiSkin module.body).head?
  let skins ← first.mapM fun (skin, _) => readSkins skin
  let body ← (withoutSpan? module.body (first.map (·.2))).getM
  let entities ← all .entity body
  let recipes ← entities.mapM (readEntity settings skins)
  return recipes.filterMap id

def constructions (settings : Settings) (t : Text) : Checked (List Recipe) := do
  let modules ← all .module t
  return (← modules.mapM (readModule settings)).flatten

theorem labels?_eq (entities : List Block) :
    labels? entities = some (Dict.ofList (entities.map fun entity =>
      (String.ofList entity.name, SkinSheet.label entity.body))) := by
  have label (body : Text) : label? body = some (SkinSheet.label body) := by
    rw [label?, properties?_eq]
    rfl
  simp only [labels?, label, Option.bind_eq_bind, Option.bind_some, Option.pure_def]
  rw [mapM_some fun _ => rfl]
  rfl

theorem readSkins_eq (block : Block) : readSkins block = OptionT.lift (SkinSheet.read block) := by
  simp only [readSkins, SkinSheet.read, all_eq, labels?_eq, Option.getM_some, pure_bind,
    OptionT.lift_bind, OptionT.lift_pure]

theorem faces_eq (body : Text) : faces body = OptionT.lift (Construction.faces body) := by
  simp only [faces, Construction.faces, all_eq, OptionT.lift_bind, OptionT.lift_pure]

theorem skin?_eq (skins : Option SkinSheet) (name : String) (components : Dict Text) :
    skin? skins name components = some (Construction.skin? skins name components) := by
  unfold skin? Construction.skin?
  cases components.get? "UiConfig" with
  | none => rfl
  | some body => simp only [properties?_eq, Option.bind_eq_bind, Option.bind_some, Option.pure_def]

theorem readEntity_eq (settings : Settings) (skins : Option SkinSheet) (entity : Block) :
    readEntity settings skins entity =
      OptionT.lift (Construction.readEntity settings skins entity) := by
  simp only [readEntity, Construction.readEntity, all_eq, OptionT.lift_bind]
  congr 1
  funext blocks
  cases (Block.bodies blocks).get? "CraftRecipe" with
  | none => simp
  | some body =>
    simp only [readBody_eq, skin?_eq, Option.getM_some, pure_bind, OptionT.lift_bind]
    congr 1
    funext recipe
    cases (Block.bodies blocks).get? "SpriteConfig" with
    | none => simp
    | some body => simp only [faces_eq, OptionT.lift_bind, OptionT.lift_pure]

theorem readModule_eq (settings : Settings) (module : Block) :
    readModule settings module = OptionT.lift (Construction.readModule settings module) := by
  simp only [readModule, Construction.readModule, located_eq, Block.located, OptionT.lift_bind,
    OptionT.lift_pure, bind_assoc, pure_bind]
  apply lift_bind_congr
  generalize found : (Block.pieces .xuiSkin module.body).value = pieces
  have whole : pieces.flatMap Piece.source = module.body := by
    rw [← found]
    exact Block.flatMap_source_scanFrom _ 0 none module.body
  have skin : (Piece.located 0 pieces).head?.map (·.1) = (pieces.filterMap Piece.value?).head? := by
    rw [← List.head?_map, map_located]
  -- The span of the first skin is a span of the body because the pieces make up the body.
  have cut := withoutSpan?_first pieces
  rw [whole] at cut
  have skins : ((Piece.located 0 pieces).head?.mapM fun (skin, _) => readSkins skin) =
      OptionT.lift ((pieces.filterMap Piece.value?).head?.mapM SkinSheet.read) := by
    rw [← skin]
    cases (Piece.located 0 pieces).head? with
    | none => rfl
    | some first => exact lift_option_mapM readSkins_eq (some first.1)
  simp only [skins, cut, Option.getM_some, pure_bind, all_eq,
    lift_mapM (readEntity_eq settings _)]

theorem constructions_eq (settings : Settings) (t : Text) :
    constructions settings t = OptionT.lift (Construction.all settings t) := by
  simp only [constructions, Construction.all, all_eq, lift_mapM (readModule_eq settings),
    OptionT.lift_bind, OptionT.lift_pure]

def finish? (gathering : RecipeSource.Gathering) : Option RecipeSource := do
  let stripped ← strip? gathering.text
  return ⟨gathering.name, stripped.text⟩

def gather? : Option RecipeSource.Gathering → List Text →
    Option (List RecipeSource × Option Text)
  | gathering, [] => some ([], gathering.map (·.name))
  | gathering, line :: lines =>
    match gathering <|> (RecipeSource.header? line).map fun name => { name } with
    | none => gather? none lines
    | some current =>
      let grown := current.push line
      if grown.isComplete then do
        let block ← finish? grown
        let (blocks, unclosed) ← gather? none lines
        return (block :: blocks, unclosed)
      else gather? (some grown) lines

def sources (t : Text) : Checked (List RecipeSource) := do
  let (blocks, unclosed) ← (gather? none t.lines).getM
  if let some name := unclosed then
    WithIssues.note (.unclosedBlock .craftRecipe (String.ofList name))
  return blocks

def body? (block : RecipeSource) : Option (Option Text) := do
  return (← balanced? block.text 0).map fun (block, _) => Brace.inner block

def readBlock (settings : Settings) (block : RecipeSource) : Checked (Option Recipe) := do
  (← (body? block).getM).mapM (readBody settings (String.ofList block.name))

def recipes (settings : Settings) (source : Text) : Checked (List Recipe) := do
  let stripped ← (strip? source).getM
  if let some offset := stripped.unclosedAt then
    WithIssues.note (.unclosedComment offset)
  let blocks ← sources stripped.text
  let crafted ← blocks.mapM (readBlock settings)
  let constructed ← constructions settings stripped.text
  return crafted.filterMap id ++ constructed

theorem gather?_eq (gathering : Option RecipeSource.Gathering) (lines : List Text) :
    gather? gathering lines = some (RecipeSource.gather gathering lines) := by
  fun_induction RecipeSource.gather gathering lines with
  | case1 gathering => rfl
  | case2 gathering line lines idle ih => rw [gather?, idle, ih]
  | case3 gathering line lines current begun grown complete blocks unclosed later ih =>
    have finished : finish? grown = some grown.finish := by
      rw [finish?, strip?_eq]
      rfl
    rw [gather?, begun]
    simp only [grown] at complete finished
    simp only [complete, if_true, finished, ih, later, Option.bind_eq_bind, Option.bind_some,
      Option.pure_def]
    rfl
  | case4 gathering line lines current begun grown incomplete ih =>
    rw [gather?, begun]
    simp only [grown] at incomplete ih
    simp only [incomplete, ih]
    rfl

theorem sources_eq (t : Text) : sources t = OptionT.lift (RecipeSource.all t) := by
  simp only [sources, gather?_eq, Option.getM_some, pure_bind, RecipeSource.all]
  cases (RecipeSource.gather none t.lines).2 <;> rfl

theorem body?_eq (block : RecipeSource) : body? block = some block.body? := by
  have tail : block.text.dropBytes? 0 = some block.text := dropBytes?_append [] block.text
  rw [body?, balanced?_eq, RecipeSource.body?, Brace.blockAt?, tail]
  cases first : Brace.firstBlock? block.text with
  | none => simp [first]
  | some parts => simp [first, inner_braced]

theorem readBlock_eq (settings : Settings) (block : RecipeSource) :
    readBlock settings block = OptionT.lift (Script.readBlock settings block) := by
  rw [readBlock, body?_eq, Option.getM_some, pure_bind, lift_option_mapM (readBody_eq settings _)]
  rfl

theorem recipes_eq (settings : Settings) (source : Text) :
    recipes settings source = OptionT.lift (Script.recipes settings source) := by
  simp only [recipes, Script.recipes, strip?_eq, sources_eq, Option.getM_some, pure_bind,
    lift_mapM (readBlock_eq settings), constructions_eq]
  cases (Comment.strip source).unclosedAt with
  | none => simp only [OptionT.lift_bind, OptionT.lift_pure]
  | some offset =>
    simp only [OptionT.lift_bind, OptionT.lift_pure]
    rfl

def insert? (report : Report) (recipe : Recipe) : Option Report :=
  match report.positions.get? recipe.name with
  | some index => do
    guard (index < report.recipes.length)
    return { report with recipes := report.recipes.set index recipe }
  | none => some { report with
      recipes := report.recipes ++ [recipe]
      positions := report.positions.insert recipe.name report.recipes.length }

def report? (settings : Settings) (source : Text) : Option Report := do
  let found := (recipes settings source).run
  let recipes ← found.value
  recipes.foldlM insert? { issues := found.issues }

theorem insert?_eq {report : Report} (indexed : report.Indexed) (recipe : Recipe) :
    insert? report recipe = some (report.insert recipe) := by
  unfold insert? Report.insert
  cases known : report.positions.get? recipe.name with
  | none => rfl
  | some index =>
    have bound : guard (index < report.recipes.length) = some () :=
      guard_eq_some_iff.mpr (indexed.lt_length known)
    simp only [bound, Option.bind_eq_bind, Option.bind_some, Option.pure_def]

theorem foldlM_insert? {report : Report} (indexed : report.Indexed) (recipes : List Recipe) :
    recipes.foldlM insert? report = some (recipes.foldl Report.insert report) := by
  induction recipes generalizing report with
  | nil => rfl
  | cons recipe recipes ih =>
    rw [List.foldlM_cons, insert?_eq indexed, List.foldl_cons, ← ih (indexed.insert recipe)]
    rfl

/-- Reading a script by bytes gives the report of the script: no range of bytes is cut that is out
of order, beyond the text or inside a character (by `slice?_isSome_iff` and `replace?_isSome_iff` such
a cut has no answer), no depth is counted down at zero, no recipe is stored beyond the others, and
every search ends. The index of the report points among its recipes. -/
theorem report?_eq_some_report (settings : Settings) (source : Text) :
    report? settings source = some (Script.report settings source) ∧
      ∀ name index, (Script.report settings source).positions.get? name = some index →
        index < (Script.report settings source).recipes.length := by
  have read : (recipes settings source).run.value = some (Script.recipes settings source).value := by
    rw [recipes_eq]
    rfl
  have noted : (recipes settings source).run.issues = (Script.recipes settings source).issues := by
    rw [recipes_eq, OptionT.run_lift, WithIssues.issues_bind]
    exact List.append_nil _
  have empty : Report.Indexed { issues := (Script.recipes settings source).issues } :=
    Report.indexed_empty
  constructor
  · simp only [report?, read, noted, Option.bind_eq_bind, Option.bind_some]
    exact foldlM_insert? empty _
  · intro name index known
    exact (Script.recipes_reportAll settings [source]).1.lt_length known

end CraftScript.Bytewise
