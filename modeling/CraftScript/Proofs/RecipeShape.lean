import CraftScript.Proofs.Heads
import CraftScript.Proofs.Lines
import CraftScript.Proofs.Reading
import CraftScript.Proofs.SectionItems
import CraftScript.Proofs.Tables

/-! The shape of every recipe that is read. Each stage vouches for the part that it makes: the heads
for names, the property reader for keys, the body for its details, the lines of a section for tags
and flags, and constructions for skins and sprites. -/
namespace CraftScript

namespace Text

theorem isInfix_trimWhile (drops : Char → Bool) (t : Text) : trimWhile drops t <:+: t :=
  (isPrefix_dropEndWhile drops _).isInfix.trans (List.dropWhile_suffix drops).isInfix

theorem mem_of_mem_trimWhile {drops : Char → Bool} {t : Text} {c : Char}
    (inside : c ∈ trimWhile drops t) : c ∈ t :=
  (isInfix_trimWhile drops t).subset inside

theorem trimWhile_trimWhile (drops : Char → Bool) (t : Text) :
    trimWhile drops (trimWhile drops t) = trimWhile drops t := by
  apply trimWhile_eq_self
  · intro c first
    obtain ⟨rest, split⟩ := isPrefix_dropEndWhile drops (t.dropWhile drops)
    apply stops_dropWhile drops t
    rw [← split, List.head?_append, ← trimWhile, first, Option.some_or]
  · rw [trimWhile, dropEndWhile, List.reverse_reverse]
    exact stops_dropWhile drops _

theorem mem_listItems {separates : Char → Bool} {t item : Text}
    (inside : item ∈ listItems separates t) :
    item ≠ [] ∧ trim item = item ∧ ∀ c ∈ item, separates c = false := by
  obtain ⟨member, nonempty⟩ := List.mem_filter.mp inside
  obtain ⟨piece, split, rfl⟩ := List.mem_map.mp member
  refine ⟨by simpa using nonempty, trimWhile_trimWhile _ _, fun c within => ?_⟩
  exact plain_of_mem_splitBy split c (mem_of_mem_trimWhile within)

end Text

open Text

namespace NameSet

def Tidy (set : NameSet) : Prop :=
  ∀ name ∈ set.names, name ≠ "" ∧ trim name.toList = name.toList

theorem tidy_ofList {names : List String}
    (each : ∀ name ∈ names, name ≠ "" ∧ trim name.toList = name.toList) : Tidy (ofList names) :=
  fun name inside => each name (mem_ofList.mp inside)

theorem Tidy.insert {set : NameSet} (tidy : Tidy set) {name : String} (nonempty : name ≠ "")
    (trimmed : trim name.toList = name.toList) : Tidy (set.insert name) := by
  intro other inside
  rcases mem_insertName.mp inside with rfl | known
  · exact ⟨nonempty, trimmed⟩
  · exact tidy other known

end NameSet

def Item.Tidy (item : Item) : Prop :=
  item.tags.Tidy ∧ item.flags.Tidy

namespace EntryLine

theorem mem_listOf {t : Text} {name : String} (inside : name ∈ listOf t) :
    name ≠ "" ∧ trim name.toList = name.toList := by
  obtain ⟨item, member, rfl⟩ := List.mem_map.mp inside
  obtain ⟨nonempty, trimmed, -⟩ := mem_listItems member
  refine ⟨?_, by rw [String.toList_ofList, trimmed]⟩
  intro empty
  exact nonempty (by simpa using congrArg String.toList empty)

theorem tidy_lists (lists : List Text) : (NameSet.ofList (lists.flatMap listOf)).Tidy := by
  apply NameSet.tidy_ofList
  intro name inside
  obtain ⟨list, -, within⟩ := List.mem_flatMap.mp inside
  exact mem_listOf within

theorem tidy_itemOf (settings : Settings) (index : Nat) (t : Text) :
    (itemOf settings index t).Tidy := by
  refine ⟨tidy_lists _, ?_⟩
  simp only [itemOf]
  split
  · exact tidy_lists _
  · exact (tidy_lists _).insert (by decide) (by decide)

theorem tidy_item? {settings : Settings} {line : Text} {item : Item}
    (read : item? settings line = some item) : item.Tidy := by
  simp only [item?, Option.bind_eq_bind, Option.bind_eq_some_iff, Option.pure_def,
    Option.some.injEq] at read
  obtain ⟨_, _, _, _, _, _, _, _, _, _, _, _, _, _, rfl⟩ := read
  exact tidy_itemOf settings _ _

end EntryLine

def Entry.Crafted : Entry → Prop
  | .item i => i.Tidy
  | .fluid _ | .energy _ => True
  | .skin _ => False

theorem Entry.crafted_of_made {entry : Entry} (made : entry.Made Item.Tidy) : entry.Crafted := by
  cases entry <;> exact made

theorem Item.lasting_tidy (settings : Settings) : Item.Lasting settings Item.Tidy where
  drawing tidy _ := tidy
  filling tidy _ := tidy

namespace Property

def IsKey (key : Text) : Prop :=
  key ≠ [] ∧ ∀ c ∈ key, isBlank c = false ∧ c ≠ ',' ∧ c ≠ '='

theorem isKey_readPieces {current : Option Property} {pieces : List Text}
    (keyed : ∀ property ∈ current, IsKey property.key) (single : ∀ piece ∈ pieces, ',' ∉ piece) :
    ∀ property ∈ readPieces current pieces, IsKey property.key := by
  induction pieces generalizing current with
  | nil => simpa [readPieces] using keyed
  | cons piece pieces ih =>
    have later : ∀ piece ∈ pieces, ',' ∉ piece :=
      fun piece inside => single piece (List.mem_cons_of_mem _ inside)
    -- A piece with an equals sign ends the property before it.
    have ended {next : Option Property} (good : ∀ property ∈ next, IsKey property.key) :
        ∀ property ∈ current.toList ++ readPieces next pieces, IsKey property.key := by
      intro property inside
      rcases List.mem_append.mp inside with early | late
      · exact keyed property (Option.mem_toList.mp early)
      · exact ih good later property late
    unfold readPieces
    split
    · exact ih keyed later
    · apply ih _ later
      intro property inside
      obtain ⟨earlier, known, rfl⟩ := Option.map_eq_some_iff.mp inside
      exact keyed earlier known
    · rename_i piece _ _ left right _ cut
      dsimp only
      split
      · exact ended (by simp)
      · rename_i good
        apply ended
        simp only [Bool.or_eq_true, decide_eq_true_eq, List.any_eq_true, not_or, not_exists,
          not_and] at good
        obtain ⟨absent, whole⟩ := splitOnce?_eq_some_iff.mp cut
        rintro property ⟨⟩
        refine ⟨good.1, fun c inside => ⟨by simpa using good.2 c inside, ?_, ?_⟩⟩
        · rintro rfl
          exact single piece (by simp) (by rw [whole]; simp [mem_of_mem_trimWhile inside])
        · rintro rfl
          exact absent (mem_of_mem_trimWhile inside)

theorem isKey_all {t : Text} {property : Property} (inside : property ∈ all t) :
    IsKey property.key := by
  obtain ⟨line, -, within⟩ := List.mem_flatMap.mp inside
  apply isKey_readPieces (by simp) _ property within
  intro piece member comma
  obtain ⟨part, split, rfl⟩ := List.mem_map.mp member
  simpa using plain_of_mem_splitBy split ',' (mem_of_mem_trimWhile comma)

end Property

def Detail.Tidy : Detail → Prop
  | .text value => ';' ∉ value.toList
  | .list items => ∀ item ∈ items, item ≠ "" ∧ trim item.toList = item.toList ∧ ';' ∉ item.toList

namespace RecipeBody

theorem tidy_detail (value : Text) : (detail value).Tidy := by
  unfold detail
  split
  · intro item inside
    obtain ⟨part, member, rfl⟩ := List.mem_map.mp inside
    obtain ⟨nonempty, trimmed, plain⟩ := mem_listItems member
    rw [String.toList_ofList]
    refine ⟨fun empty => nonempty (by simpa using congrArg String.toList empty), trimmed, ?_⟩
    intro semicolon
    simpa using plain ';' semicolon
  · rename_i plain
    simpa [Detail.Tidy] using plain

def Stored (entry : String × Detail) : Prop :=
  Property.IsKey entry.1.toList ∧ sameIgnoringCase entry.1.toList "category".toList = false ∧
    entry.2.Tidy

theorem stored_store {property : Property} {recipe : Recipe} (key : Property.IsKey property.key)
    (stored : ∀ entry ∈ recipe.details.entries, Stored entry) :
    ∀ entry ∈ (store recipe property).details.entries, Stored entry := by
  unfold store
  split
  next => exact stored
  next other =>
    intro entry inside
    rcases Dict.mem_insertEntry inside with rfl | known
    · rw [Stored, String.toList_ofList]
      exact ⟨key, by simpa using other, tidy_detail _⟩
    · exact stored entry known

theorem stored_foldl_store {properties : List Property} {recipe : Recipe}
    (keys : ∀ property ∈ properties, Property.IsKey property.key)
    (stored : ∀ entry ∈ recipe.details.entries, Stored entry) :
    ∀ entry ∈ (properties.foldl store recipe).details.entries, Stored entry := by
  induction properties generalizing recipe with
  | nil => exact stored
  | cons property properties ih =>
    apply ih (fun other inside => keys other (List.mem_cons_of_mem property inside))
    exact stored_store (keys property (by simp)) stored

end RecipeBody

def Block.IsName (name : Text) : Prop :=
  name ≠ [] ∧ ∀ c ∈ name, isBlank c = false ∧ c ≠ '{' ∧ c ≠ '}'

namespace Recipe

/-- What holds of every recipe that is read from scripts. -/
structure Shaped (recipe : Recipe) : Prop where
  name : Block.IsName recipe.name.toList
  mappers : ∀ mappers, recipe.mappers = some mappers → mappers.entries ≠ []
  sprites : ∀ sprites, recipe.sprites = some sprites → sprites.entries ≠ []
  details : ∀ entry ∈ recipe.details.entries, RecipeBody.Stored entry
  inputs : ∀ entry ∈ recipe.inputs, entry.Crafted
  outputs : ∃ (front : List Entry) (skin : Option Skin),
    recipe.outputs = front ++ skin.toList.map .skin ∧ (∀ entry ∈ front, entry.Crafted) ∧
      (skin.isSome → recipe.construction)
  crafted : recipe.construction = false → recipe.sprites = none ∧ recipe.baseHealth = none

end Recipe

namespace Dict

variable {α : Type}

theorem entries_nonempty? {dict held : Dict α} (there : dict.nonempty? = some held) :
    held.entries ≠ [] := by
  unfold nonempty? at there
  split at there
  · contradiction
  · rename_i filled
    cases there
    intro empty
    exact filled (by simp [isEmpty, empty])

end Dict

namespace RecipeBody

theorem shaped_read (settings : Settings) {name : String} (body : Text)
    (named : Block.IsName name.toList) :
    (read settings name body).value.Shaped ∧
      ∀ entry ∈ (read settings name body).value.outputs, entry.Crafted := by
  obtain ⟨taken, yielded⟩ := made_body (Item.lasting_tidy settings)
    (fun _ _ => EntryLine.tidy_item?) name body
  simp only [read, WithIssues.value_bind, WithIssues.value_pure] at taken yielded ⊢
  generalize (takeSection settings name "outputs" _).value = outputs at taken yielded ⊢
  generalize (takeSection settings name "inputs" _).value = inputs at taken yielded ⊢
  generalize start : ({
    name
    inputs := inputs.1.entries
    outputs := outputs.1.entries ++ inputs.1.carriedOver ++ outputs.1.carriedOver
    mappers := (takeMappers body).1.nonempty? } : Recipe) = recipe at taken yielded ⊢
  obtain ⟨category, details, same⟩ := foldl_store (Property.all outputs.2) recipe
  have held := @stored_foldl_store (Property.all outputs.2) recipe
    (fun property inside => Property.isKey_all inside)
    (by simp [← start, EmptyCollection.emptyCollection, Dict.empty])
  rw [same] at taken yielded held ⊢
  have crafted := fun entry inside => Entry.crafted_of_made (yielded entry inside)
  subst start
  refine ⟨?_, crafted⟩
  exact {
    name := named
    mappers := fun mappers there => Dict.entries_nonempty? there
    sprites := by simp
    details := held
    inputs := fun entry inside => Entry.crafted_of_made (taken entry inside)
    outputs := ⟨_, none, by simp, crafted, by simp⟩
    crafted := fun _ => ⟨rfl, rfl⟩ }

end RecipeBody

namespace Block

theorem isName_of_chars {name : Text} (nonempty : name ≠ []) (every : ∀ c ∈ name, isNameChar c) :
    IsName name :=
  ⟨nonempty, fun c inside => by simpa [isNameChar, and_assoc] using every c inside⟩

theorem isName_scanFrom {word : Text} {covered : Nat} {previous : Option Char} {t : Text}
    {block : Block}
    (inside : block ∈ (scanFrom word covered previous t).pieces.filterMap Piece.value?) :
    IsName block.name := by
  obtain ⟨_, _, _, _, opened, -⟩ := exists_of_mem_scanFrom inside
  obtain ⟨-, _, _, -, -, nonempty, every, -⟩ := opener_eq_some_iff.mp opened
  exact isName_of_chars nonempty every

theorem isName_all {keyword : Keyword} {t : Text} {block : Block}
    (inside : block ∈ (all keyword t).value) : IsName block.name :=
  isName_scanFrom inside

end Block

namespace RecipeSource

theorem isName_header? {line name : Text} (read : header? line = some name) :
    Block.IsName name := by
  simp only [header?, Option.bind_eq_bind, Option.bind_eq_some_iff, Option.pure_def,
    Option.some.injEq, Prod.exists, run?_eq_some_iff] at read
  obtain ⟨_, _, _, _, _, _, ⟨nonempty, every, -, -⟩, rfl⟩ := read
  exact Block.isName_of_chars nonempty every

theorem isName_gather {gathering : Option Gathering} {lines : List Text}
    (begun : ∀ current ∈ gathering, Block.IsName current.name) :
    ∀ block ∈ (gather gathering lines).1, Block.IsName block.name := by
  induction lines generalizing gathering with
  | nil => simp [gather]
  | cons line lines ih =>
    rw [gather]
    split
    next => exact ih (by simp)
    next current found =>
      have named : Block.IsName current.name := by
        cases gathering with
        | some earlier =>
          obtain rfl : earlier = current := by simpa using found
          exact begun earlier rfl
        | none =>
          obtain ⟨name, read, rfl⟩ := Option.map_eq_some_iff.mp found
          exact isName_header? read
      dsimp only
      split
      next =>
        intro block inside
        rcases List.mem_cons.mp inside with rfl | later
        · exact named
        · exact ih (by simp) block later
      next => exact ih (by rintro _ ⟨⟩; exact named)

theorem isName_all {t : Text} {block : RecipeSource} (inside : block ∈ (all t).value) :
    Block.IsName block.name :=
  isName_gather (by simp) block inside

end RecipeSource

/-- Where a recipe comes from: a body, and in a construction what the entity around it adds. -/
inductive Recipe.Origin (settings : Settings) : Recipe → Prop
  | crafted (name : String) (body : Text) (named : Block.IsName name.toList) :
      Origin settings (RecipeBody.read settings name body).value
  | constructed (name : String) (body : Text) (named : Block.IsName name.toList)
      (skin : Option Skin) (sprites : Option (Dict (List String))) (baseHealth : Option Amount)
      (listed : ∀ table, sprites = some table → table.entries ≠ []) :
      Origin settings { (RecipeBody.read settings name body).value with
        construction := true
        outputs := (RecipeBody.read settings name body).value.outputs ++ skin.toList.map .skin
        sprites
        baseHealth }

theorem Recipe.Origin.shaped {settings : Settings} {recipe : Recipe}
    (origin : recipe.Origin settings) : recipe.Shaped := by
  cases origin with
  | crafted name body named => exact (RecipeBody.shaped_read settings body named).1
  | constructed name body named skin sprites baseHealth listed =>
    obtain ⟨shaped, crafted⟩ := RecipeBody.shaped_read settings body named
    exact { shaped with
      sprites := listed
      outputs := ⟨_, skin, rfl, crafted, fun _ => rfl⟩
      crafted := by simp }

namespace Construction

theorem origin_readEntity {settings : Settings} {skins : Option SkinSheet} {entity : Block}
    {recipe : Recipe} (named : Block.IsName entity.name)
    (read : (readEntity settings skins entity).value = some recipe) : recipe.Origin settings := by
  simp only [readEntity, WithIssues.value_bind] at read
  split at read
  next => cases read
  next body _ =>
    have named : Block.IsName (String.ofList entity.name).toList := by simpa using named
    have unlisted := (RecipeBody.shaped_read settings body named).1.sprites
    simp only [WithIssues.value_bind] at read
    split at read
    next =>
      cases read
      exact .constructed _ body named _ _ _ unlisted
    next =>
      cases read
      exact .constructed _ body named _ _ _ fun sprites there => Dict.entries_nonempty? there

theorem origin_all {settings : Settings} {t : Text} {recipe : Recipe}
    (inside : recipe ∈ (all settings t).value) : recipe.Origin settings := by
  simp only [all, readModule, WithIssues.value_bind, WithIssues.value_pure, WithIssues.value_mapM,
    List.mem_flatten, List.mem_map, id] at inside
  obtain ⟨_, ⟨module, -, rfl⟩, within⟩ := inside
  simp only [List.mem_filterMap, List.mem_map] at within
  obtain ⟨_, ⟨entity, member, rfl⟩, read⟩ := within
  exact origin_readEntity (Block.isName_all member) read

end Construction

namespace Report

theorem mem_place {recipes : List Recipe} {recipe other : Recipe}
    (inside : other ∈ place recipes recipe) : other = recipe ∨ other ∈ recipes := by
  induction recipes with
  | nil => simpa [place] using inside
  | cons first rest ih =>
    rw [place] at inside
    split at inside <;> grind

theorem mem_collect {history : List Recipe} {recipe : Recipe} (inside : recipe ∈ collect history) :
    recipe ∈ history := by
  induction history using List.reverseRecOn with
  | nil => simp [collect] at inside
  | append_singleton history later ih =>
    rw [collect_concat] at inside
    rcases mem_place inside with rfl | known
    · simp
    · exact List.mem_append_left _ (ih known)

end Report

namespace Script

theorem origin_recipes {settings : Settings} {source : Text} {recipe : Recipe}
    (inside : recipe ∈ (recipes settings source).value) : recipe.Origin settings := by
  rw [value_recipes] at inside
  rcases List.mem_append.mp inside with crafted | constructed
  · simp only [List.mem_filterMap, List.mem_map, id] at crafted
    obtain ⟨_, ⟨block, member, rfl⟩, read⟩ := crafted
    rw [value_readBlock] at read
    obtain ⟨body, -, rfl⟩ := Option.map_eq_some_iff.mp read
    exact .crafted _ body (by simpa using RecipeSource.isName_all member)
  · exact Construction.origin_all constructed

theorem origin_reportAll {settings : Settings} {sources : List Text} {recipe : Recipe}
    (inside : recipe ∈ (reportAll settings sources).recipes) : recipe.Origin settings := by
  rw [(recipes_reportAll settings sources).2] at inside
  obtain ⟨source, -, read⟩ := List.mem_flatMap.mp (Report.mem_collect inside)
  exact origin_recipes read

theorem shaped_reportAll (settings : Settings) (sources : List Text) :
    ∀ recipe ∈ (reportAll settings sources).recipes, recipe.Shaped :=
  fun _ inside => (origin_reportAll inside).shaped

/-- A construction with a skin, sprites and a list among its details. -/
theorem shaped_reportAll_wall :
    let source := "module M\x7bxuiSkin S\x7bentity W\x7bIcon=old\x7d\x7d
entity W\x7bcomponent UiConfig\x7bentityStyle=S\x7d
component SpriteConfig\x7bface N\x7brow=a b\x7d\x7d
component CraftRecipe\x7bk=a;b;\x7d\x7d\x7d"
    let wall : Recipe := {
      name := "W"
      outputs := [.skin { icon := some "old" }]
      construction := true
      sprites := some (Dict.ofList [("N", ["a", "b"])])
      details := Dict.ofList [("k", .list ["a", "b"])] }
    wall ∈ (reportAll {} [source.toList]).recipes ∧ wall.Shaped := by
  intro source wall
  have read : wall ∈ (reportAll {} [source.toList]).recipes := by decide +kernel
  exact ⟨read, shaped_reportAll _ _ _ read⟩

end Script

end CraftScript
