import CraftScript.RecipeBody

/-! What holds of every item that a recipe takes or yields. A property that item lines bring along and
that fluid lines do not take away holds of all items of a section, those set aside for the outputs
included, and so of all items of a recipe's body. -/
namespace CraftScript

structure Item.Lasting (settings : Settings) (holds : Item → Prop) : Prop where
  drawing {item : Item} (now : holds item) (fluid : Fluid) : holds (item.drawing settings fluid)
  filling {item : Item} (now : holds item) (fluid : Fluid) : holds { item with fluid := some fluid }

/-- What the body of a recipe makes entries of: items of which the property holds, fluids and
energy, but no skins. -/
def Entry.Made (holds : Item → Prop) : Entry → Prop
  | .item i => holds i
  | .fluid _ | .energy _ => True
  | .skin _ => False

def EntryLine.Brings (holds : Item → Prop) : EntryLine → Prop
  | .item i => holds i
  | .fluid _ _ | .energy _ => True

variable {settings : Settings} {holds : Item → Prop}

theorem EntryLine.brings_read?
    (written : ∀ line item, EntryLine.item? settings line = some item → holds item) {line : Text}
    {entry : EntryLine} (read : EntryLine.read? settings line = some entry) :
    entry.Brings holds := by
  unfold EntryLine.read? at read
  split at read
  · cases read
    trivial
  · split at read
    · cases read
      trivial
    · obtain ⟨item, found, rfl⟩ := Option.map_eq_some_iff.mp read
      exact written line item found

namespace Section

theorem made_current {current : Option Item} (carried : ∀ item ∈ current, holds item) :
    ∀ entry ∈ current.toList.map Entry.item, entry.Made holds := by
  intro entry inside
  obtain ⟨item, member, rfl⟩ := List.mem_map.mp inside
  exact carried item (Option.mem_toList.mp member)

/-- The item that is carried along keeps the property from line to line, so it has it where it is
written out and where it is set aside. -/
theorem made_ofLines (lasting : Item.Lasting settings holds) {current : Option Item}
    {lines : List EntryLine} (carried : ∀ item ∈ current, holds item)
    (each : ∀ line ∈ lines, line.Brings holds) :
    (∀ entry ∈ (ofLines settings current lines).entries, entry.Made holds) ∧
      ∀ entry ∈ (ofLines settings current lines).carriedOver, entry.Made holds := by
  fun_induction ofLines settings current lines with
  | case1 current => exact ⟨made_current carried, by simp⟩
  | case2 current item lines rest ih =>
    have now : holds item := each (.item item) (by simp)
    obtain ⟨entries, spare⟩ := ih (by simpa using now)
      fun line inside => each line (List.mem_cons_of_mem _ inside)
    refine ⟨fun entry inside => ?_, spare⟩
    rcases List.mem_append.mp inside with early | late
    · exact made_current carried entry early
    · exact entries entry late
  | case3 current energy lines rest ih =>
    obtain ⟨entries, spare⟩ := ih (by simp)
      fun line inside => each line (List.mem_cons_of_mem _ inside)
    refine ⟨fun entry inside => ?_, spare⟩
    rcases List.mem_append.mp inside with early | late
    · exact made_current carried entry early
    · rcases List.mem_cons.mp late with rfl | later
      · trivial
      · exact entries entry later
  | case4 flow fluid lines rest ih =>
    obtain ⟨entries, spare⟩ := ih (by simp)
      fun line inside => each line (List.mem_cons_of_mem _ inside)
    refine ⟨fun entry inside => ?_, spare⟩
    rcases List.mem_cons.mp inside with rfl | later
    · trivial
    · exact entries entry later
  | case5 item fluid lines ih =>
    have now : holds item := carried item rfl
    exact ih (by simpa using lasting.drawing now fluid)
      fun line inside => each line (List.mem_cons_of_mem _ inside)
  | case6 item fluid lines rest ih =>
    obtain ⟨entries, spare⟩ := ih carried
      fun line inside => each line (List.mem_cons_of_mem _ inside)
    refine ⟨entries, fun entry inside => ?_⟩
    rcases List.mem_cons.mp inside with rfl | later
    · exact lasting.filling (carried item rfl) fluid
    · exact spare entry later

theorem made_read (lasting : Item.Lasting settings holds)
    (written : ∀ line item, EntryLine.item? settings line = some item → holds item) (t : Text) :
    (∀ entry ∈ (read settings t).value.entries, entry.Made holds) ∧
      ∀ entry ∈ (read settings t).value.carriedOver, entry.Made holds := by
  apply made_ofLines lasting (by simp)
  intro entry inside
  rw [WithIssues.value_mapM] at inside
  simp only [List.mem_filterMap, List.mem_map, id] at inside
  obtain ⟨_, ⟨line, -, rfl⟩, found⟩ := inside
  have read : EntryLine.read? settings line = some entry := by
    rw [← found]
    unfold classify
    split
    next read => exact read
    next same => exact same
  exact EntryLine.brings_read? written read

end Section

namespace RecipeBody

theorem made_takeSection (lasting : Item.Lasting settings holds)
    (written : ∀ line item, EntryLine.item? settings line = some item → holds item)
    (recipe keyword : String) (body : Text) :
    (∀ entry ∈ (takeSection settings recipe keyword body).value.1.entries, entry.Made holds) ∧
      ∀ entry ∈ (takeSection settings recipe keyword body).value.1.carriedOver,
        entry.Made holds := by
  unfold takeSection
  split
  · exact Section.made_read lasting written _
  · exact ⟨by simp, by simp⟩

/-- Storing properties changes the category and the details and nothing else. -/
theorem foldl_store (properties : List Property) (recipe : Recipe) :
    ∃ (category : Option String) (details : Dict Detail),
      properties.foldl store recipe = { recipe with category := category, details := details } := by
  induction properties generalizing recipe with
  | nil => exact ⟨recipe.category, recipe.details, rfl⟩
  | cons property properties ih =>
    obtain ⟨category, details, same⟩ := ih (store recipe property)
    refine ⟨category, details, ?_⟩
    rw [List.foldl_cons, same, store]
    split <;> rfl

theorem made_body (lasting : Item.Lasting settings holds)
    (written : ∀ line item, EntryLine.item? settings line = some item → holds item)
    (name : String) (body : Text) :
    (∀ entry ∈ (read settings name body).value.inputs, entry.Made holds) ∧
      ∀ entry ∈ (read settings name body).value.outputs, entry.Made holds := by
  have taken := made_takeSection lasting written name "inputs" (takeMappers body).2
  have yielded := made_takeSection lasting written name "outputs"
    (takeSection settings name "inputs" (takeMappers body).2).value.2
  simp only [read, WithIssues.value_bind, WithIssues.value_pure]
  generalize (takeSection settings name "outputs" _).value = outputs at yielded ⊢
  generalize (takeSection settings name "inputs" _).value = inputs at taken ⊢
  obtain ⟨category, details, same⟩ := foldl_store (Property.all outputs.2)
    { name
      inputs := inputs.1.entries
      outputs := outputs.1.entries ++ inputs.1.carriedOver ++ outputs.1.carriedOver
      mappers := (takeMappers body).1.nonempty? }
  rw [same]
  refine ⟨taken.1, fun entry inside => ?_⟩
  simp only [List.mem_append] at inside
  rcases inside with (own | carried) | carried
  · exact yielded.1 entry own
  · exact taken.2 entry carried
  · exact yielded.2 entry carried

end RecipeBody

end CraftScript
