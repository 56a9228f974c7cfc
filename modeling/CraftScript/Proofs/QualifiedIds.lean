import CraftScript.Proofs.RecipeShape

/-! Ids with their modules. An item line qualifies every id it names; the one id that may come to stand
without a dot is the label that a lone wildcard gets, and it comes together with a fluid. -/
namespace CraftScript

theorem Settings.dot_mem_qualify (settings : Settings) (id : String) :
    '.' ∈ (settings.qualify id).toList := by
  unfold qualify
  split
  · rename_i dotted
    simpa using dotted
  · simp

namespace Item

def Qualified (settings : Settings) (item : Item) : Prop :=
  (∀ id ∈ item.ids, '.' ∈ id.toList) ∨
    item.ids = [settings.wildcardFluidLabel] ∧ item.fluid.isSome

theorem lasting_qualified (settings : Settings) :
    Item.Lasting settings (Item.Qualified settings) where
  drawing {item} now fluid := by
    unfold Qualified drawing
    by_cases wild : item.ids = [settings.wildcard]
    · rw [if_pos wild]
      exact .inr ⟨rfl, rfl⟩
    · rw [if_neg wild]
      exact now.imp_right fun labelled => ⟨labelled.1, rfl⟩
  filling now fluid := now.imp_right fun labelled => ⟨labelled.1, rfl⟩

end Item

theorem EntryLine.qualified_item? {settings : Settings} {line : Text} {item : Item}
    (read : EntryLine.item? settings line = some item) : item.Qualified settings := by
  simp only [EntryLine.item?, Option.bind_eq_bind, Option.bind_eq_some_iff, Option.pure_def,
    Option.some.injEq] at read
  obtain ⟨_, _, _, _, _, _, _, _, _, _, _, _, _, _, rfl⟩ := read
  left
  intro id inside
  obtain ⟨name, -, rfl⟩ := List.mem_map.mp inside
  exact settings.dot_mem_qualify name

theorem Recipe.Origin.entries {settings : Settings} {recipe : Recipe}
    (origin : recipe.Origin settings) :
    ∃ (name : String) (body : Text) (skin : Option Skin),
      recipe.inputs = (RecipeBody.read settings name body).value.inputs ∧
        recipe.outputs =
          (RecipeBody.read settings name body).value.outputs ++ skin.toList.map .skin := by
  cases origin with
  | crafted name body => exact ⟨name, body, none, rfl, by simp⟩
  | constructed name body _ skin => exact ⟨name, body, skin, rfl, rfl⟩

namespace Script

/-- No id without a module is reported, whatever the settings are, except for the label of a fluid
container. -/
theorem qualified_reportAll (settings : Settings) (sources : List Text) :
    ∀ recipe ∈ (reportAll settings sources).recipes,
      ∀ item ∈ recipe.itemInputs ++ recipe.itemOutputs, item.Qualified settings := by
  intro recipe reported item inside
  obtain ⟨name, body, skin, inputs, outputs⟩ := (origin_reportAll reported).entries
  obtain ⟨taken, yielded⟩ := RecipeBody.made_body (Item.lasting_qualified settings)
    (fun _ _ => EntryLine.qualified_item?) name body
  have member : Entry.item item ∈ recipe.inputs ++ recipe.outputs := by
    rw [Recipe.itemInputs, Recipe.itemOutputs, ← List.filterMap_append] at inside
    obtain ⟨entry, member, read⟩ := List.mem_filterMap.mp inside
    cases entry <;> cases read
    exact member
  rw [inputs, outputs] at member
  simp only [List.mem_append] at member
  rcases member with own | own | shown
  · exact taken _ own
  · exact yielded _ own
  · simp at shown

/-- Without a default module and with an empty label: a wildcard whose clone is filled after a fluid
was drawn from it, and one from which none is drawn. -/
theorem qualified_reportAll_unnamed :
    let settings : Settings := ⟨"", ""⟩
    let source := "craftRecipe N \x7b inputs \x7b
item 1 [*]\n-fluid 1 Water\n+fluid 2 Oil\nitem 2 Nail;Base.Pot\nitem 3 * \n\x7d outputs \x7b\x7d \x7d"
    let items := (reportAll settings [source.toList]).recipes.flatMap fun recipe =>
      recipe.itemInputs ++ recipe.itemOutputs
    (items.map fun item => (item.ids, item.fluid.isSome)) =
        [([""], true), ([".Nail", "Base.Pot"], false), ([".*"], false), ([""], true)] ∧
      ∀ item ∈ items, item.Qualified settings := by
  intro settings source items
  refine ⟨by decide +kernel, fun item inside => ?_⟩
  obtain ⟨recipe, reported, within⟩ := List.mem_flatMap.mp inside
  exact qualified_reportAll settings _ recipe reported item within

end Script

end CraftScript
