import CraftScript.Document.Encoding
import CraftScript.Report
import Mathlib.Data.List.Induction
import Mathlib.Data.List.Nodup

/-! Reports as the outcome of their history. Whatever insertions and merges built a report, its
recipes are those of placing the whole history one by one, and its index finds each of them. -/
namespace CraftScript.Report

def place (recipes : List Recipe) (recipe : Recipe) : List Recipe :=
  match recipes with
  | [] => [recipe]
  | first :: rest =>
    if first.name = recipe.name then recipe :: rest else first :: place rest recipe

def collect (history : List Recipe) : List Recipe :=
  history.foldl place []

def names (recipes : List Recipe) : List String :=
  recipes.map (·.name)

theorem collect_concat (history : List Recipe) (recipe : Recipe) :
    collect (history ++ [recipe]) = place (collect history) recipe := by
  simp [collect]

theorem names_place (recipes : List Recipe) (recipe : Recipe) :
    names (place recipes recipe) =
      if recipe.name ∈ names recipes then names recipes else names recipes ++ [recipe.name] := by
  induction recipes with
  | nil => simp [place, names]
  | cons first rest ih =>
    by_cases same : first.name = recipe.name
    · simp [place, names, same]
    · have other : recipe.name ≠ first.name := fun equal => same equal.symm
      simp only [names] at ih
      by_cases known : recipe.name ∈ rest.map (·.name)
      · simp [place, names, same, ih, known]
      · simp [place, names, same, ih, known, other]

theorem mem_names_place {recipes : List Recipe} {recipe : Recipe} {name : String}
    (known : name ∈ names recipes) : name ∈ names (place recipes recipe) := by
  rw [names_place]
  split
  · exact known
  · exact List.mem_append_left _ known

theorem self_mem_names_place (recipes : List Recipe) (recipe : Recipe) :
    recipe.name ∈ names (place recipes recipe) := by
  rw [names_place]
  split
  · assumption
  · simp

theorem nodup_names_place {recipes : List Recipe} (recipe : Recipe)
    (distinct : (names recipes).Nodup) : (names (place recipes recipe)).Nodup := by
  rw [names_place]
  split
  next => exact distinct
  next absent => exact List.nodup_append.mpr ⟨distinct, by simp, by grind⟩

theorem find?_place (recipes : List Recipe) (recipe : Recipe) (name : String) :
    (place recipes recipe).find? (·.name == name) =
      if recipe.name = name then some recipe else recipes.find? (·.name == name) := by
  induction recipes with
  | nil => simp [place]
  | cons first rest ih =>
    by_cases same : first.name = recipe.name
    · by_cases wanted : recipe.name = name
      · simp [place, same, wanted]
      · simp [place, same, wanted]
    · by_cases found : first.name = name
      · subst found
        have other : recipe.name ≠ first.name := fun equal => same equal.symm
        simp [place, same, other]
      · simp [place, same, found, ih]

theorem place_place_of_eq {first second : Recipe} (same : first.name = second.name)
    (recipes : List Recipe) : place (place recipes first) second = place recipes second := by
  induction recipes with
  | nil => simp [place, same]
  | cons head rest ih =>
    by_cases known : head.name = first.name
    · simp [place, known, same]
    · have other : head.name ≠ second.name := fun equal => known (equal.trans same.symm)
      simp [place, known, other, ih]

/-- Recipes of different names change places freely once the first of them has its place. -/
theorem place_comm {first second : Recipe} (different : first.name ≠ second.name)
    {recipes : List Recipe} (known : first.name ∈ names recipes) :
    place (place recipes first) second = place (place recipes second) first := by
  induction recipes with
  | nil => simp [names] at known
  | cons head rest ih =>
    by_cases atFirst : head.name = first.name
    · have notSecond : head.name ≠ second.name := fun equal => different (atFirst.symm.trans equal)
      simp [place, atFirst, different]
    · have inRest : first.name ∈ names rest := by
        rcases List.mem_cons.mp known with equal | inside
        · exact absurd equal.symm atFirst
        · exact inside
      by_cases atSecond : head.name = second.name
      · have notFirst : second.name ≠ first.name := different.symm
        simp [place, atSecond, notFirst]
      · simp [place, atFirst, atSecond, ih inRest]

theorem foldl_place_comm {recipe : Recipe} {later : List Recipe}
    (absent : recipe.name ∉ names later) {recipes : List Recipe}
    (known : recipe.name ∈ names recipes) :
    later.foldl place (place recipes recipe) = place (later.foldl place recipes) recipe := by
  induction later generalizing recipes with
  | nil => rfl
  | cons next later ih =>
    have different : recipe.name ≠ next.name := fun equal => absent (by simp [names, equal])
    have further : recipe.name ∉ names later := fun inside =>
      absent (List.mem_cons_of_mem _ inside)
    rw [List.foldl_cons, List.foldl_cons, place_comm different known,
      ih further (mem_names_place known)]

/-- A recipe may be placed among others before they are replayed or after. -/
theorem foldl_place_place {recipes : List Recipe} (distinct : (names recipes).Nodup)
    (recipe : Recipe) (base : List Recipe) :
    (place recipes recipe).foldl place base = place (recipes.foldl place base) recipe := by
  induction recipes generalizing base with
  | nil => rfl
  | cons first rest ih =>
    obtain ⟨absent, restDistinct⟩ := List.nodup_cons.mp distinct
    by_cases same : first.name = recipe.name
    · have further : recipe.name ∉ names rest := same ▸ absent
      have known : recipe.name ∈ names (place base first) :=
        same ▸ self_mem_names_place base first
      simp only [place, same, if_true, List.foldl_cons]
      rw [← place_place_of_eq same base, foldl_place_comm further known]
    · simp only [place, same, if_false, List.foldl_cons]
      exact ih restDistinct (place base first)

theorem nodup_names_collect (history : List Recipe) : (names (collect history)).Nodup := by
  induction history using List.reverseRecOn with
  | nil => simp [collect, names]
  | append_singleton history recipe ih =>
    rw [collect_concat]
    exact nodup_names_place recipe ih

theorem foldl_place_collect (history base : List Recipe) :
    (collect history).foldl place base = history.foldl place base := by
  induction history using List.reverseRecOn with
  | nil => rfl
  | append_singleton history recipe ih =>
    rw [collect_concat, foldl_place_place (nodup_names_collect history), ih, List.foldl_append]
    rfl

theorem names_collect (history : List Recipe) :
    names (collect history) = (names history).eraseDups := by
  induction history using List.reverseRecOn with
  | nil => rfl
  | append_singleton history recipe ih =>
    have split : names (history ++ [recipe]) = names history ++ [recipe.name] := by simp [names]
    rw [collect_concat, names_place, ih, split, List.eraseDups_append]
    by_cases known : recipe.name ∈ names history
    · simp [known, List.removeAll]
    · simp [known, List.removeAll, List.eraseDups_cons]

theorem find?_collect (history : List Recipe) (name : String) :
    (collect history).find? (·.name == name) = history.reverse.find? (·.name == name) := by
  induction history using List.reverseRecOn with
  | nil => rfl
  | append_singleton history recipe ih =>
    rw [collect_concat, find?_place, ih, List.reverse_append, List.reverse_singleton,
      List.singleton_append]
    by_cases same : recipe.name = name
    · simp [same]
    · have missed : (recipe.name == name) = false := by simpa using same
      simp [same, missed]

def Indexed (report : Report) : Prop :=
  ∀ name index, report.positions.get? name = some index ↔ (names report.recipes)[index]? = some name

theorem indexed_empty : Indexed {} := by
  intro name index
  simp [names, Dict.get?, EmptyCollection.emptyCollection, Dict.empty]

theorem Indexed.distinct {report : Report} (indexed : Indexed report) :
    (names report.recipes).Nodup := by
  rw [List.nodup_iff_getElem?_ne_getElem?]
  intro i j less inside same
  have bound : i < (names report.recipes).length := Nat.lt_trans less inside
  have first := (indexed _ i).mpr (List.getElem?_eq_getElem bound)
  have second := (indexed _ j).mpr (same.symm.trans (List.getElem?_eq_getElem bound))
  have equal := Option.some.inj (first.symm.trans second)
  omega

theorem set_eq_place {recipes : List Recipe} (distinct : (names recipes).Nodup) {recipe : Recipe}
    {index : Nat} (found : (names recipes)[index]? = some recipe.name) :
    recipes.set index recipe = place recipes recipe := by
  induction recipes generalizing index with
  | nil => simp [names] at found
  | cons first rest ih =>
    obtain ⟨absent, restDistinct⟩ := List.nodup_cons.mp distinct
    cases index with
    | zero =>
      have same : first.name = recipe.name := by simpa [names] using found
      simp [place, same]
    | succ index =>
      have inRest : (names rest)[index]? = some recipe.name := by simpa [names] using found
      have different : first.name ≠ recipe.name := by
        intro same
        rw [← same] at inRest
        exact absent (List.mem_of_getElem? inRest)
      simp [place, different, ih restDistinct inRest]

theorem place_of_not_mem {recipes : List Recipe} {recipe : Recipe}
    (absent : recipe.name ∉ names recipes) : place recipes recipe = recipes ++ [recipe] := by
  induction recipes with
  | nil => rfl
  | cons first rest ih =>
    have different : first.name ≠ recipe.name := fun same => absent (by simp [names, same])
    have further : recipe.name ∉ names rest := fun inside => absent (List.mem_cons_of_mem _ inside)
    simp [place, different, ih further]

theorem collect_of_nodup {recipes : List Recipe} (distinct : (names recipes).Nodup) :
    collect recipes = recipes := by
  induction recipes using List.reverseRecOn with
  | nil => rfl
  | append_singleton front last ih =>
    rw [names, List.map_append, List.nodup_append] at distinct
    obtain ⟨frontDistinct, -, apart⟩ := distinct
    have absent : last.name ∉ names front :=
      fun inside => apart last.name inside last.name (by simp) rfl
    rw [collect_concat, ih frontDistinct, place_of_not_mem absent]

theorem Indexed.not_mem {report : Report} (indexed : Indexed report) {name : String}
    (missing : report.positions.get? name = none) : name ∉ names report.recipes := by
  intro inside
  obtain ⟨index, found⟩ := List.mem_iff_getElem?.mp inside
  rw [(indexed name index).mpr found] at missing
  contradiction

/-- With a sound index, insertion needs no search and has the effect of one. -/
theorem Indexed.recipes_insert {report : Report} (indexed : Indexed report) (recipe : Recipe) :
    (report.insert recipe).recipes = place report.recipes recipe := by
  unfold insert
  split
  next index found =>
    exact set_eq_place indexed.distinct ((indexed _ index).mp found)
  next missing =>
    exact (place_of_not_mem (indexed.not_mem missing)).symm

private theorem getElem?_concat_iff {α : Type} (xs : List α) (a b : α) (i : Nat) :
    (xs ++ [a])[i]? = some b ↔ xs[i]? = some b ∨ i = xs.length ∧ a = b := by
  grind

theorem Indexed.insert {report : Report} (indexed : Indexed report) (recipe : Recipe) :
    Indexed (report.insert recipe) := by
  intro name index
  rw [indexed.recipes_insert, names_place]
  unfold Report.insert
  split
  next known found =>
    have inside : recipe.name ∈ names report.recipes :=
      List.mem_of_getElem? ((indexed _ known).mp found)
    simp only [inside, if_true]
    exact indexed name index
  next missing =>
    have absent := indexed.not_mem missing
    simp only [absent, if_false, Dict.get?_insert, getElem?_concat_iff]
    have size : (names report.recipes).length = report.recipes.length := by simp [names]
    by_cases same : recipe.name = name
    · subst same
      have nowhere : (names report.recipes)[index]? ≠ some recipe.name := fun found =>
        absent (List.mem_of_getElem? found)
      simp [nowhere, size, eq_comm]
    · simp [same, indexed name index]

theorem Indexed.foldl_insert {report : Report} (indexed : Indexed report) (recipes : List Recipe) :
    Indexed (recipes.foldl Report.insert report) ∧
      (recipes.foldl Report.insert report).recipes = recipes.foldl place report.recipes := by
  induction recipes generalizing report with
  | nil => exact ⟨indexed, rfl⟩
  | cons recipe recipes ih =>
    have rest := ih (indexed.insert recipe)
    rw [indexed.recipes_insert] at rest
    exact rest

theorem Indexed.get? {report : Report} (indexed : Indexed report) (name : String) :
    report.get? name = report.recipes.find? (·.name == name) := by
  cases found : report.positions.get? name with
  | none =>
    have absent := indexed.not_mem found
    have missed : report.recipes.find? (·.name == name) = none := by
      rw [List.find?_eq_none]
      intro recipe inside same
      exact absent (List.mem_map.mpr ⟨recipe, inside, by simpa using same⟩)
    simp [Report.get?, found, missed]
  | some index =>
    have located := (indexed name index).mp found
    rw [names, List.getElem?_map, Option.map_eq_some_iff] at located
    obtain ⟨recipe, there, same⟩ := located
    have inside := List.mem_of_getElem? there
    have seen : (report.recipes.find? (·.name == name)).isSome := by
      rw [List.find?_isSome]
      exact ⟨recipe, inside, by simpa using same⟩
    obtain ⟨first, found_first⟩ := Option.isSome_iff_exists.mp seen
    have named : first.name = name := by simpa using List.find?_some found_first
    have equal : first = recipe := List.inj_on_of_nodup_map indexed.distinct
      (List.mem_of_find?_eq_some found_first) inside (named.trans same.symm)
    simp [Report.get?, found, there, found_first, equal]

/-- A report that insertions and merges have built from the empty one, with every recipe inserted
on the way. What was inserted into a merged report counts from the merge on. -/
inductive Built : List Recipe → Report → Prop where
  | empty : Built [] {}
  | insert {history : List Recipe} {report : Report} (built : Built history report)
      (recipe : Recipe) : Built (history ++ [recipe]) (report.insert recipe)
  | merge {history later : List Recipe} {report other : Report} (built : Built history report)
      (merged : Built later other) : Built (history ++ later) (report.merge other)

theorem Built.indexed_collect {history : List Recipe} {report : Report}
    (built : Built history report) : Indexed report ∧ report.recipes = collect history := by
  induction built with
  | empty => exact ⟨indexed_empty, rfl⟩
  | insert _ recipe ih =>
    obtain ⟨indexed, collected⟩ := ih
    refine ⟨indexed.insert recipe, ?_⟩
    rw [indexed.recipes_insert, collected, collect_concat]
  | @merge history later report other _ _ ih ihOther =>
    obtain ⟨indexed, collected⟩ := ih
    have noted : Indexed { report with issues := report.issues ++ other.issues } := indexed
    obtain ⟨mergedIndexed, replayed⟩ := noted.foldl_insert other.recipes
    refine ⟨mergedIndexed, ?_⟩
    calc (report.merge other).recipes
      _ = other.recipes.foldl place report.recipes := replayed
      _ = (collect later).foldl place (collect history) := by rw [ihOther.2, collected]
      _ = later.foldl place (collect history) := foldl_place_collect later _
      _ = collect (history ++ later) := by rw [collect, collect, List.foldl_append]

/-- However a report was built, no name stands twice, the index leads from exactly the names that
are there to their places, the recipes stand in the order in which their names came first, and
looking a name up finds the recipe that came last under it, in the report and in its document. -/
theorem built_report {history : List Recipe} {report : Report} (built : Built history report) :
    (names report.recipes).Nodup ∧
    (∀ name index, report.positions.get? name = some index ↔
      ∃ inside : index < report.recipes.length, report.recipes[index].name = name) ∧
    names report.recipes = (names history).eraseDups ∧
    ∀ name, report.get? name = history.reverse.find? (·.name == name) ∧
      Document.get? report.recipes name = report.get? name := by
  obtain ⟨indexed, collected⟩ := built.indexed_collect
  refine ⟨indexed.distinct, fun name index => ?_, ?_, fun name => ⟨?_, ?_⟩⟩
  · rw [indexed name index, names, List.getElem?_map, Option.map_eq_some_iff]
    constructor
    · rintro ⟨recipe, there, same⟩
      obtain ⟨inside, rfl⟩ := List.getElem?_eq_some_iff.mp there
      exact ⟨inside, same⟩
    · rintro ⟨inside, same⟩
      exact ⟨_, List.getElem?_eq_getElem inside, same⟩
  · rw [collected, names_collect]
  · rw [indexed.get?, collected, find?_collect]
  · rw [indexed.get?]
    rfl

/-- A name that comes again inside a merged report keeps its first place and its last recipe. -/
theorem built_report_merge_repeated :
    let first : Recipe := { name := "A" }
    let other : Recipe := { name := "B" }
    let again : Recipe := { name := "A", category := some "late" }
    let report := ((Report.insert {} first).insert other).merge ((Report.insert {} again))
    names report.recipes = ["A", "B"] ∧ report.get? "A" = some again := by
  have built := ((Built.empty.insert { name := "A" }).insert { name := "B" }).merge
    (Built.empty.insert { name := "A", category := some "late" })
  obtain ⟨-, -, order, found⟩ := built_report built
  exact ⟨order.trans (by decide), (found "A").1.trans (by decide)⟩

end CraftScript.Report
