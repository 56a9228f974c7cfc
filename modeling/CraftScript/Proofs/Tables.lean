import CraftScript.Dict
import Mathlib.Data.List.Induction
import Mathlib.Data.List.Sort
import Mathlib.Data.String.Basic

/-! Tables and sets of names by what they hold. A table is settled by its answers, and putting its
own entries together again gives it back. -/
namespace CraftScript

namespace Dict

variable {α : Type}

theorem get?_eq_some_iff {dict : Dict α} {name : String} {value : α} :
    dict.get? name = some value ↔ (name, value) ∈ dict.entries := by
  constructor
  · intro found
    obtain ⟨⟨other, held⟩, seen, rfl⟩ := Option.map_eq_some_iff.mp found
    have same : other = name := by simpa using List.find?_some seen
    exact same ▸ List.mem_of_find?_eq_some seen
  · intro inside
    obtain ⟨entries, sorted⟩ := dict
    induction entries with
    | nil => contradiction
    | cons first rest ih =>
      obtain ⟨below, restSorted⟩ := List.pairwise_cons.mp sorted
      rcases List.mem_cons.mp inside with rfl | inside
      · simp [get?]
      · have other : first.1 ≠ name := ne_of_lt (below _ inside)
        have later := ih restSorted inside
        simpa [get?, other] using later

theorem ext_get? {a b : Dict α} (same : ∀ name, a.get? name = b.get? name) : a = b := by
  have members (entry : String × α) : entry ∈ a.entries ↔ entry ∈ b.entries := by
    rw [← Prod.mk.eta (p := entry), ← get?_eq_some_iff, ← get?_eq_some_iff, same]
  obtain ⟨left, sorted⟩ := a
  obtain ⟨right, sorted'⟩ := b
  have antisymm : Std.Antisymm fun a b : String × α => a.1 < b.1 :=
    ⟨fun _ _ less more => absurd less (lt_asymm more)⟩
  have irrefl : Std.Irrefl fun a b : String × α => a.1 < b.1 := ⟨fun _ => lt_irrefl _⟩
  have entries : left = right := sorted.eq_of_mem_iff sorted' members
  subst entries
  rfl

theorem insertEntry_last {name : String} {value : α} {entries : List (String × α)}
    (below : ∀ entry ∈ entries, entry.1 < name) :
    insertEntry name value entries = entries ++ [(name, value)] := by
  induction entries with
  | nil => rfl
  | cons first rest ih =>
    have less : first.1 < name := below first (by simp)
    have later := ih fun entry inside => below entry (List.mem_cons_of_mem _ inside)
    simp [insertEntry, lt_asymm less, (ne_of_lt less).symm, later]

theorem ofList_concat (front : List (String × α)) (last : String × α) :
    ofList (front ++ [last]) = (ofList front).insert last.1 last.2 := by
  simp [ofList]

def lastNamed? (name : String) (entries : List (String × α)) : Option α :=
  (entries.filter (·.1 = name)).getLast?.map (·.2)

theorem get?_ofList (name : String) (entries : List (String × α)) :
    (ofList entries).get? name = lastNamed? name entries := by
  induction entries using List.reverseRecOn with
  | nil => rfl
  | append_singleton front last ih =>
    rw [ofList_concat, get?_insert, ih]
    by_cases same : last.1 = name <;> simp [lastNamed?, List.filter_append, same]

theorem get?_ofList_eq_some_iff {entries : List (String × α)}
    (distinct : (entries.map (·.1)).Nodup) {name : String} {value : α} :
    (ofList entries).get? name = some value ↔ (name, value) ∈ entries := by
  induction entries using List.reverseRecOn with
  | nil => simp [ofList, get?, empty]
  | append_singleton front last ih =>
    rw [List.map_append, List.nodup_append'] at distinct
    obtain ⟨earlier, -, apart⟩ := distinct
    rw [ofList_concat, get?_insert, List.mem_append, List.mem_singleton]
    by_cases same : last.1 = name
    · subst same
      have absent : (last.1, value) ∉ front := fun inside =>
        apart (List.mem_map_of_mem inside) (by simp)
      simp [absent, Prod.ext_iff, eq_comm]
    · simp [same, ih earlier, Prod.ext_iff, Ne.symm same]

theorem ofList_perm {entries entries' : List (String × α)} (perm : entries.Perm entries')
    (distinct : (entries.map (·.1)).Nodup) : ofList entries = ofList entries' := by
  apply ext_get?
  intro name
  apply Option.ext
  intro value
  have distinct' := (perm.map (·.1)).nodup_iff.mp distinct
  rw [get?_ofList_eq_some_iff distinct, get?_ofList_eq_some_iff distinct', perm.mem_iff]

theorem entries_insert (dict : Dict α) (name : String) (value : α) :
    (dict.insert name value).entries = insertEntry name value dict.entries := rfl

theorem entries_ofList {entries : List (String × α)}
    (sorted : entries.Pairwise fun a b => a.1 < b.1) : (ofList entries).entries = entries := by
  induction entries using List.reverseRecOn with
  | nil => rfl
  | append_singleton front last ih =>
    obtain ⟨frontSorted, -, below⟩ := List.pairwise_append.mp sorted
    rw [ofList_concat, entries_insert, ih frontSorted]
    exact insertEntry_last fun entry inside => below entry inside last (by simp)

theorem ofList_entries (dict : Dict α) : ofList dict.entries = dict := by
  obtain ⟨entries, sorted⟩ := dict
  rw [mk.injEq]
  exact entries_ofList sorted

end Dict

namespace NameSet

theorem insertName_last {name : String} {names : List String}
    (below : ∀ other ∈ names, other < name) : insertName name names = names ++ [name] := by
  induction names with
  | nil => rfl
  | cons first rest ih =>
    have less : first < name := below first (by simp)
    have later := ih fun other inside => below other (List.mem_cons_of_mem _ inside)
    simp [insertName, lt_asymm less, (ne_of_lt less).symm, later]

theorem ofList_concat (front : List String) (last : String) :
    ofList (front ++ [last]) = (ofList front).insert last := by
  simp [ofList]

theorem names_insert (set : NameSet) (name : String) :
    (set.insert name).names = insertName name set.names := rfl

theorem names_ofList {names : List String} (sorted : names.Pairwise (· < ·)) :
    (ofList names).names = names := by
  induction names using List.reverseRecOn with
  | nil => rfl
  | append_singleton front last ih =>
    obtain ⟨frontSorted, -, below⟩ := List.pairwise_append.mp sorted
    rw [ofList_concat, names_insert, ih frontSorted]
    exact insertName_last fun other inside => below other inside last (by simp)

theorem ofList_names (set : NameSet) : ofList set.names = set := by
  obtain ⟨names, sorted⟩ := set
  rw [mk.injEq]
  exact names_ofList sorted

theorem mem_ofList {names : List String} {name : String} :
    name ∈ (ofList names).names ↔ name ∈ names := by
  induction names using List.reverseRecOn with
  | nil => simp [ofList, empty]
  | append_singleton front last ih =>
    rw [ofList_concat, names_insert, mem_insertName, ih, List.mem_append, List.mem_singleton,
      or_comm]

theorem ext_mem {a b : NameSet} (same : ∀ name, name ∈ a.names ↔ name ∈ b.names) : a = b := by
  obtain ⟨left, sorted⟩ := a
  obtain ⟨right, sorted'⟩ := b
  have names : left = right := sorted.eq_of_mem_iff sorted' fun name => same name
  subst names
  rfl

theorem ofList_congr {names names' : List String} (same : ∀ name, name ∈ names ↔ name ∈ names') :
    ofList names = ofList names' := by
  apply ext_mem
  intro name
  rw [mem_ofList, mem_ofList, same]

end NameSet

end CraftScript
