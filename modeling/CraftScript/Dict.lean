/-! Tables and sets of names in code point order. Equal contents are equal values, because the
entries are strictly sorted and each name stands once. -/
namespace CraftScript

private theorem lt_of_not_lt_of_ne {a b : String} (notLess : ¬ a < b) (different : a ≠ b) : b < a :=
  Std.lt_of_le_of_ne (Std.not_lt.mp notLess) (Ne.symm different)

structure Dict (α : Type) where
  entries : List (String × α)
  sorted : entries.Pairwise fun a b => a.1 < b.1
deriving DecidableEq, Repr

namespace Dict

variable {α : Type}

def insertEntry (name : String) (value : α) : List (String × α) → List (String × α)
  | [] => [(name, value)]
  | entry :: entries =>
    if name < entry.1 then (name, value) :: entry :: entries
    else if name = entry.1 then (name, value) :: entries
    else entry :: insertEntry name value entries

theorem mem_insertEntry {name : String} {value : α} {entry : String × α}
    {entries : List (String × α)} (inside : entry ∈ insertEntry name value entries) :
    entry = (name, value) ∨ entry ∈ entries := by
  induction entries with
  | nil => simpa [insertEntry] using inside
  | cons first rest ih =>
    unfold insertEntry at inside
    split at inside
    · simpa using inside
    · split at inside
      · rcases List.mem_cons.mp inside with same | later
        · exact .inl same
        · exact .inr (List.mem_cons_of_mem _ later)
      · rcases List.mem_cons.mp inside with same | later
        · exact .inr (same ▸ List.mem_cons_self)
        · exact (ih later).imp_right (List.mem_cons_of_mem _)

theorem sorted_insertEntry (name : String) (value : α) {entries : List (String × α)}
    (sorted : entries.Pairwise fun a b => a.1 < b.1) :
    (insertEntry name value entries).Pairwise fun a b => a.1 < b.1 := by
  induction entries with
  | nil => simp [insertEntry]
  | cons first rest ih =>
    obtain ⟨below, restSorted⟩ := List.pairwise_cons.mp sorted
    unfold insertEntry
    split
    · rename_i less
      refine List.pairwise_cons.mpr ⟨fun entry inside => ?_, sorted⟩
      rcases List.mem_cons.mp inside with same | later
      · exact same ▸ less
      · exact String.lt_trans less (below entry later)
    · split
      · rename_i same
        exact List.pairwise_cons.mpr ⟨fun entry inside => same ▸ below entry inside, restSorted⟩
      · rename_i notLess different
        refine List.pairwise_cons.mpr ⟨fun entry inside => ?_, ih restSorted⟩
        rcases mem_insertEntry inside with same | later
        · exact same ▸ lt_of_not_lt_of_ne notLess different
        · exact below entry later

def empty : Dict α :=
  ⟨[], .nil⟩

instance : EmptyCollection (Dict α) := ⟨empty⟩

instance : Inhabited (Dict α) := ⟨empty⟩

def insert (dict : Dict α) (name : String) (value : α) : Dict α :=
  ⟨insertEntry name value dict.entries, sorted_insertEntry name value dict.sorted⟩

def ofList (entries : List (String × α)) : Dict α :=
  entries.foldl (fun dict entry => dict.insert entry.1 entry.2) empty

def get? (dict : Dict α) (name : String) : Option α :=
  (dict.entries.find? (·.1 == name)).map (·.2)

theorem find?_insertEntry (name other : String) (value : α) (entries : List (String × α)) :
    (insertEntry name value entries).find? (·.1 == other) =
      if name = other then some (name, value) else entries.find? (·.1 == other) := by
  induction entries with
  | nil => by_cases same : name = other <;> simp [insertEntry, same]
  | cons first rest ih =>
    unfold insertEntry
    split
    · by_cases same : name = other <;> simp [same]
    · split
      · rename_i known
        by_cases same : name = other
        · simp [same]
        · simp [same, ← known]
      · rename_i different
        by_cases found : first.1 = other
        · have apart : name ≠ other := fun same => different (same.trans found.symm)
          simp [found, apart]
        · have missed : (first.1 == other) = false := by simpa using found
          simp only [List.find?_cons, missed, ih]

theorem get?_insert (dict : Dict α) (name other : String) (value : α) :
    (dict.insert name value).get? other = if name = other then some value else dict.get? other := by
  unfold get? insert
  rw [find?_insertEntry]
  split <;> rfl

def isEmpty (dict : Dict α) : Bool :=
  dict.entries.isEmpty

theorem isEmpty_insert (dict : Dict α) (name : String) (value : α) :
    (dict.insert name value).isEmpty = false := by
  simp only [isEmpty, insert]
  cases dict.entries with
  | nil => rfl
  | cons first rest =>
    unfold insertEntry
    split
    · rfl
    · split <;> rfl

theorem isEmpty_ofList (entries : List (String × α)) :
    (ofList entries).isEmpty = entries.isEmpty := by
  rcases List.eq_nil_or_concat entries with rfl | ⟨front, last, rfl⟩
  · rfl
  · simp [ofList, isEmpty_insert]

def nonempty? (dict : Dict α) : Option (Dict α) :=
  if dict.isEmpty then none else some dict

end Dict

structure NameSet where
  names : List String
  sorted : names.Pairwise (· < ·)
deriving DecidableEq, Repr

namespace NameSet

def insertName (name : String) : List String → List String
  | [] => [name]
  | first :: names =>
    if name < first then name :: first :: names
    else if name = first then first :: names
    else first :: insertName name names

theorem mem_insertName {name other : String} {names : List String} :
    other ∈ insertName name names ↔ other = name ∨ other ∈ names := by
  induction names with
  | nil => simp [insertName]
  | cons first rest ih =>
    unfold insertName
    split
    · simp
    · split
      · rename_i same
        simp [same]
      · simp only [List.mem_cons, ih]
        constructor
        · rintro (same | same | later)
          · exact .inr (.inl same)
          · exact .inl same
          · exact .inr (.inr later)
        · rintro (same | same | later)
          · exact .inr (.inl same)
          · exact .inl same
          · exact .inr (.inr later)

theorem sorted_insertName (name : String) {names : List String}
    (sorted : names.Pairwise (· < ·)) : (insertName name names).Pairwise (· < ·) := by
  induction names with
  | nil => simp [insertName]
  | cons first rest ih =>
    obtain ⟨below, restSorted⟩ := List.pairwise_cons.mp sorted
    unfold insertName
    split
    · rename_i less
      refine List.pairwise_cons.mpr ⟨fun other inside => ?_, sorted⟩
      rcases List.mem_cons.mp inside with same | later
      · exact same ▸ less
      · exact String.lt_trans less (below other later)
    · split
      · exact sorted
      · rename_i notLess different
        refine List.pairwise_cons.mpr ⟨fun other inside => ?_, ih restSorted⟩
        rcases mem_insertName.mp inside with same | later
        · exact same ▸ lt_of_not_lt_of_ne notLess different
        · exact below other later

def empty : NameSet :=
  ⟨[], .nil⟩

instance : EmptyCollection NameSet := ⟨empty⟩

instance : Inhabited NameSet := ⟨empty⟩

def insert (set : NameSet) (name : String) : NameSet :=
  ⟨insertName name set.names, sorted_insertName name set.sorted⟩

def ofList (names : List String) : NameSet :=
  names.foldl insert empty

def isEmpty (set : NameSet) : Bool :=
  set.names.isEmpty

end NameSet

end CraftScript
