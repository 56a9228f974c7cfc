import CraftScript.Proofs.Paths

/-! The paths of regular files, links followed. What they are is said by where paths lead, apart from
any search, and then folder by folder. -/
namespace CraftScript.FileTree

open FileNode

def LeadsToFile (tree : FileTree) (path : String) : Prop :=
  ∃ location contents, tree.locate path = .ok location ∧
    tree.root.at? location = some (.file contents)

/-- The names that lead from a path to a regular file: none, if the path itself does; otherwise those
before the last lead to a folder that lists the last one, for a file or for a link that leads to one. -/
inductive IsFilePath (tree : FileTree) (path : String) : List String → Prop
  | here (leads : tree.LeadsToFile path) : IsFilePath tree path []
  | entry {names : List String} {name : String} {location : Location} {node : FileNode}
      (proper : ∀ name ∈ names, isFileName name)
      (leads : tree.locate (names.foldl join path) = .ok location)
      (there : tree.root.at? (location ++ [name]) = some node)
      (regular : (∃ contents, node = .file contents) ∨
        (∃ target, node = .link target) ∧ tree.LeadsToFile (join (names.foldl join path) name)) :
      IsFilePath tree path (names ++ [name])

def EntryPath (tree : FileTree) (path : String) (entry : String × FileNode) (names : List String) :
    Prop :=
  match entry.2 with
  | .file _ => names = []
  | _ => tree.IsFilePath (join path entry.1) names

section FilePath

variable {tree : FileTree} {path : String} {location : Location} {names : List String}

theorem isFilePath_end_iff (leads : tree.locate path = .ok location)
    (notFolder : ∀ entries, tree.root.at? location ≠ some (.folder entries)) :
    tree.IsFilePath path names ↔ names = [] ∧ tree.LeadsToFile path := by
  have nonempty := (locate_eq_ok_iff.mp leads).2.1
  constructor
  · intro isPath
    cases isPath with
    | here file => exact ⟨rfl, file⟩
    | @entry names name location' node proper leads' there regular =>
      cases names with
      | nil =>
        obtain rfl := Except.ok.inj (leads.symm.trans leads')
        obtain ⟨entries, here, -⟩ := exists_child_of_at? there
        exact absurd here (notFolder entries)
      | cons first names =>
        have plain := plain_of_isFileName (proper first (by simp))
        obtain ⟨target, onward⟩ := exists_locate_of_foldl (join_ne_empty nonempty first)
          (fun name inside => proper name (List.mem_cons_of_mem _ inside)) leads'
        obtain ⟨location'', leads'', links, left, follows⟩ := exists_locate_of_join nonempty plain onward
        obtain rfl := Except.ok.inj (leads.symm.trans leads'')
        obtain ⟨entries, here⟩ := follows.exists_folder
        exact absurd here (notFolder entries)
  · rintro ⟨rfl, file⟩
    exact .here file

theorem isFilePath_folder_iff {entries : List (String × FileNode)}
    (wellNamed : tree.root.isWellNamed) (leads : tree.locate path = .ok location)
    (there : tree.root.at? location = some (.folder entries)) :
    tree.IsFilePath path names ↔
      ∃ entry ∈ entries, ∃ rest, names = entry.1 :: rest ∧ tree.EntryPath path entry rest := by
  have nonempty := (locate_eq_ok_iff.mp leads).2.1
  obtain ⟨distinct, proper⟩ := isWellNamed_folder (isWellNamed_of_at? wellNamed there)
  constructor
  · intro isPath
    cases isPath with
    | here leads' =>
      obtain ⟨location', contents, leads', there'⟩ := leads'
      obtain rfl := Except.ok.inj (leads.symm.trans leads')
      cases there.symm.trans there'
    | @entry names name location' node proper' leads' there' regular =>
      cases names with
      | nil =>
        obtain rfl := Except.ok.inj (leads.symm.trans leads')
        rw [at?_entry there] at there'
        refine ⟨(name, node), mem_of_child? there', [], rfl, ?_⟩
        rcases regular with ⟨contents, rfl⟩ | ⟨⟨target, rfl⟩, file⟩
        · exact rfl
        · exact .here file
      | cons first names =>
        have later : ∀ name ∈ names, isFileName name := fun name inside =>
          proper' name (List.mem_cons_of_mem _ inside)
        obtain ⟨target, onward⟩ := exists_locate_of_foldl (join_ne_empty nonempty first) later leads'
        obtain ⟨child, found, plain⟩ :=
          exists_child_of_join leads there (proper' first (by simp)) onward
        have below : tree.IsFilePath (join path first) (names ++ [name]) :=
          .entry later leads' there' regular
        refine ⟨(first, child), mem_of_child? found, names ++ [name], rfl, ?_⟩
        cases child with
        | folder entries => exact below
        | link target => exact below
        | file contents =>
          -- A path does not go on behind a file.
          obtain rfl := plain (by simp)
          rw [← at?_entry there] at found
          exact ((isFilePath_end_iff onward (by simp [found])).mp below).1
  · rintro ⟨⟨name, node⟩, member, rest, rfl, isPath⟩
    have there' := (at?_entry there).trans (child?_of_mem distinct member)
    have named := (proper name node member).1
    have behind (isPath : tree.IsFilePath (join path name) rest)
        (linked : tree.LeadsToFile (join path name) → ∃ target, node = .link target) :
        tree.IsFilePath path (name :: rest) := by
      cases isPath with
      | here file =>
        exact @IsFilePath.entry tree path [] name _ _ (by simp) leads there' (.inr ⟨linked file, file⟩)
      | @entry names last _ _ later leads' there' regular =>
        exact @IsFilePath.entry tree path (name :: names) last _ _ (by simpa [named] using later)
          leads' there' regular
    cases node with
    | file contents =>
      obtain rfl : rest = [] := isPath
      exact @IsFilePath.entry tree path [] name _ _ (by simp) leads there' (.inl ⟨contents, rfl⟩)
    | link target => exact behind isPath fun _ => ⟨target, rfl⟩
    | folder entries =>
      refine behind isPath ?_
      rintro ⟨target, contents, onward, file⟩
      obtain ⟨child, found, plain⟩ := exists_child_of_join leads there named onward
      obtain rfl := Option.some.inj (found.symm.trans (child?_of_mem distinct member))
      obtain rfl := plain (by simp)
      cases there'.symm.trans file

theorem IsFilePath.proper (wellNamed : tree.root.isWellNamed)
    (isPath : tree.IsFilePath path names) : ∀ name ∈ names, isFileName name := by
  cases isPath with
  | here leads => simp
  | @entry names last location node proper leads there regular =>
    intro name inside
    rcases List.mem_append.mp inside with inside | inside
    · exact proper name inside
    · obtain rfl := List.mem_singleton.mp inside
      obtain ⟨entries, here, found⟩ := exists_child_of_at? there
      have fine := isWellNamed_folder (isWellNamed_of_at? wellNamed here)
      exact (fine.2 name node (mem_of_child? found)).1

theorem IsFilePath.of_same {tree' : FileTree}
    (located : ∀ path, tree'.locate path = tree.locate path)
    (held : ∀ {location node}, (∀ entries, node ≠ .folder entries) →
      tree.root.at? location = some node → tree'.root.at? location = some node)
    (isPath : tree.IsFilePath path names) : tree'.IsFilePath path names := by
  have file {path : String} : tree.LeadsToFile path → tree'.LeadsToFile path :=
    fun ⟨location, contents, leads, there⟩ =>
      ⟨location, contents, (located path).trans leads, held (by simp) there⟩
  cases isPath with
  | here leads => exact .here (file leads)
  | entry proper leads there regular =>
    refine .entry proper ((located _).trans leads) (held ?_ there) (regular.imp_right (.imp_right file))
    rcases regular with ⟨contents, rfl⟩ | ⟨⟨target, rfl⟩, -⟩ <;> simp

end FilePath

end CraftScript.FileTree
