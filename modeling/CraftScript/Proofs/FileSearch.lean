import CraftScript.Proofs.FilePaths
import CraftScript.Proofs.FolderOrder
import CraftScript.Script
import Mathlib.Data.Finset.Card
import Mathlib.Data.List.Lex
import Mathlib.Data.List.Sort
import Mathlib.Data.String.Basic

/-! The search for scripts. It finds each path that leads to a regular file once, if it meets no error,
and sorting makes up for the order in which folders list their entries. -/
namespace CraftScript

namespace FileNode

mutual

def folders : FileNode → List Location
  | .folder entries => [] :: foldersIn entries
  | _ => []

def foldersIn : List (String × FileNode) → List Location
  | [] => []
  | (name, node) :: entries => (folders node).map (name :: ·) ++ foldersIn entries

end

mutual

theorem length_folders_le : (node : FileNode) → node.folders.length ≤ node.size
  | .file _ => Nat.zero_le _
  | .link _ => Nat.zero_le _
  | .folder entries => by
    have below := length_foldersIn_le entries
    simp only [folders, size, List.length_cons]
    omega

theorem length_foldersIn_le :
    (entries : List (String × FileNode)) → (foldersIn entries).length ≤ sizeEntries entries
  | [] => Nat.le_refl _
  | (name, node) :: entries => by
    have first := length_folders_le node
    have later := length_foldersIn_le entries
    simp only [foldersIn, sizeEntries, List.length_append, List.length_map]
    omega

end

variable {root node : FileNode} {entries : List (String × FileNode)} {name : String}
  {location : Location}

theorem size_le_of_mem (member : (name, node) ∈ entries) : node.size ≤ sizeEntries entries := by
  induction entries with
  | nil => contradiction
  | cons entry entries ih =>
    rw [sizeEntries]
    rcases List.mem_cons.mp member with rfl | member
    · exact Nat.le_add_right _ _
    · exact (ih member).trans (Nat.le_add_left _ _)

theorem mem_foldersIn (member : (name, node) ∈ entries) (inside : location ∈ node.folders) :
    name :: location ∈ foldersIn entries := by
  induction entries with
  | nil => contradiction
  | cons entry entries ih =>
    rw [foldersIn, List.mem_append]
    rcases List.mem_cons.mp member with rfl | member
    · exact .inl (List.mem_map_of_mem inside)
    · exact .inr (ih member)

theorem length_lt_of_at? (there : root.at? location = some node) : location.length < root.size := by
  induction location generalizing root with
  | nil => cases root <;> simp [size]
  | cons name location ih =>
    cases root with
    | folder entries =>
      obtain ⟨child, found, below⟩ := Option.bind_eq_some_iff.mp there
      have inner := ih below
      have outer := size_le_of_mem (mem_of_child? found)
      simp only [List.length_cons, size]
      omega
    | file contents => simp [at?] at there
    | link target => simp [at?] at there

theorem mem_folders_of_at? (there : root.at? location = some (.folder entries)) :
    location ∈ root.folders := by
  induction location generalizing root with
  | nil =>
    obtain rfl := Option.some.inj there
    simp [folders]
  | cons name location ih =>
    cases root with
    | folder entries =>
      obtain ⟨child, found, below⟩ := Option.bind_eq_some_iff.mp there
      exact List.mem_cons_of_mem _ (mem_foldersIn (mem_of_child? found) (ih below))
    | file contents => simp [at?] at there
    | link target => simp [at?] at there

end FileNode

namespace FileTree

open FileNode

section Room

variable {tree : FileTree} {visited : List Location} {location target : Location}
  {entries : List (String × FileNode)}

/-- A bound on the steps that a search has left: folders that it was not in yet, and below each of
them as many steps down as the tree has nodes. -/
def room (tree : FileTree) (visited : List Location) (location : Location) : Nat :=
  (tree.root.folders.toFinset \ visited.toFinset).card * (tree.root.size + 1) +
    (tree.root.size - location.length)

theorem room_lt (there : tree.root.at? target = some (.folder entries))
    (onward : target ∉ visited ∨ location.length < target.length) :
    tree.room (target :: visited) target < tree.room visited location := by
  have depth := length_lt_of_at? there
  have known : target ∈ tree.root.folders.toFinset := List.mem_toFinset.mpr (mem_folders_of_at? there)
  rw [room, room, List.toFinset_cons]
  by_cases fresh : target ∈ visited
  · have deeper := onward.resolve_left (not_not.mpr fresh)
    rw [Finset.insert_eq_of_mem (List.mem_toFinset.mpr fresh)]
    omega
  · -- One folder less weighs more than any change of depth.
    have fewer : (tree.root.folders.toFinset \ insert target visited.toFinset).card <
        (tree.root.folders.toFinset \ visited.toFinset).card := by
      apply Finset.card_lt_card
      rw [Finset.sdiff_insert]
      apply Finset.erase_ssubset
      simp [known, fresh]
    have scaled := Nat.mul_le_mul_right (tree.root.size + 1) fewer
    rw [Nat.succ_mul] at scaled
    omega

theorem room_pos (depth : location.length < tree.root.size) : 0 < tree.room visited location := by
  rw [room]
  omega

theorem room_lt_square (tree : FileTree) (visited : List Location) (location : Location) :
    tree.room visited location < (tree.root.size + 1) * (tree.root.size + 1) := by
  have few : (tree.root.folders.toFinset \ visited.toFinset).card ≤ tree.root.size :=
    (Finset.card_le_card Finset.sdiff_subset).trans
      ((List.toFinset_card_le _).trans (length_folders_le tree.root))
  have scaled := Nat.mul_le_mul_right (tree.root.size + 1) few
  rw [room, Nat.succ_mul]
  omega

end Room

section Walk

variable {tree : FileTree} {ancestors : List Ancestor} {location target : Location}
  {name path : String}

/-- An entry that is no file is entered where its path leads, and a link to a folder only if that is
not on the way. -/
theorem locate_of_enter {node : FileNode} (notFile : ∀ contents, node ≠ .file contents)
    (entered : enter tree ancestors location name node path = .ok target) :
    tree.locate path = .ok target ∧
      ((∃ way, node = .link way) → ∀ entries, tree.root.at? target = some (.folder entries) →
        target ∉ ancestors.map (·.location)) := by
  unfold enter at entered
  cases node with
  | file contents => exact absurd rfl (notFile contents)
  | folder entries =>
    cases leads : tree.locate path with
    | error error => simp [leads] at entered
    | ok place =>
      simp only [leads, Except.ok.injEq] at entered
      subst entered
      exact ⟨rfl, by simp⟩
  | link way =>
    cases leads : tree.locate path with
    | error error => simp [leads] at entered
    | ok place =>
      simp only [leads] at entered
      split at entered
      next => contradiction
      next clear =>
        obtain rfl := Except.ok.inj entered
        refine ⟨rfl, fun _ entries there member => ?_⟩
        obtain ⟨ancestor, inside, same⟩ := List.mem_map.mp member
        cases met : ancestors.find? (·.location == place) with
        | none =>
          have other := List.find?_eq_none.mp met ancestor inside
          simp [same] at other
        | some ancestor => exact clear entries ancestor there met

end Walk

theorem mapM_eq_ok {α β ε : Type} {f : α → Except ε β} {xs : List α} {ys : List β}
    (mapped : xs.mapM f = .ok ys) : List.Forall₂ (fun x y => x ∈ xs ∧ f x = .ok y) xs ys := by
  have each : List.Forall₂ (fun x y => f x = .ok y) xs ys := by
    induction xs generalizing ys with
    | nil =>
      obtain rfl := Except.ok.inj mapped
      exact .nil
    | cons x xs ih =>
      rw [List.mapM_cons] at mapped
      cases first : f x with
      | error e => simp [first, bind, Except.bind] at mapped
      | ok y =>
        cases rest : xs.mapM f with
        | error e => simp [first, rest, bind, Except.bind] at mapped
        | ok ys =>
          simp only [first, rest, bind, Except.bind, pure, Except.pure, Except.ok.injEq] at mapped
          subst mapped
          exact .cons first (ih rest)
  exact (List.forall₂_and_left (p := (· ∈ xs)) xs ys).mpr ⟨fun _ inside => inside, each⟩

theorem exists_mapM_eq_ok_iff {α β ε : Type} {f : α → Except ε β} {xs : List α} :
    (∃ ys, xs.mapM f = .ok ys) ↔ ∀ x ∈ xs, ∃ y, f x = .ok y := by
  induction xs with
  | nil => simp [pure, Except.pure]
  | cons x xs ih =>
    rw [List.forall_mem_cons, ← ih, List.mapM_cons]
    cases first : f x with
    | error e => simp [bind, Except.bind]
    | ok y => cases xs.mapM f <;> simp [bind, Except.bind, pure, Except.pure]

theorem flatten_entries {α : Type} {below : String × α → List String → Prop}
    {entries : List (String × α)} {results : List (List (List String))}
    (each : List.Forall₂ (fun entry result => ∃ found : List (List String),
      result = found.map (entry.1 :: ·) ∧ found.Nodup ∧ ∀ names, names ∈ found ↔ below entry names)
      entries results) :
    (∀ names, names ∈ results.flatten ↔
        ∃ entry ∈ entries, ∃ rest, names = entry.1 :: rest ∧ below entry rest) ∧
      ((entries.map (·.1)).Nodup → results.flatten.Nodup) := by
  induction each with
  | nil => simp
  | @cons entry result entries results first later ih =>
    obtain ⟨found, rfl, once, exactly⟩ := first
    obtain ⟨members, distinct⟩ := ih
    have here (names : List String) : names ∈ found.map (entry.1 :: ·) ↔
        ∃ rest, names = entry.1 :: rest ∧ below entry rest := by
      simp [exactly, eq_comm, and_comm]
    constructor
    · intro names
      rw [List.flatten_cons, List.mem_append, here, members, List.exists_mem_cons_iff]
    · intro names
      rw [List.map_cons, List.nodup_cons] at names
      rw [List.flatten_cons, List.nodup_append']
      refine ⟨once.map (List.cons_injective), distinct names.2, ?_⟩
      intro x inside inside'
      obtain ⟨rest, rfl, -⟩ := (here x).mp inside
      obtain ⟨other, member, rest', same, -⟩ := (members _).mp inside'
      exact names.1 ((List.cons.inj same).1 ▸ List.mem_map_of_mem member)

section Found

variable {tree : FileTree} {fuel : Nat} {ancestors : List Ancestor} {location : Location}
  {path : String} {entries : List (String × FileNode)}

def entryFiles (tree : FileTree) (fuel : Nat) (ancestors : List Ancestor) (location : Location)
    (path : String) (entry : String × FileNode) : Except WalkError (List (List String)) := do
  let target ← enter tree ancestors location entry.1 entry.2 (join path entry.1)
  let below ← filesFrom tree fuel ancestors target (join path entry.1)
  return below.map (entry.1 :: ·)

theorem filesFrom_folder (there : tree.root.at? location = some (.folder entries)) :
    filesFrom tree (fuel + 1) ancestors location path = (do
      let found ← entries.mapM (entryFiles tree fuel (⟨location, path⟩ :: ancestors) location path)
      return found.flatten) := by
  rw [filesFrom, there]
  rfl

theorem filesFrom_file {contents : ByteArray}
    (there : tree.root.at? location = some (.file contents)) :
    filesFrom tree (fuel + 1) ancestors location path = .ok [[]] := by
  rw [filesFrom, there]

theorem filesFrom_end (notFolder : ∀ entries, tree.root.at? location ≠ some (.folder entries)) :
    filesFrom tree (fuel + 1) ancestors location path =
      .ok (match tree.root.at? location with
        | some (.file _) => [[]]
        | _ => []) := by
  rw [filesFrom]
  cases there : tree.root.at? location with
  | none => rfl
  | some node =>
    cases node with
    | file contents => rfl
    | link target => rfl
    | folder entries => exact absurd there (notFolder entries)

theorem exists_of_entryFiles {entry : String × FileNode} {result : List (List String)}
    (walked : entryFiles tree fuel ancestors location path entry = .ok result) :
    ∃ target below, enter tree ancestors location entry.1 entry.2 (join path entry.1) = .ok target ∧
      filesFrom tree fuel ancestors target (join path entry.1) = .ok below ∧
      result = below.map (entry.1 :: ·) := by
  unfold entryFiles at walked
  cases entered : enter tree ancestors location entry.1 entry.2 (join path entry.1) with
  | error error => simp [entered, bind, Except.bind] at walked
  | ok target =>
    cases inner : filesFrom tree fuel ancestors target (join path entry.1) with
    | error error => simp [entered, inner, bind, Except.bind] at walked
    | ok below =>
      simp only [entered, inner, bind, Except.bind, pure, Except.pure, Except.ok.injEq] at walked
      exact ⟨target, below, rfl, inner, walked.symm⟩

theorem onward_of_enter (wellNamed : tree.root.isWellNamed) {target : Location} {name : String}
    {node : FileNode} {below : List (String × FileNode)} (leads : tree.locate path = .ok location)
    (there : tree.root.at? location = some (.folder entries)) (member : (name, node) ∈ entries)
    (notFile : ∀ contents, node ≠ .file contents)
    (entered : enter tree ancestors location name node (join path name) = .ok target)
    (folder : tree.root.at? target = some (.folder below)) :
    target ∉ ancestors.map (·.location) ∨ location.length < target.length := by
  obtain ⟨distinct, proper⟩ := isWellNamed_folder (isWellNamed_of_at? wellNamed there)
  obtain ⟨onward, fresh⟩ := locate_of_enter notFile entered
  cases node with
  | file contents => exact absurd rfl (notFile contents)
  | link way => exact .inl (fresh ⟨way, rfl⟩ below folder)
  | folder entries =>
    obtain ⟨child, found, plain⟩ := exists_child_of_join leads there (proper name _ member).1 onward
    obtain rfl := Option.some.inj (found.symm.trans (child?_of_mem distinct member))
    obtain rfl := plain (by simp)
    exact .inr (by simp)

/-- What is found below one entry, if the search from there finds what it should. -/
theorem entryFiles_spec (wellNamed : tree.root.isWellNamed) {entry : String × FileNode}
    {result : List (List String)} (leads : tree.locate path = .ok location)
    (there : tree.root.at? location = some (.folder entries)) (member : entry ∈ entries)
    (enough : 0 < fuel) (bound : tree.room (ancestors.map (·.location)) location ≤ fuel)
    (walks : ∀ {target path found}, tree.locate path = .ok target →
      (∀ entries, tree.root.at? target = some (.folder entries) →
        tree.room (target :: ancestors.map (·.location)) target < fuel) →
      filesFrom tree fuel ancestors target path = .ok found →
      found.Nodup ∧ ∀ names, names ∈ found ↔ tree.IsFilePath path names)
    (walked : entryFiles tree fuel ancestors location path entry = .ok result) :
    ∃ found : List (List String), result = found.map (entry.1 :: ·) ∧ found.Nodup ∧
      ∀ names, names ∈ found ↔ tree.EntryPath path entry names := by
  obtain ⟨name, node⟩ := entry
  obtain ⟨target, below, entered, inner, rfl⟩ := exists_of_entryFiles walked
  refine ⟨below, rfl, ?_⟩
  by_cases file : ∃ contents, node = .file contents
  · obtain ⟨contents, rfl⟩ := file
    obtain rfl := Except.ok.inj entered
    have distinct := (isWellNamed_folder (isWellNamed_of_at? wellNamed there)).1
    have here := (at?_entry there).trans (child?_of_mem distinct member)
    rw [← Nat.succ_pred_eq_of_pos enough, filesFrom_file here] at inner
    obtain rfl := Except.ok.inj inner
    simp [EntryPath]
  · have notFile : ∀ contents, node ≠ .file contents := by simpa using file
    have spec := walks (locate_of_enter notFile entered).1 (fun below there' =>
      (room_lt there' (onward_of_enter wellNamed leads there member notFile entered there')).trans_le
        bound) inner
    cases node with
    | file contents => exact absurd rfl (notFile contents)
    | folder entries => exact spec
    | link target => exact spec

/-- A search with room enough finds each path of a file once. -/
theorem filesFrom_spec (wellNamed : tree.root.isWellNamed) {found : List (List String)}
    (leads : tree.locate path = .ok location) (enough : 0 < fuel)
    (bound : ∀ entries, tree.root.at? location = some (.folder entries) →
      tree.room (location :: ancestors.map (·.location)) location < fuel)
    (walked : filesFrom tree fuel ancestors location path = .ok found) :
    found.Nodup ∧ ∀ names, names ∈ found ↔ tree.IsFilePath path names := by
  induction fuel generalizing ancestors location path found with
  | zero => contradiction
  | succ fuel ih =>
    by_cases folder : ∃ entries, tree.root.at? location = some (.folder entries)
    · obtain ⟨entries, there⟩ := folder
      have room := bound entries there
      -- A folder leaves room for one step more, which an entry that is a file needs.
      have positive : 0 < tree.room (location :: ancestors.map (·.location)) location :=
        room_pos (length_lt_of_at? there)
      have enough : 0 < fuel := by omega
      have within : tree.room ((⟨location, path⟩ :: ancestors).map (·.location)) location ≤ fuel := by
        simp only [List.map_cons]
        omega
      have distinct := (isWellNamed_folder (isWellNamed_of_at? wellNamed there)).1
      rw [filesFrom_folder there] at walked
      cases mapped : entries.mapM
          (entryFiles tree fuel (⟨location, path⟩ :: ancestors) location path) with
      | error error => simp [mapped, bind, Except.bind] at walked
      | ok results =>
        simp only [mapped, bind, Except.bind, pure, Except.pure, Except.ok.injEq] at walked
        subst walked
        have each := (mapM_eq_ok mapped).imp fun entry result known =>
          entryFiles_spec wellNamed leads there known.1 enough within
            (fun leads bound walked => ih leads enough bound walked) known.2
        have spec := @flatten_entries _ (tree.EntryPath path) entries results each
        refine ⟨spec.2 distinct, fun names => ?_⟩
        rw [spec.1, isFilePath_folder_iff wellNamed leads there]
    · have notFolder : ∀ entries, tree.root.at? location ≠ some (.folder entries) := by
        simpa using folder
      rw [filesFrom_end notFolder] at walked
      obtain rfl := Except.ok.inj walked
      simp only [isFilePath_end_iff leads notFolder]
      split
      next contents there =>
        have file : tree.LeadsToFile path := ⟨location, contents, leads, there⟩
        simp [file]
      next other =>
        have notFile : ¬ tree.LeadsToFile path := by
          rintro ⟨location', contents, leads', there⟩
          obtain rfl := Except.ok.inj (leads.symm.trans leads')
          exact other contents there
        simp [notFile]

theorem files_spec (wellNamed : tree.root.isWellNamed) {root : String} {found : List (List String)}
    (walked : tree.files root = .ok found) :
    found.Nodup ∧ ∀ names, names ∈ found ↔ tree.IsFilePath root names := by
  rw [files] at walked
  split at walked
  next => contradiction
  next location leads =>
    exact filesFrom_spec wellNamed leads (Nat.mul_pos (Nat.succ_pos _) (Nat.succ_pos _))
      (fun _ _ => room_lt_square tree _ _) walked

end Found

section Relisted

variable {tree tree' : FileTree}

theorem Relisted.exists_filesFrom (relisted : tree.Relisted tree') (wellNamed : tree.root.isWellNamed)
    {fuel : Nat} {ancestors : List Ancestor} {location : Location} {path : String}
    {found : List (List String)} (walked : filesFrom tree fuel ancestors location path = .ok found) :
    ∃ found', filesFrom tree' fuel ancestors location path = .ok found' := by
  induction fuel generalizing ancestors location path found with
  | zero => exact ⟨[], rfl⟩
  | succ fuel ih =>
    by_cases folder : ∃ entries', tree'.root.at? location = some (.folder entries')
    · obtain ⟨entries', there'⟩ := folder
      obtain ⟨entries, there, each⟩ := relisted.root.exists_folder wellNamed there'
      rw [filesFrom_folder there] at walked
      have every : ∀ entry ∈ entries, ∃ result,
          entryFiles tree fuel (⟨location, path⟩ :: ancestors) location path entry = .ok result := by
        rw [← exists_mapM_eq_ok_iff]
        cases mapped : entries.mapM
            (entryFiles tree fuel (⟨location, path⟩ :: ancestors) location path) with
        | error error => simp [mapped, bind, Except.bind] at walked
        | ok results => exact ⟨results, rfl⟩
      obtain ⟨results', mapped'⟩ : ∃ results', entries'.mapM
          (entryFiles tree' fuel (⟨location, path⟩ :: ancestors) location path) = .ok results' := by
        rw [exists_mapM_eq_ok_iff]
        rintro ⟨name, node'⟩ member'
        obtain ⟨node, member, same⟩ := each.exists_mem_of_mem member'
        obtain ⟨result, walked⟩ := every _ member
        obtain ⟨target, below, entered, inner, -⟩ := exists_of_entryFiles walked
        obtain ⟨below', inner'⟩ := ih inner
        have entered' := (relisted.enter_eq wellNamed same _ location name _).trans entered
        exact ⟨below'.map (name :: ·), by
          simp [entryFiles, entered', inner', bind, Except.bind, pure, Except.pure]⟩
      exact ⟨results'.flatten, by
        simp [filesFrom_folder there', mapped', bind, Except.bind, pure, Except.pure]⟩
    · exact ⟨_, filesFrom_end (by simpa using folder)⟩

theorem Relisted.isFilePath_iff (relisted : tree.Relisted tree') (wellNamed : tree.root.isWellNamed)
    {path : String} {names : List String} :
    tree'.IsFilePath path names ↔ tree.IsFilePath path names :=
  ⟨.of_same (fun path => (relisted.locate_eq wellNamed path).symm)
      fun plain => (relisted.root.at?_eq_some_iff wellNamed plain).mp,
    .of_same (relisted.locate_eq wellNamed) fun plain =>
      (relisted.root.at?_eq_some_iff wellNamed plain).mpr⟩

theorem Relisted.exists_files (relisted : tree.Relisted tree') (wellNamed : tree.root.isWellNamed)
    {root : String} {found : List (List String)} (walked : tree.files root = .ok found) :
    ∃ found', tree'.files root = .ok found' ∧ found.Perm found' := by
  obtain ⟨found', walked'⟩ : ∃ found', tree'.files root = .ok found' := by
    rw [files, relisted.locate_eq wellNamed]
    rw [files] at walked
    cases leads : tree.locate root with
    | error error => simp [leads] at walked
    | ok location =>
      simp only [leads] at walked ⊢
      rw [relisted.root.size_eq]
      exact relisted.exists_filesFrom wellNamed walked
  obtain ⟨once, members⟩ := files_spec wellNamed walked
  obtain ⟨once', members'⟩ := files_spec (relisted.root.isWellNamed wellNamed) walked'
  refine ⟨found', walked', (List.perm_ext_iff_of_nodup once once').mpr fun names => ?_⟩
  rw [members, members', relisted.isFilePath_iff wellNamed]

end Relisted

theorem fileName_foldl {root : String} {names : List String}
    (proper : ∀ name ∈ names, isFileName name) :
    fileName (names.foldl join root) = names.getLast?.getD (fileName root) := by
  rcases List.eq_nil_or_concat' names with rfl | ⟨front, last, rfl⟩
  · rfl
  · rw [List.foldl_append, List.foldl_cons, List.foldl_nil,
      fileName_join _ (plain_of_isFileName (proper last (by simp)))]
    simp

theorem parts_foldl {root : String} {names : List String}
    (proper : ∀ name ∈ names, isFileName name) :
    parts (names.foldl join root) = parts root ++ names := by
  induction names generalizing root with
  | nil => simp
  | cons name names ih =>
    rw [List.foldl_cons, ih fun other inside => proper other (List.mem_cons_of_mem _ inside),
      parts_join root (proper name (by simp)), List.append_assoc, List.singleton_append]

section Sorting

variable {found found' : List (List String)}

def inOrder (a b : List String) : Bool :=
  !decide (b < a)

theorem inOrder_iff {a b : List String} : inOrder a b ↔ a ≤ b := by
  simp [inOrder]

theorem pairwise_sorted (found : List (List String)) :
    (found.mergeSort inOrder).Pairwise (· ≤ ·) := by
  have sorted : (found.mergeSort inOrder).Pairwise fun a b => inOrder a b := by
    apply List.pairwise_mergeSort
    · intro a b c
      simp only [inOrder_iff]
      exact le_trans
    · intro a b
      simp only [Bool.or_eq_true, inOrder_iff]
      exact le_total a b
  simpa only [inOrder_iff] using sorted

theorem pairwise_lt_sorted (distinct : found.Nodup) :
    (found.mergeSort inOrder).Pairwise (· < ·) := by
  have distinct' := (List.mergeSort_perm found inOrder).nodup_iff.mpr distinct
  exact ((pairwise_sorted found).and distinct').imp fun both => lt_of_le_of_ne both.1 both.2

theorem sorted_eq_of_perm (perm : found.Perm found') :
    found.mergeSort inOrder = found'.mergeSort inOrder :=
  List.Perm.eq_of_pairwise (fun _ _ _ _ => le_antisymm) (pairwise_sorted found)
    (pairwise_sorted found')
    ((List.mergeSort_perm found inOrder).trans (perm.trans (List.mergeSort_perm found' inOrder).symm))

end Sorting

section Scripts

variable {tree : FileTree} {root : String} {rule : FileRule}

def reportBelow (tree : FileTree) (settings : Settings) (rule : FileRule) (root : String) :
    Except SourceError Report := do
  let sources ← tree.sources (← tree.scripts root rule)
  return Script.reportAll settings (sources.map (·.text.toList))

def acceptedNames (root : String) (rule : FileRule) (found : List (List String)) :
    List (List String) :=
  (found.filter fun names => rule.accepts (names.getLast?.getD (fileName root))).mergeSort inOrder

theorem mem_acceptedNames {found : List (List String)} {names : List String} :
    names ∈ acceptedNames root rule found ↔
      names ∈ found ∧ rule.accepts (names.getLast?.getD (fileName root)) := by
  rw [acceptedNames, List.mem_mergeSort, List.mem_filter]

theorem scripts_eq {found : List (List String)} (walked : tree.files root = .ok found) :
    tree.scripts root rule =
      .ok ((acceptedNames root rule found).map fun names => names.foldl join root) := by
  rw [scripts, walked]
  rfl

/-- A search without error gives each path of a regular file whose name is accepted once and no other
path, in strictly increasing order part by part. The order in which folders list their entries changes
neither the paths nor the report of the scripts. -/
theorem scripts_any_order {found : List (List String)} (wellNamed : tree.root.isWellNamed)
    (walked : tree.files root = .ok found) (rule : FileRule) :
    ∃ paths, tree.scripts root rule = .ok paths ∧
      (∀ path, path ∈ paths ↔ ∃ names, tree.IsFilePath root names ∧ path = names.foldl join root ∧
        rule.accepts (fileName path)) ∧
      paths.Nodup ∧ paths.Pairwise (fun path path' => parts path < parts path') ∧
      ∀ tree', tree.Relisted tree' → tree'.scripts root rule = .ok paths ∧
        ∀ settings, tree'.reportBelow settings rule root = tree.reportBelow settings rule root := by
  obtain ⟨once, members⟩ := files_spec wellNamed walked
  have proper {names : List String} (inside : names ∈ found) : ∀ name ∈ names, isFileName name :=
    ((members names).mp inside).proper wellNamed
  have increasing : ((acceptedNames root rule found).map fun names => names.foldl join root).Pairwise
      fun path path' => parts path < parts path' := by
    rw [List.pairwise_map]
    refine (pairwise_lt_sorted (once.filter _)).imp_of_mem ?_
    intro names names' inside inside' less
    rw [parts_foldl (proper (mem_acceptedNames.mp inside).1),
      parts_foldl (proper (mem_acceptedNames.mp inside').1)]
    exact List.append_left_lt less
  refine ⟨_, scripts_eq walked, fun path => ?_, ?_, increasing, fun tree' relisted => ?_⟩
  · simp only [List.mem_map, mem_acceptedNames]
    constructor
    · rintro ⟨names, ⟨inside, accepted⟩, rfl⟩
      rw [← fileName_foldl (proper inside)] at accepted
      exact ⟨names, (members names).mp inside, rfl, accepted⟩
    · rintro ⟨names, isPath, rfl, accepted⟩
      rw [fileName_foldl (isPath.proper wellNamed)] at accepted
      exact ⟨names, ⟨(members names).mpr isPath, accepted⟩, rfl⟩
  · exact increasing.imp fun less same => absurd less (by simp [same])
  · obtain ⟨found', walked', perm⟩ := relisted.exists_files wellNamed walked
    have same : tree'.scripts root rule = tree.scripts root rule := by
      rw [scripts_eq walked, scripts_eq walked', acceptedNames, acceptedNames,
        sorted_eq_of_perm (perm.filter _)]
    refine ⟨same.trans (scripts_eq walked), fun settings => ?_⟩
    rw [reportBelow, reportBelow, same, relisted.sources_eq wellNamed]

example : parts "s/a/x" < parts "s/a-b/x" ∧ "s/a-b/x" < "s/a/x" := by decide +kernel

/-- A link to a script and the script itself, listed in either order. -/
theorem scripts_any_order_linked :
    let script : FileNode := .file "craftRecipe N \x7b \x7d".toUTF8
    let folder : String × FileNode := ("a", .folder [("recipes.txt", script)])
    let link : String × FileNode := ("recipes_l.txt", .link "a/recipes.txt")
    let tree : FileTree := { root := .folder [("s", .folder [link, folder])] }
    let tree' : FileTree := { root := .folder [("s", .folder [folder, link])] }
    tree.root.isWellNamed ∧ tree.files "s" = .ok [["recipes_l.txt"], ["a", "recipes.txt"]] ∧
      tree.Relisted tree' ∧
      ∃ paths, tree.scripts "s" {} = .ok paths ∧ tree'.scripts "s" {} = .ok paths ∧
        paths.Pairwise (fun path path' => parts path < parts path') ∧
        tree'.reportBelow {} {} "s" = tree.reportBelow {} {} "s" := by
  intro script folder link tree tree'
  have wellNamed : tree.root.isWellNamed := by decide +kernel
  have walked : tree.files "s" = .ok [["recipes_l.txt"], ["a", "recipes.txt"]] := by
    have top : tree.locate "s" = .ok ["s"] := locate_eq_ok_iff.mpr
      ⟨by decide, by decide, by decide, _, .down rfl rfl (by decide) rfl (by simp) .done⟩
    have below : tree.locate (join "s" "a") = .ok ["s", "a"] := locate_eq_ok_iff.mpr
      ⟨by decide, by decide, by decide, _, .down rfl rfl (by decide) rfl (by simp)
        (.down rfl rfl (by decide) rfl (by simp [folder]) .done)⟩
    have linked : tree.locate (join "s" "recipes_l.txt") = .ok ["s", "a", "recipes.txt"] :=
      locate_eq_ok_iff.mpr
        ⟨by decide, by decide, by decide, _, .down rfl rfl (by decide) rfl (by simp)
          (.link rfl rfl (by decide) rfl (.down rfl rfl (by decide) rfl (by simp [folder])
            (.down rfl rfl (by decide) rfl (by simp [script]) .done)))⟩
    have size : tree.root.size = 5 := rfl
    rw [files, top, size]
    change filesFrom tree (34 + 1 + 1) [] ["s"] "s" = _
    rw [filesFrom_folder rfl]
    simp only [List.mapM_cons, List.mapM_nil, entryFiles, enter, below, linked, folder, link]
    rfl
  have same : folder.2.Relisted folder.2 :=
    .folder (@RelistedEntries.cons _ _ _ [] [] [] (.file _) .nil)
  have relisted : tree.Relisted tree' :=
    ⟨.folder (@RelistedEntries.cons _ _ _ [] [] []
      (.folder (@RelistedEntries.cons _ _ _ _ [folder] [] (.link _)
        (@RelistedEntries.cons _ _ _ [] [] [] same .nil))) .nil), rfl⟩
  obtain ⟨paths, found, -, -, increasing, ordered⟩ := scripts_any_order wellNamed walked {}
  obtain ⟨found', reports⟩ := ordered tree' relisted
  exact ⟨wellNamed, walked, relisted, paths, found, found', increasing, reports {}⟩

end Scripts

end FileTree

end CraftScript
