import CraftScript.CommandLine
import CraftScript.Proofs.Paths

/-! Trees that grow. A file or folder is put where a path leads, and a path leads through names that
folders can list, so that a tree stays well named however it is built and whatever a run writes. -/
namespace CraftScript

namespace FileNode

section Put

variable {new node : FileNode} {entries : List (String × FileNode)} {name : String}

theorem names_putEntry (name : String) (node : FileNode) (entries : List (String × FileNode)) :
    (putEntry name node entries).map (·.1) =
      if name ∈ entries.map (·.1) then entries.map (·.1) else entries.map (·.1) ++ [name] := by
  induction entries with
  | nil => rfl
  | cons entry entries ih =>
    by_cases same : entry.1 = name
    · simp [putEntry, same]
    · rw [putEntry, if_neg same, List.map_cons, ih]
      simp only [List.map_cons, List.mem_cons, Ne.symm same, false_or]
      split <;> rfl

theorem areWellNamed_putEntry (wellNamed : areWellNamed entries) (kept : node.isWellNamed) :
    areWellNamed (putEntry name node entries) := by
  induction entries with
  | nil => simpa [putEntry, areWellNamed] using kept
  | cons entry entries ih =>
    obtain ⟨other, below⟩ := entry
    rw [areWellNamed, Bool.and_eq_true] at wellNamed
    rw [putEntry]
    split
    · rw [areWellNamed, Bool.and_eq_true]
      exact ⟨kept, wellNamed.2⟩
    · rw [areWellNamed, Bool.and_eq_true]
      exact ⟨wellNamed.1, ih wellNamed.2⟩

theorem isWellNamed_putEntry (wellNamed : (folder entries).isWellNamed) (proper : isFileName name)
    (kept : node.isWellNamed) : (folder (putEntry name node entries)).isWellNamed := by
  simp only [isWellNamed, Bool.and_eq_true, decide_eq_true_eq, List.all_eq_true] at wellNamed ⊢
  obtain ⟨⟨each, distinct⟩, below⟩ := wellNamed
  refine ⟨?_, areWellNamed_putEntry below kept⟩
  rw [names_putEntry]
  split
  · exact ⟨each, distinct⟩
  · rename_i fresh
    refine ⟨fun other member => ?_, ?_⟩
    · rcases List.mem_append.mp member with known | last
      · exact each other known
      · rwa [List.mem_singleton.mp last]
    · rw [← List.concat_eq_append]
      exact List.Nodup.concat fresh distinct

theorem isWellNamed_put {location : Location} (wellNamed : node.isWellNamed)
    (proper : ∀ name ∈ location, isFileName name) (kept : new.isWellNamed) :
    (put new location node).isWellNamed := by
  induction location generalizing node with
  | nil => exact kept
  | cons name location ih =>
    cases node with
    | folder entries =>
      refine isWellNamed_putEntry wellNamed (proper name (by simp)) ?_
      refine ih ?_ fun other member => proper other (by simp [member])
      cases found : child? name entries with
      | none => rfl
      | some child => exact ((isWellNamed_folder wellNamed).2 name child (mem_of_child? found)).2
    | file contents => exact wellNamed
    | link target => exact wellNamed

end Put

end FileNode

namespace FileTree

open FileNode

structure WellNamed (tree : FileTree) : Prop where
  root : tree.root.isWellNamed
  working : ∀ name ∈ tree.working, isFileName name

theorem slash_not_mem_components {path name : String} (member : name ∈ components path) :
    '/' ∉ name.toList := by
  obtain ⟨part, inside, rfl⟩ := List.mem_map.mp member
  intro slash
  rw [String.toList_ofList] at slash
  simpa using Text.plain_of_mem_splitBy inside '/' slash

theorem proper_concat {location : Location} {name : String}
    (proper : ∀ name ∈ location, isFileName name) (last : isFileName name) :
    ∀ other ∈ location ++ [name], isFileName other := by
  intro other member
  rcases List.mem_append.mp member with known | same
  · exact proper other known
  · rwa [List.mem_singleton.mp same]

theorem follow_proper {root : FileNode} {create : Bool} {links : Nat} {location target : Location}
    {names : List String} (proper : ∀ name ∈ location, isFileName name)
    (plain : ∀ name ∈ names, '/' ∉ name.toList)
    (leads : follow root create links location names = .ok target) :
    ∀ name ∈ target, isFileName name := by
  have named {name : String} {names : List String}
      (plain : ∀ other ∈ name :: names, '/' ∉ other.toList)
      (notSame : ¬ (decide (name = "") || decide (name = ".")))
      (notUp : ¬ name = "..") : isFileName name := by
    simp [isFileName, isListed_of_asked notSame notUp, plain name (by simp)]
  fun_induction follow root create links location names with
  | case1 links location =>
    obtain rfl := Except.ok.inj leads
    exact proper
  | case2 links location name names entries there same ih =>
    exact ih proper (fun other member => plain other (by simp [member])) leads
  | case3 links location names entries there notSame ih =>
    refine ih (fun other member => proper other (List.dropLast_subset location member)) ?_ leads
    exact fun other member => plain other (by simp [member])
  | case6 links location name names entries there notSame notUp =>
    obtain rfl := Except.ok.inj leads
    exact proper_concat proper (named plain notSame notUp)
  | case9 location name names entries there notSame notUp _ short path found links start ih =>
    refine ih (fun other member => ?_) (fun other member => ?_) leads
    · simp only [start] at member
      split at member
      · simp at member
      · exact proper other member
    · rcases List.mem_append.mp member with inside | later
      · exact slash_not_mem_components inside
      · exact plain other (by simp [later])
  | case10 links location name names entries there notSame notUp _ short node notLink found ih =>
    refine ih (proper_concat proper (named plain notSame notUp)) ?_ leads
    exact fun other member => plain other (by simp [member])
  | case4 => contradiction
  | case5 => contradiction
  | case7 => contradiction
  | case8 => contradiction
  | case11 => contradiction

namespace WellNamed

variable {tree : FileTree} (wellNamed : tree.WellNamed)
include wellNamed

theorem locate {path : String} {create : Bool} {location : Location}
    (leads : tree.locate path create = .ok location) : ∀ name ∈ location, isFileName name := by
  simp only [FileTree.locate] at leads
  split at leads
  · contradiction
  · split at leads
    · contradiction
    · split at leads
      · contradiction
      · refine follow_proper ?_ (fun name => slash_not_mem_components) leads
        split
        · simp
        · exact wellNamed.working

theorem writeText {path text : String} {files : FileTree}
    (written : tree.writeText path text = .ok files) : files.WellNamed := by
  simp only [FileTree.writeText, bind, Except.bind] at written
  split at written
  · contradiction
  · rename_i location leads
    split at written
    · contradiction
    · obtain rfl := Except.ok.inj written
      exact ⟨isWellNamed_put wellNamed.root (wellNamed.locate leads) rfl, wellNamed.working⟩

end WellNamed

theorem isWellNamed_makeFolders {root : FileNode} {location : Location} {names : List String}
    (wellNamed : root.isWellNamed) (proper : ∀ name ∈ location, isFileName name)
    (each : ∀ name ∈ names, isFileName name) :
    (makeFolders root location names).1.isWellNamed ∧
      ∀ name ∈ (makeFolders root location names).2, isFileName name := by
  induction names generalizing root location with
  | nil => exact ⟨wellNamed, proper⟩
  | cons name names ih =>
    have first : isFileName name := each name (by simp)
    have later : ∀ other ∈ names, isFileName other := fun other member => each other (by simp [member])
    rw [makeFolders]
    split
    next next leads =>
      refine ih wellNamed (follow_proper proper ?_ leads) later
      simpa using plain_of_isFileName first
    next =>
      have onward := proper_concat proper first
      exact ih (isWellNamed_put wellNamed onward rfl) onward later

/-- A tree stays well named when a node is added under names that folders can list. -/
theorem WellNamed.add {tree : FileTree} (wellNamed : tree.WellNamed) {path : String} {node : FileNode}
    (each : ∀ name ∈ components path, isFileName name) (kept : node.isWellNamed) :
    (tree.add path node).WellNamed := by
  have folders : ∀ name ∈ (components path).dropLast, isFileName name := fun name member =>
    each name (List.dropLast_subset _ member)
  have filled : components path ≠ [] := by
    simpa [components] using Text.splitBy_ne_nil (· == '/') path.toList
  have last : isFileName ((components path).getLast?.getD "") := by
    rw [List.getLast?_eq_some_getLast filled]
    exact each _ (List.getLast_mem filled)
  obtain ⟨made, proper⟩ := isWellNamed_makeFolders wellNamed.root wellNamed.working folders
  have here := proper_concat proper last
  cases node with
  | folder entries =>
    have made := isWellNamed_makeFolders wellNamed.root wellNamed.working each
    exact ⟨made.1, wellNamed.working⟩
  | link target => exact ⟨isWellNamed_put made here kept, wellNamed.working⟩
  | file contents =>
    refine ⟨isWellNamed_put made ?_ kept, wellNamed.working⟩
    split
    next leads => exact follow_proper proper (by simpa using plain_of_isFileName last) leads
    next => exact here

end FileTree

/-- A run leaves a well named tree, whatever file it writes to. -/
theorem CommandLine.wellNamed_run {tree : FileTree} (wellNamed : tree.WellNamed)
    (arguments : List String) : (run tree arguments).files.WellNamed := by
  rw [run]
  split
  next options _ =>
    simp only [convert]
    split
    next => exact wellNamed
    next configuration sources _ =>
      split
      next => exact wellNamed
      next path _ =>
        split
        next => exact wellNamed
        next files written => exact wellNamed.writeText written
  all_goals exact wellNamed

end CraftScript
