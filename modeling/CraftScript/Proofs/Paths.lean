import CraftScript.Files.Tree
import CraftScript.Proofs.Lines
import Mathlib.Data.List.Nodup

/-! Paths and where they lead. A path with one more name leads on from where the path leads, and it
leads nowhere unless the path does. -/
namespace CraftScript

namespace FileNode

def isListed (name : String) : Bool :=
  name ≠ "" && name ≠ "." && name ≠ ".."

def isFileName (name : String) : Bool :=
  isListed name && !name.toList.contains '/'

theorem isListed_of_asked {name : String} (notSame : ¬ (decide (name = "") || decide (name = ".")))
    (notUp : ¬ name = "..") : isListed name := by
  simp only [Bool.or_eq_true, decide_eq_true_eq, not_or] at notSame
  simp [isListed, notSame, notUp]

mutual

def isWellNamed : FileNode → Bool
  | .folder entries =>
    (entries.map (·.1)).all isFileName && decide (entries.map (·.1)).Nodup && areWellNamed entries
  | _ => true

def areWellNamed : List (String × FileNode) → Bool
  | [] => true
  | (_, node) :: entries => isWellNamed node && areWellNamed entries

end

section WellNamed

variable {root node : FileNode} {entries : List (String × FileNode)} {name : String}

theorem isWellNamed_of_mem (wellNamed : areWellNamed entries) (member : (name, node) ∈ entries) :
    node.isWellNamed := by
  induction entries with
  | nil => contradiction
  | cons entry entries ih =>
    obtain ⟨name', node'⟩ := entry
    rw [areWellNamed, Bool.and_eq_true] at wellNamed
    rcases List.mem_cons.mp member with same | member
    · obtain ⟨-, rfl⟩ := Prod.mk.inj same
      exact wellNamed.1
    · exact ih wellNamed.2 member

theorem isWellNamed_folder (wellNamed : (folder entries).isWellNamed) :
    (entries.map (·.1)).Nodup ∧
      ∀ name node, (name, node) ∈ entries → isFileName name ∧ node.isWellNamed := by
  simp only [isWellNamed, Bool.and_eq_true, decide_eq_true_eq, List.all_eq_true] at wellNamed
  obtain ⟨⟨proper, distinct⟩, each⟩ := wellNamed
  exact ⟨distinct, fun name node member =>
    ⟨proper name (List.mem_map_of_mem member), isWellNamed_of_mem each member⟩⟩

theorem mem_of_child? (found : child? name entries = some node) : (name, node) ∈ entries := by
  obtain ⟨⟨other, node'⟩, seen, rfl⟩ := Option.map_eq_some_iff.mp found
  have same : other = name := by simpa using List.find?_some seen
  exact same ▸ List.mem_of_find?_eq_some seen

theorem child?_of_mem (distinct : (entries.map (·.1)).Nodup) (member : (name, node) ∈ entries) :
    child? name entries = some node := by
  induction entries with
  | nil => contradiction
  | cons entry entries ih =>
    rw [List.map_cons, List.nodup_cons] at distinct
    rcases List.mem_cons.mp member with rfl | member
    · simp [child?]
    · have other : entry.1 ≠ name := fun same => distinct.1 (same ▸ List.mem_map_of_mem member)
      have later := ih distinct.2 member
      simpa [child?, other] using later

theorem at?_append (node : FileNode) (location names : Location) :
    node.at? (location ++ names) = (node.at? location).bind (·.at? names) := by
  induction location generalizing node with
  | nil => simp [at?]
  | cons name location ih =>
    cases node with
    | folder entries =>
      simp only [List.cons_append, at?, Option.bind_assoc]
      exact Option.bind_congr fun child _ => ih child
    | file contents => simp [at?]
    | link target => simp [at?]

theorem at?_entry {location : Location} (there : root.at? location = some (.folder entries)) :
    root.at? (location ++ [name]) = child? name entries := by
  rw [at?_append, there, Option.bind_some, at?]
  simp [at?]

theorem exists_child_of_at? {location : Location} (there : root.at? (location ++ [name]) = some node) :
    ∃ entries, root.at? location = some (.folder entries) ∧ child? name entries = some node := by
  obtain ⟨parent, here, below⟩ := Option.bind_eq_some_iff.mp ((at?_append ..).symm.trans there)
  cases parent with
  | folder entries => exact ⟨entries, here, (at?_entry here).symm.trans there⟩
  | file contents => simp [at?] at below
  | link target => simp [at?] at below

theorem isWellNamed_of_at? {location : Location} (wellNamed : root.isWellNamed)
    (there : root.at? location = some node) : node.isWellNamed := by
  induction location generalizing root with
  | nil =>
    obtain rfl := Option.some.inj there
    exact wellNamed
  | cons name location ih =>
    cases root with
    | folder entries =>
      obtain ⟨child, found, below⟩ := Option.bind_eq_some_iff.mp there
      exact ih ((isWellNamed_folder wellNamed).2 name child (mem_of_child? found)).2 below
    | file contents => simp [at?] at there
    | link target => simp [at?] at there

end WellNamed

end FileNode

namespace FileTree

open FileNode

/-- Where names lead from a location, with how many links may be followed before and after. -/
inductive Follows (root : FileNode) : Nat → Location → List String → Nat → Location → Prop
  | done {links : Nat} {location : Location} : Follows root links location [] links location
  | stay {links left : Nat} {location target : Location} {entries : List (String × FileNode)}
      {name : String} {names : List String}
      (there : root.at? location = some (.folder entries)) (same : name = "" ∨ name = ".")
      (rest : Follows root links location names left target) :
      Follows root links location (name :: names) left target
  | up {links left : Nat} {location target : Location} {entries : List (String × FileNode)}
      {names : List String} (there : root.at? location = some (.folder entries))
      (rest : Follows root links location.dropLast names left target) :
      Follows root links location (".." :: names) left target
  | down {links left : Nat} {location target : Location} {entries : List (String × FileNode)}
      {name : String} {names : List String} {node : FileNode}
      (there : root.at? location = some (.folder entries)) (listed : isListed name)
      (short : name.utf8ByteSize ≤ 255) (found : child? name entries = some node)
      (plain : ∀ path, node ≠ .link path)
      (rest : Follows root links (location ++ [name]) names left target) :
      Follows root links location (name :: names) left target
  | link {links left : Nat} {location target : Location} {entries : List (String × FileNode)}
      {name path : String} {names : List String}
      (there : root.at? location = some (.folder entries)) (listed : isListed name)
      (short : name.utf8ByteSize ≤ 255) (found : child? name entries = some (.link path))
      (rest : Follows root links (if path.toList.head? = some '/' then [] else location)
        (components path ++ names) left target) :
      Follows root (links + 1) location (name :: names) left target

section Follow

variable {root : FileNode} {links left : Nat} {location target : Location} {names : List String}

theorem Follows.follow_eq (follows : Follows root links location names left target) :
    follow root false links location names = .ok target := by
  induction follows with
  | done => simp [follow]
  | stay there same rest ih =>
    rcases same with rfl | rfl <;> simpa [follow, there] using ih
  | up there rest ih => simpa [follow, there] using ih
  | @down links left location target entries name names node there listed short found plain rest ih =>
    simp only [isListed, Bool.and_eq_true, decide_eq_true_eq] at listed
    have within : ¬ 255 < name.utf8ByteSize := by omega
    rw [follow, there]
    simp only [listed, within, found]
    cases node with
    | link path => exact absurd rfl (plain path)
    | file contents => simpa using ih
    | folder entries => simpa using ih
  | @link links left location target entries name path names there listed short found rest ih =>
    simp only [isListed, Bool.and_eq_true, decide_eq_true_eq] at listed
    have within : ¬ 255 < name.utf8ByteSize := by omega
    rw [follow, there]
    simpa [listed, within, found] using ih

theorem exists_follows (leads : follow root false links location names = .ok target) :
    ∃ left, Follows root links location names left target := by
  fun_induction follow root false links location names with
  | case1 links location =>
    obtain rfl := Except.ok.inj leads
    exact ⟨links, .done⟩
  | case2 links location name names entries there same ih =>
    obtain ⟨left, rest⟩ := ih leads
    exact ⟨left, .stay there (by simpa using same) rest⟩
  | case3 links location names entries there notSame ih =>
    obtain ⟨left, rest⟩ := ih leads
    exact ⟨left, .up there rest⟩
  | case9 location name names entries there notSame notUp _ short path found links start ih =>
    obtain ⟨left, rest⟩ := ih leads
    exact ⟨left, .link there (isListed_of_asked notSame notUp) (by omega) found rest⟩
  | case10 links location name names entries there notSame notUp _ short node plain found ih =>
    obtain ⟨left, rest⟩ := ih leads
    exact ⟨left, .down there (isListed_of_asked notSame notUp) (by omega) found plain rest⟩
  | case6 => simp_all
  | case4 => contradiction
  | case5 => contradiction
  | case7 => contradiction
  | case8 => contradiction
  | case11 => contradiction

theorem follow_eq_ok_iff : follow root false links location names = .ok target ↔
    ∃ left, Follows root links location names left target :=
  ⟨exists_follows, fun ⟨_, follows⟩ => follows.follow_eq⟩

theorem follows_append {names' : List String} :
    Follows root links location (names ++ names') left target ↔
      ∃ links' location', Follows root links location names links' location' ∧
        Follows root links' location' names' left target := by
  constructor
  · intro follows
    generalize whole : names ++ names' = all at follows
    induction follows generalizing names with
    | done =>
      obtain ⟨rfl, rfl⟩ := List.append_eq_nil_iff.mp whole
      exact ⟨_, _, .done, .done⟩
    | stay there same rest ih =>
      rcases List.append_eq_cons_iff.mp whole with ⟨rfl, rfl⟩ | ⟨names, rfl, split⟩
      · exact ⟨_, _, .done, .stay there same rest⟩
      · obtain ⟨links', location', first, second⟩ := ih split.symm
        exact ⟨links', location', .stay there same first, second⟩
    | up there rest ih =>
      rcases List.append_eq_cons_iff.mp whole with ⟨rfl, rfl⟩ | ⟨names, rfl, split⟩
      · exact ⟨_, _, .done, .up there rest⟩
      · obtain ⟨links', location', first, second⟩ := ih split.symm
        exact ⟨links', location', .up there first, second⟩
    | down there listed short found plain rest ih =>
      rcases List.append_eq_cons_iff.mp whole with ⟨rfl, rfl⟩ | ⟨names, rfl, split⟩
      · exact ⟨_, _, .done, .down there listed short found plain rest⟩
      · obtain ⟨links', location', first, second⟩ := ih split.symm
        exact ⟨links', location', .down there listed short found plain first, second⟩
    | @link _ _ _ _ _ _ path behind there listed short found rest ih =>
      rcases List.append_eq_cons_iff.mp whole with ⟨rfl, rfl⟩ | ⟨names, rfl, split⟩
      · exact ⟨_, _, .done, .link there listed short found rest⟩
      · -- The names of the link's target come in front of both parts.
        have onward : (components path ++ names) ++ names' = components path ++ behind := by
          rw [List.append_assoc, ← split]
        obtain ⟨links', location', first, second⟩ := ih onward
        exact ⟨links', location', .link there listed short found first, second⟩
  · rintro ⟨links', location', first, second⟩
    induction first with
    | done => exact second
    | stay there same rest ih => exact .stay there same (ih second)
    | up there rest ih => exact .up there (ih second)
    | down there listed short found plain rest ih =>
      exact .down there listed short found plain (ih second)
    | link there listed short found rest ih =>
      have rest' := ih second
      rw [List.append_assoc] at rest'
      exact .link there listed short found rest'

theorem Follows.exists_child {name : String} {entries : List (String × FileNode)}
    (there : root.at? location = some (.folder entries)) (listed : isListed name)
    (follows : Follows root links location [name] left target) :
    ∃ node, child? name entries = some node ∧
      ((∀ path, node ≠ .link path) → target = location ++ [name]) := by
  have ordinary := listed
  simp only [isListed, Bool.and_eq_true, decide_eq_true_eq] at ordinary
  cases follows with
  | stay there' same rest => simp [ordinary] at same
  | up there' rest => simp at ordinary
  | down there' listed short found plain rest =>
    obtain rfl := folder.inj (Option.some.inj (there'.symm.trans there))
    cases rest
    exact ⟨_, found, fun _ => rfl⟩
  | link there' listed short found rest =>
    obtain rfl := folder.inj (Option.some.inj (there'.symm.trans there))
    exact ⟨_, found, fun plain => absurd rfl (plain _)⟩

theorem Follows.exists_folder {name : String}
    (follows : Follows root links location (name :: names) left target) :
    ∃ entries, root.at? location = some (.folder entries) := by
  cases follows with
  | stay there => exact ⟨_, there⟩
  | up there => exact ⟨_, there⟩
  | down there => exact ⟨_, there⟩
  | link there => exact ⟨_, there⟩

end Follow

section Join

variable {path name : String}

theorem exists_toList_join (path name : String) :
    ∃ slash, (join path name).toList = path.toList ++ (slash ++ name.toList) ∧
      (slash = [] ∧ (path = "" ∨ ∃ front, path.toList = front ++ ['/']) ∨ slash = ['/']) := by
  unfold join
  split
  next noLast =>
    have empty : path = "" := by simpa using noLast
    exact ⟨[], by simp [empty], .inl ⟨rfl, .inl empty⟩⟩
  next last =>
    obtain ⟨front, split⟩ := List.getLast?_eq_some_iff.mp last
    exact ⟨[], by simp, .inl ⟨rfl, .inr ⟨front, split⟩⟩⟩
  next => exact ⟨['/'], by simp [String.toList_append], .inr rfl⟩

/-- The parts of a joined path are those of the path, but for a last one that is empty, and the name. -/
theorem exists_components_join (path : String) (plain : '/' ∉ name.toList) :
    ∃ front, components (join path name) = front ++ [name] ∧
      (components path = front ∨ components path = front ++ [""]) := by
  have solid : ∀ c ∈ name.toList, (c == '/') = false := fun c inside => by
    have other : c ≠ '/' := fun same => plain (same ▸ inside)
    simpa using other
  have single := Text.splitBy_solid solid
  have behind (front : Text) : (Text.splitBy (· == '/') (front ++ '/' :: name.toList)) =
      Text.splitBy (· == '/') front ++ [name.toList] := by
    rw [Text.splitBy_cut (by decide), single]
  obtain ⟨slash, joined, ⟨rfl, rfl | ⟨front, ends⟩⟩ | rfl⟩ := exists_toList_join path name
  · refine ⟨[], ?_, .inr rfl⟩
    simp only [components, joined]
    simp [single]
  · refine ⟨(Text.splitBy (· == '/') front).map String.ofList, ?_, .inr ?_⟩
    · have whole := behind front
      simp only [components, joined, ends]
      simp [whole]
    · have cut := @Text.splitBy_cut (· == '/') '/' (by decide) front []
      simp [components, ends, cut, Text.splitBy]
  · refine ⟨components path, ?_, .inl rfl⟩
    have whole := behind path.toList
    simp only [components, joined]
    simp [whole]

def parts (path : String) : List String :=
  (components path).filter fun part => part ≠ "" && part ≠ "."

theorem plain_of_isFileName (proper : isFileName name) : '/' ∉ name.toList := by
  simp only [isFileName, Bool.and_eq_true, Bool.not_eq_true', List.contains_eq_mem,
    decide_eq_false_iff_not] at proper
  exact proper.2

theorem parts_join (path : String) (proper : isFileName name) :
    parts (join path name) = parts path ++ [name] := by
  obtain ⟨front, joined, same⟩ := exists_components_join path (plain_of_isFileName proper)
  simp only [isFileName, isListed, Bool.and_eq_true, decide_eq_true_eq] at proper
  have kept : parts path = front.filter fun part => part ≠ "" && part ≠ "." := by
    rcases same with same | same <;> simp [parts, same]
  rw [parts, joined, List.filter_append, kept]
  simp [proper]

theorem fileName_join (path : String) (plain : '/' ∉ name.toList) :
    fileName (join path name) = name := by
  obtain ⟨front, joined, -⟩ := exists_components_join path plain
  simp [fileName, joined]

theorem utf8ByteSize_le_join (path name : String) :
    path.utf8ByteSize ≤ (join path name).utf8ByteSize := by
  unfold join
  split
  next noLast =>
    have empty : path = "" := by simpa using noLast
    simp [empty]
  next => simp
  next => simp only [String.utf8ByteSize_append]; omega

theorem join_ne_empty (nonempty : path ≠ "") (name : String) : join path name ≠ "" := by
  obtain ⟨slash, joined, -⟩ := exists_toList_join path name
  intro empty
  simp [empty, nonempty] at joined

/-- An empty part says nothing where a name comes behind it. -/
theorem follows_components_join {root : FileNode} {links left : Nat} {location target : Location}
    (path : String) (plain : '/' ∉ name.toList) :
    Follows root links location (components (join path name)) left target ↔
      Follows root links location (components path ++ [name]) left target := by
  obtain ⟨front, joined, same | same⟩ := exists_components_join path plain
  · rw [joined, same]
  · have skip {links : Nat} {location : Location} :
        Follows root links location [name] left target ↔
          Follows root links location ["", name] left target := by
      constructor
      · intro follows
        obtain ⟨entries, there⟩ := follows.exists_folder
        exact .stay there (.inl rfl) follows
      · intro follows
        generalize empty : "" = part at follows
        cases follows with
        | stay there same rest => exact rest
        | up there rest => simp at empty
        | down there listed => exact absurd (empty ▸ listed) (by decide)
        | link there listed => exact absurd (empty ▸ listed) (by decide)
    rw [joined, same, List.append_assoc, List.singleton_append, follows_append, follows_append]
    simp only [skip]

end Join

section Locate

variable {tree : FileTree} {path name : String} {location target : Location}

def start (tree : FileTree) (path : String) : Location :=
  if path.toList.head? = some '/' then [] else tree.working

theorem start_join (nonempty : path ≠ "") (name : String) :
    tree.start (join path name) = tree.start path := by
  obtain ⟨slash, joined, -⟩ := exists_toList_join path name
  have first : path.toList ≠ [] := by simpa using nonempty
  rw [start, start, joined, List.head?_append_of_ne_nil _ first]

theorem locate_eq_ok_iff : tree.locate path = .ok target ↔
    '\x00' ∉ path.toList ∧ path ≠ "" ∧ path.utf8ByteSize ≤ 4095 ∧
      ∃ left, Follows tree.root 40 (tree.start path) (components path) left target := by
  rw [← follow_eq_ok_iff, locate]
  split
  next nul => simp_all
  next noNul =>
    split
    next empty => simp [empty]
    next nonempty =>
      split
      next long =>
        have notShort : ¬ path.utf8ByteSize ≤ 4095 := by omega
        simp [notShort]
      next short =>
        have within : path.utf8ByteSize ≤ 4095 := by omega
        simp_all [start]

theorem exists_locate_of_join (nonempty : path ≠ "") (plain : '/' ∉ name.toList)
    (leads : tree.locate (join path name) = .ok target) :
    ∃ location, tree.locate path = .ok location ∧
      ∃ links left, Follows tree.root links location [name] left target := by
  obtain ⟨noNul, -, short, left, follows⟩ := locate_eq_ok_iff.mp leads
  rw [start_join nonempty, follows_components_join path plain, follows_append] at follows
  obtain ⟨links, location, first, second⟩ := follows
  refine ⟨location, locate_eq_ok_iff.mpr ⟨?_, nonempty, ?_, links, first⟩, links, left, second⟩
  · obtain ⟨slash, joined, -⟩ := exists_toList_join path name
    rw [joined, List.mem_append, not_or] at noNul
    exact noNul.1
  · exact (utf8ByteSize_le_join path name).trans short

/-- Where a path leads to a folder, one more name leads to what the folder lists under it. -/
theorem exists_child_of_join {entries : List (String × FileNode)}
    (leads : tree.locate path = .ok location) (there : tree.root.at? location = some (.folder entries))
    (proper : isFileName name) (onward : tree.locate (join path name) = .ok target) :
    ∃ node, child? name entries = some node ∧
      ((∀ other, node ≠ .link other) → target = location ++ [name]) := by
  obtain ⟨location', leads', links, left, follows⟩ :=
    exists_locate_of_join (locate_eq_ok_iff.mp leads).2.1 (plain_of_isFileName proper) onward
  obtain rfl := Except.ok.inj (leads.symm.trans leads')
  have listed : isListed name := (Bool.and_eq_true_iff.mp proper).1
  exact follows.exists_child there listed

theorem exists_locate_of_foldl {names : List String} (nonempty : path ≠ "")
    (proper : ∀ name ∈ names, isFileName name)
    (leads : tree.locate (names.foldl join path) = .ok target) :
    ∃ location, tree.locate path = .ok location := by
  induction names generalizing path with
  | nil => exact ⟨target, leads⟩
  | cons name names ih =>
    have plain := plain_of_isFileName (proper name (by simp))
    obtain ⟨location, onward⟩ := ih (join_ne_empty nonempty name)
      (fun other inside => proper other (List.mem_cons_of_mem _ inside)) leads
    obtain ⟨location, first, -⟩ := exists_locate_of_join nonempty plain onward
    exact ⟨location, first⟩

end Locate

end FileTree

end CraftScript
