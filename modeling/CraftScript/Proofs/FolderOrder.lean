import CraftScript.Files.Sources
import CraftScript.Proofs.Paths

/-! Trees that differ in the order in which their folders list their entries. Each location holds the
same in both, so a path leads to the same place and a file has the same text. -/
namespace CraftScript

namespace FileNode

mutual

/-- The same files, folders and links, where each folder may list its entries in another order. -/
inductive Relisted : FileNode → FileNode → Prop
  | file (contents : ByteArray) : Relisted (.file contents) (.file contents)
  | link (target : String) : Relisted (.link target) (.link target)
  | folder {entries entries' : List (String × FileNode)} (each : RelistedEntries entries entries') :
      Relisted (.folder entries) (.folder entries')

inductive RelistedEntries : List (String × FileNode) → List (String × FileNode) → Prop
  | nil : RelistedEntries [] []
  | cons {name : String} {node node' : FileNode} {entries early late : List (String × FileNode)}
      (first : Relisted node node') (others : RelistedEntries entries (early ++ late)) :
      RelistedEntries ((name, node) :: entries) (early ++ (name, node') :: late)

end

section Relisted

variable {root root' : FileNode} {entries entries' : List (String × FileNode)} {name : String}

theorem RelistedEntries.names_perm {entries entries' : List (String × FileNode)} :
    RelistedEntries entries entries' → (entries.map (·.1)).Perm (entries'.map (·.1))
  | .nil => .refl _
  | .cons first others => by
    have perm := others.names_perm
    rw [List.map_append] at perm
    rw [List.map_cons, List.map_append, List.map_cons]
    exact (perm.cons _).trans List.perm_middle.symm

theorem RelistedEntries.exists_mem {entries entries' : List (String × FileNode)} {node : FileNode} :
    RelistedEntries entries entries' → (name, node) ∈ entries →
      ∃ node', (name, node') ∈ entries' ∧ Relisted node node'
  | .nil, member => by contradiction
  | .cons first others, member => by
    rcases List.mem_cons.mp member with same | member
    · obtain ⟨rfl, rfl⟩ := Prod.mk.inj same
      exact ⟨_, by simp, first⟩
    · obtain ⟨node', member', relisted⟩ := others.exists_mem member
      refine ⟨node', ?_, relisted⟩
      rcases List.mem_append.mp member' with early | late
      · simp [early]
      · simp [late]

theorem RelistedEntries.exists_mem_of_mem {entries entries' : List (String × FileNode)}
    {node' : FileNode} : RelistedEntries entries entries' → (name, node') ∈ entries' →
      ∃ node, (name, node) ∈ entries ∧ Relisted node node'
  | .nil, member => by contradiction
  | .cons first others, member => by
    rcases List.mem_append.mp member with early | member
    · obtain ⟨node, member, relisted⟩ := others.exists_mem_of_mem (List.mem_append_left _ early)
      exact ⟨node, List.mem_cons_of_mem _ member, relisted⟩
    · rcases List.mem_cons.mp member with same | late
      · obtain ⟨rfl, rfl⟩ := Prod.mk.inj same
        exact ⟨_, List.mem_cons_self, first⟩
      · obtain ⟨node, member, relisted⟩ := others.exists_mem_of_mem (List.mem_append_right _ late)
        exact ⟨node, List.mem_cons_of_mem _ member, relisted⟩

theorem areWellNamed_append (early late : List (String × FileNode)) :
    areWellNamed (early ++ late) = (areWellNamed early && areWellNamed late) := by
  induction early with
  | nil => simp [areWellNamed]
  | cons entry early ih => simp [areWellNamed, ih, Bool.and_assoc]

mutual

theorem Relisted.isWellNamed {node node' : FileNode} :
    Relisted node node' → node.isWellNamed → node'.isWellNamed
  | .file _, wellNamed => wellNamed
  | .link _, wellNamed => wellNamed
  | .folder each, wellNamed => by
    have perm := each.names_perm
    simp only [FileNode.isWellNamed, Bool.and_eq_true, decide_eq_true_eq, List.all_eq_true]
      at wellNamed ⊢
    obtain ⟨⟨proper, distinct⟩, below⟩ := wellNamed
    exact ⟨⟨fun name member => proper name (perm.mem_iff.mpr member), perm.nodup_iff.mp distinct⟩,
      each.areWellNamed below⟩

theorem RelistedEntries.areWellNamed {entries entries' : List (String × FileNode)} :
    RelistedEntries entries entries' → areWellNamed entries → areWellNamed entries'
  | .nil, _ => rfl
  | .cons first others, wellNamed => by
    simp only [FileNode.areWellNamed, Bool.and_eq_true] at wellNamed
    have others' := others.areWellNamed wellNamed.2
    simp only [areWellNamed_append, FileNode.areWellNamed, Bool.and_eq_true] at others' ⊢
    exact ⟨others'.1, first.isWellNamed wellNamed.1, others'.2⟩

end

theorem sizeEntries_append (early late : List (String × FileNode)) :
    sizeEntries (early ++ late) = sizeEntries early + sizeEntries late := by
  induction early with
  | nil => simp [sizeEntries]
  | cons entry early ih => simp [sizeEntries, ih, Nat.add_assoc]

mutual

theorem Relisted.size_eq {node node' : FileNode} : Relisted node node' → node'.size = node.size
  | .file _ => rfl
  | .link _ => rfl
  | .folder each => by rw [size, size, each.sizeEntries_eq]

theorem RelistedEntries.sizeEntries_eq {entries entries' : List (String × FileNode)} :
    RelistedEntries entries entries' → sizeEntries entries' = sizeEntries entries
  | .nil => rfl
  | .cons first others => by
    have rest := others.sizeEntries_eq
    rw [sizeEntries_append] at rest
    rw [sizeEntries_append, sizeEntries, sizeEntries, first.size_eq]
    omega

end

theorem RelistedEntries.rel_child? (distinct : (entries.map (·.1)).Nodup)
    (relisted : RelistedEntries entries entries') (name : String) :
    Option.Rel Relisted (child? name entries) (child? name entries') := by
  have distinct' := relisted.names_perm.nodup_iff.mp distinct
  cases found : child? name entries with
  | some node =>
    obtain ⟨node', member', same⟩ := relisted.exists_mem (mem_of_child? found)
    rw [child?_of_mem distinct' member']
    exact .some same
  | none =>
    cases found' : child? name entries' with
    | none => exact .none
    | some node' =>
      obtain ⟨node, member, -⟩ := relisted.exists_mem_of_mem (mem_of_child? found')
      rw [child?_of_mem distinct member] at found
      contradiction

theorem Relisted.rel_at? (relisted : Relisted root root') (wellNamed : root.isWellNamed)
    (location : Location) :
    Option.Rel (fun node node' => Relisted node node' ∧ node.isWellNamed) (root.at? location)
      (root'.at? location) := by
  induction location generalizing root root' with
  | nil =>
    rw [at?, at?]
    exact .some ⟨relisted, wellNamed⟩
  | cons name location ih =>
    cases relisted with
    | file contents => exact .none
    | link target => exact .none
    | @folder entries entries' each =>
      obtain ⟨distinct, proper⟩ := isWellNamed_folder wellNamed
      have children := each.rel_child? distinct name
      have fine (node : FileNode) (found : child? name entries = some node) : node.isWellNamed :=
        (proper name node (mem_of_child? found)).2
      rw [at?, at?]
      generalize child? name entries = child, child? name entries' = child' at children fine ⊢
      cases children with
      | none => exact .none
      | some same => exact ih same (fine _ rfl)

/-- Where one tree has a folder the other has one, and they list the same. -/
theorem Relisted.exists_folder {location : Location} (relisted : Relisted root root')
    (wellNamed : root.isWellNamed) (there' : root'.at? location = some (.folder entries')) :
    ∃ entries, root.at? location = some (.folder entries) ∧ RelistedEntries entries entries' := by
  have nodes := relisted.rel_at? wellNamed location
  rw [there'] at nodes
  generalize root.at? location = node at nodes
  cases nodes with
  | some nodes =>
    cases nodes.1 with
    | folder each => exact ⟨_, rfl, each⟩

theorem Relisted.at?_eq_some_iff {location : Location} {node : FileNode}
    (relisted : Relisted root root') (wellNamed : root.isWellNamed)
    (plain : ∀ entries, node ≠ .folder entries) :
    root'.at? location = some node ↔ root.at? location = some node := by
  have nodes := relisted.rel_at? wellNamed location
  generalize root.at? location = found, root'.at? location = found' at nodes ⊢
  cases nodes with
  | none => rfl
  | some nodes =>
    cases nodes.1 with
    | file contents => rfl
    | link target => rfl
    | folder each =>
      have other (entries : List (String × FileNode)) : FileNode.folder entries ≠ node :=
        (plain entries).symm
      simp [other]

end Relisted

end FileNode

namespace FileTree

open FileNode

section Relisted

variable {root root' : FileNode}

/-- Names lead to the same place, or fail in the same way. -/
theorem follow_relisted (relisted : root.Relisted root') (wellNamed : root.isWellNamed)
    (create : Bool) (links : Nat) (location : Location) (names : List String) :
    follow root' create links location names = follow root create links location names := by
  -- A link puts the names of its target in front, so the links left count before the names left.
  induction links using Nat.strong_induction_on generalizing location names with
  | _ links ihLinks =>
    induction names generalizing location with
    | nil => rw [follow, follow]
    | cons name names ih =>
      have nodes := relisted.rel_at? wellNamed location
      rw [follow, follow]
      generalize root.at? location = node, root'.at? location = node' at nodes ⊢
      cases nodes with
      | none => rfl
      | some nodes =>
        obtain ⟨same, wellNamed⟩ := nodes
        cases same with
        | file contents => rfl
        | link target => rfl
        | @folder entries entries' each =>
          have children := each.rel_child? (isWellNamed_folder wellNamed).1 name
          simp only [ih]
          generalize child? name entries = child, child? name entries' = child' at children ⊢
          cases children with
          | none => rfl
          | some same =>
            cases same with
            | file contents => rfl
            | folder each => rfl
            | link target =>
              cases links with
              | zero => rfl
              | succ links => simp only [ihLinks links (Nat.lt_succ_self links)]

end Relisted

structure Relisted (tree tree' : FileTree) : Prop where
  root : tree.root.Relisted tree'.root
  working : tree'.working = tree.working

namespace Relisted

variable {tree tree' : FileTree}

theorem locate_eq (relisted : tree.Relisted tree') (wellNamed : tree.root.isWellNamed)
    (path : String) : tree'.locate path = tree.locate path := by
  simp only [locate, relisted.working, follow_relisted relisted.root wellNamed]

theorem readText_eq (relisted : tree.Relisted tree') (wellNamed : tree.root.isWellNamed)
    (path : String) : tree'.readText path = tree.readText path := by
  have read : tree'.read path = tree.read path := by
    rw [FileTree.read, FileTree.read, relisted.locate_eq wellNamed]
    cases tree.locate path with
    | error error => rfl
    | ok location =>
      have nodes := relisted.root.rel_at? wellNamed location
      simp only [bind, Except.bind]
      generalize tree.root.at? location = node, tree'.root.at? location = node' at nodes ⊢
      cases nodes with
      | none => rfl
      | some nodes => cases nodes.1 <;> rfl
  rw [readText, readText, read]

theorem sources_eq (relisted : tree.Relisted tree') (wellNamed : tree.root.isWellNamed) :
    tree'.sources = tree.sources := by
  funext paths
  have each : tree'.source = tree.source := by
    funext path
    rw [source, source, relisted.readText_eq wellNamed]
  rw [sources, sources, each]

theorem enter_eq (relisted : tree.Relisted tree') (wellNamed : tree.root.isWellNamed)
    {node node' : FileNode} (same : node.Relisted node') (ancestors : List Ancestor)
    (location : Location) (name path : String) :
    enter tree' ancestors location name node' path = enter tree ancestors location name node path := by
  unfold enter
  rw [relisted.locate_eq wellNamed]
  cases same with
  | file contents => rfl
  | folder each => cases tree.locate path <;> rfl
  | link target =>
    cases tree.locate path with
    | error error => rfl
    | ok target =>
      have nodes := relisted.root.rel_at? wellNamed target
      simp only
      generalize tree.root.at? target = node, tree'.root.at? target = node' at nodes ⊢
      cases nodes with
      | none => rfl
      | some nodes => cases nodes.1 <;> cases ancestors.find? (·.location == target) <;> rfl

end Relisted

end FileTree

end CraftScript
