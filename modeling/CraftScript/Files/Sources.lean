import CraftScript.FileRule
import CraftScript.Files.Tree

/-! Finding and reading the scripts in a tree of files. Every folder below the root is searched,
links included, and the paths come out sorted name by name, whatever order the folders list their
entries in. -/
namespace CraftScript

inductive WalkError where
  | unusable (path : String) (error : FileError)
  | loop (link ancestor : String)
deriving DecidableEq, Repr

def WalkError.message : WalkError → String
  | unusable path error => "IO error for operation on " ++ path ++ ": " ++ error.message
  | loop link ancestor =>
    "File system loop found: " ++ link ++ " points to an ancestor " ++ ancestor

inductive SourceError where
  | unreadable (path : String) (error : FileError)
  | unsearchable (root : String) (error : WalkError)
deriving DecidableEq, Repr

def SourceError.message : SourceError → String
  | unreadable path error => "Could not read script '" ++ path ++ "': " ++ error.message
  | unsearchable root error => "Could not walk directory '" ++ root ++ "': " ++ error.message

structure Source where
  path : String
  text : String
deriving DecidableEq, Repr

namespace FileTree

structure Ancestor where
  location : Location
  path : String

def enter (tree : FileTree) (ancestors : List Ancestor) (location : Location) (name : String)
    (node : FileNode) (path : String) : Except WalkError Location :=
  match node, tree.locate path with
  | .file _, _ => .ok (location ++ [name])
  | _, .error error => .error (.unusable path error)
  | .folder _, .ok target => .ok target
  | .link _, .ok target =>
    match tree.root.at? target, ancestors.find? (·.location == target) with
    | some (.folder _), some ancestor => .error (.loop path ancestor.path)
    | _, _ => .ok target

def filesFrom (tree : FileTree) : (fuel : Nat) → List Ancestor → Location → String →
    Except WalkError (List (List String))
  | 0, _, _, _ => .ok []
  | fuel + 1, ancestors, location, path =>
    match tree.root.at? location with
    | some (.file _) => .ok [[]]
    | some (.folder entries) => do
      let ancestors := ⟨location, path⟩ :: ancestors
      let found ← entries.mapM fun (name, node) => do
        let path := join path name
        let target ← enter tree ancestors location name node path
        let below ← filesFrom tree fuel ancestors target path
        return below.map (name :: ·)
      return found.flatten
    | _ => .ok []

/-- The files that a path leads to. A way through the tree follows a link to each folder at most
once and goes down between two links, so the square of the tree's size bounds it. -/
def files (tree : FileTree) (root : String) : Except WalkError (List (List String)) :=
  match tree.locate root with
  | .error error => .error (.unusable root error)
  | .ok location => filesFrom tree ((tree.root.size + 1) * (tree.root.size + 1)) [] location root

def scripts (tree : FileTree) (root : String) (rule : FileRule) :
    Except SourceError (List String) :=
  match tree.files root with
  | .error error => .error (.unsearchable root error)
  | .ok found =>
    let accepted := found.filter fun names => rule.accepts (names.getLast?.getD (fileName root))
    let sorted := accepted.mergeSort fun a b => !decide (b < a)
    .ok (sorted.map fun names => names.foldl join root)

def source (tree : FileTree) (path : String) : Except SourceError Source :=
  match tree.readText path with
  | .ok text => .ok { path, text }
  | .error error => .error (.unreadable path error)

def sources (tree : FileTree) (paths : List String) : Except SourceError (List Source) :=
  paths.mapM tree.source

end FileTree

end CraftScript
