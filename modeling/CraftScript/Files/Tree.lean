import CraftScript.Text.Basic

/-! Files and folders as a value, with symbolic links. Paths are resolved name by name: a link leads
on from the folder it stands in, and two dots lead to the folder above. -/
namespace CraftScript

inductive FileError where
  | notFound
  | notFolder
  | isFolder
  | nameTooLong
  | tooManyLinks
  | nulInPath
  | notText
deriving DecidableEq, Repr

def FileError.message : FileError → String
  | notFound => "No such file or directory (os error 2)"
  | notFolder => "Not a directory (os error 20)"
  | isFolder => "Is a directory (os error 21)"
  | nameTooLong => "File name too long (os error 36)"
  | tooManyLinks => "Too many levels of symbolic links (os error 40)"
  | nulInPath => "file name contained an unexpected NUL byte"
  | notText => "stream did not contain valid UTF-8"

/-- A file, a folder or a symbolic link. The names in a folder are texts: a file system may also list
names that are no UTF-8, under which a search passes over files and still goes into folders, and such
names have no counterpart here. -/
inductive FileNode where
  | file (contents : ByteArray)
  | folder (entries : List (String × FileNode))
  | link (target : String)

namespace FileNode

def child? (name : String) (entries : List (String × FileNode)) : Option FileNode :=
  (entries.find? (·.1 == name)).map (·.2)

def at? : FileNode → List String → Option FileNode
  | node, [] => some node
  | .folder entries, name :: names => (child? name entries).bind (at? · names)
  | _, _ :: _ => none

def putEntry (name : String) (node : FileNode) :
    List (String × FileNode) → List (String × FileNode)
  | [] => [(name, node)]
  | entry :: entries =>
    if entry.1 = name then (name, node) :: entries else entry :: putEntry name node entries

def put (new : FileNode) : List String → FileNode → FileNode
  | [], _ => new
  | name :: names, .folder entries =>
    .folder (putEntry name (put new names ((child? name entries).getD (.folder []))) entries)
  | _ :: _, node => node

mutual

def size : FileNode → Nat
  | .folder entries => sizeEntries entries + 1
  | _ => 1

def sizeEntries : List (String × FileNode) → Nat
  | [] => 0
  | (_, node) :: entries => size node + sizeEntries entries

end

end FileNode

abbrev Location := List String

structure FileTree where
  root : FileNode := .folder []
  working : Location := []

namespace FileTree

def components (path : String) : List String :=
  (Text.splitBy (· == '/') path.toList).map String.ofList

def join (path name : String) : String :=
  match path.toList.getLast? with
  | none => name
  | some '/' => path ++ name
  | some _ => path ++ "/" ++ name

def fileName (path : String) : String :=
  (components path).getLast?.getD ""

def trailing (names : List String) : Bool :=
  !names.isEmpty && names.all (· = "")

/-- Follows names from a location to where they lead. `create` allows the last name to be new, but
not with a slash behind it. -/
def follow (root : FileNode) (create : Bool) :
    (links : Nat) → Location → List String → Except FileError Location
  | _, location, [] => .ok location
  | links, location, name :: names =>
    match root.at? location with
    | some (.folder entries) =>
      if name = "" || name = "." then follow root create links location names
      else if name = ".." then follow root create links location.dropLast names
      else if create && trailing names then .error .isFolder
      else if 255 < name.utf8ByteSize then .error .nameTooLong
      else match FileNode.child? name entries with
        | none => if create && names.isEmpty then .ok (location ++ [name]) else .error .notFound
        | some (.link target) =>
          match links with
          | 0 => .error .tooManyLinks
          | links + 1 =>
            let start := if target.toList.head? = some '/' then [] else location
            follow root create links start (components target ++ names)
        | some _ => follow root create links (location ++ [name]) names
    | _ => .error .notFolder
termination_by links _ names => (links, names.length)

def locate (tree : FileTree) (path : String) (create : Bool := false) : Except FileError Location :=
  if path.toList.contains '\x00' then .error .nulInPath
  else if path = "" then .error .notFound
  else if 4095 < path.utf8ByteSize then .error .nameTooLong
  else
    let start := if path.toList.head? = some '/' then [] else tree.working
    follow tree.root create 40 start (components path)

def isFolder (tree : FileTree) (path : String) : Bool :=
  match tree.locate path with
  | .error _ => false
  | .ok location =>
    match tree.root.at? location with
    | some (.folder _) => true
    | _ => false

def read (tree : FileTree) (path : String) : Except FileError ByteArray := do
  match tree.root.at? (← tree.locate path) with
  | some (.file contents) => return contents
  | some (.folder _) => throw .isFolder
  | _ => throw .notFound

def readText (tree : FileTree) (path : String) : Except FileError String := do
  match String.fromUTF8? (← tree.read path) with
  | some text => return text
  | none => throw .notText

def writeText (tree : FileTree) (path text : String) : Except FileError FileTree := do
  let location ← tree.locate path true
  match tree.root.at? location with
  | some (.folder _) => throw .isFolder
  | _ => return { tree with root := FileNode.put (.file text.toUTF8) location tree.root }

def makeFolders (root : FileNode) : Location → List String → FileNode × Location
  | location, [] => (root, location)
  | location, name :: names =>
    match follow root false 40 location [name] with
    | .ok next => makeFolders root next names
    | .error _ =>
      let next := location ++ [name]
      makeFolders (FileNode.put (.folder []) next root) next names

def add (tree : FileTree) (path : String) (node : FileNode) : FileTree :=
  let names := components path
  match node with
  | .folder _ => { tree with root := (makeFolders tree.root tree.working names).1 }
  | _ =>
    let (root, folder) := makeFolders tree.root tree.working names.dropLast
    let name := names.getLast?.getD ""
    let location := match node, follow root true 40 folder [name] with
      | .file _, .ok location => location
      | _, _ => folder ++ [name]
    { tree with root := FileNode.put node location root }

end FileTree

end CraftScript
