import CraftScript.CommandLine

/-! The program. It takes a picture of the files that the arguments name, runs the command line on
it, and hands on what comes out; every decision is made there. -/
namespace CraftScript.Main

def absolute (location : Location) : String :=
  "/" ++ "/".intercalate location

def realLocation? (path : String) : IO (Option Location) := do
  try
    let real ← IO.FS.realPath (System.mkFilePath [path])
    return some ((FileTree.components real.toString).filter (· ≠ ""))
  catch _ => return none

def fileType? (location : Location) : IO (Option IO.FS.FileType) := do
  try
    return some (← (System.mkFilePath [absolute location]).symlinkMetadata).type
  catch _ => return none

structure Picture where
  tree : FileTree
  complete : List Location := []

def Picture.put (picture : Picture) (location : Location) (node : FileNode) : Picture :=
  { picture with tree.root := node.put location picture.tree.root }

def Picture.putFolder (picture : Picture) (location : Location) : Picture :=
  match picture.tree.root.at? location with
  | some _ => picture
  | none => picture.put location (.folder [])

mutual

partial def Picture.take (picture : Picture) (location : Location) : IO Picture :=
  if picture.complete.any (·.isPrefixOf location) then return picture
  else Picture.takeBelow { picture with complete := location :: picture.complete } location

partial def Picture.takeBelow (picture : Picture) (location : Location) : IO Picture := do
  match ← fileType? location with
  | some .file =>
    return picture.put location (.file (← IO.FS.readBinFile (System.mkFilePath [absolute location])))
  | some .dir =>
    let mut picture := picture.put location (.folder [])
    for entry in ← (System.mkFilePath [absolute location]).readDir do
      picture ← picture.takeBelow (location ++ [entry.fileName])
    return picture
  | some .symlink =>
    match ← realLocation? (absolute location) with
    | none => return picture.put location (.link "\x00")
    | some target => (picture.put location (.link (absolute target))).take target
  | _ => return picture

end

partial def Picture.reach (picture : Picture) (location : Location) : List String → IO Picture
  | [] => picture.take location
  | name :: names => do
    if name = "" || name = "." then picture.reach location names
    else if name = ".." then picture.reach location.dropLast names
    else
      let here := location ++ [name]
      match ← fileType? here, ← realLocation? (absolute here) with
      | some .symlink, some target =>
        (picture.put here (.link (absolute target))).reach target names
      | some .dir, _ => (picture.putFolder here).reach here names
      | _, _ => picture.take here

def Picture.putKind (picture : Picture) (location : Location) : IO Picture := do
  match ← fileType? location with
  | some .dir => return picture.putFolder location
  | some .file => return picture.put location (.file .empty)
  | _ => return picture

def Picture.reachOutput (picture : Picture) (path : String) : IO Picture := do
  match (FileTree.components path).reverse with
  | [] => return picture
  | name :: folder =>
    match ← realLocation? ("/".intercalate (folder.reverse ++ ["."])) with
    | none => return picture
    | some location =>
      let here := location ++ [name]
      let picture := picture.putFolder location
      match ← fileType? here, ← realLocation? (absolute here) with
      | some .symlink, some target =>
        (picture.put here (.link (absolute target))).putKind target
      | _, _ => picture.putKind here

def picture (options : CommandLine.Options) : IO FileTree := do
  let working := (← realLocation? ".").getD []
  let mut picture : Picture := Picture.putFolder { tree := { working } } working
  for path in options.paths ++ options.config.toList do
    let start := if path.toList.head? = some '/' then [] else working
    picture ← picture.reach start (FileTree.components path)
  for path in options.output.toList do
    picture ← picture.reachOutput path
  return picture.tree

def milliseconds (start stop : Nat) : String :=
  toString ((stop - start) / 1000000) ++ "ms"

def convert (arguments : List String) (options : CommandLine.Options) : IO UInt32 := do
  let start ← IO.monoNanosNow
  let tree ← picture options
  let loaded ← IO.monoNanosNow
  let outcome := CommandLine.run tree arguments
  IO.print outcome.stdout
  for path in options.output.toList do
    if outcome.code = 0 then
      if let .ok text := outcome.files.readText path then
        IO.FS.writeFile (System.mkFilePath [path]) text
  IO.eprint outcome.stderr
  if outcome.code = 0 then
    let stop ← IO.monoNanosNow
    IO.eprintln "\n--- Performance Summary ---"
    IO.eprintln ("Source Loading:       " ++ milliseconds start loaded)
    IO.eprintln ("Parsing:              " ++ milliseconds loaded stop)
    IO.eprintln "-----------------------------"
    IO.eprintln ("Total Execution:      " ++ milliseconds start stop)
  return outcome.code.toUInt32

end CraftScript.Main

def main (arguments : List String) : IO UInt32 := do
  match CraftScript.CommandLine.request arguments with
  | .run options => CraftScript.Main.convert arguments options
  | _ =>
    let outcome := CraftScript.CommandLine.run {} arguments
    IO.print outcome.stdout
    IO.eprint outcome.stderr
    return outcome.code.toUInt32
