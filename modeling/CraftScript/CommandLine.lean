import CraftScript.Configuration
import CraftScript.Document.Encoding
import CraftScript.Files.Sources
import CraftScript.Script

/-! The command line: scripts named or found by path in, one JSON document out. The whole run is a
function of the arguments and the files; timing and logging are no part of it. -/
namespace CraftScript

inductive ConfigurationError where
  | unreadable (path : String) (error : FileError)
  | unusable (fault : Json.Fault)
deriving DecidableEq, Repr

def ConfigurationError.message : ConfigurationError → String
  | unreadable path error => "Could not open config file '" ++ path ++ "': " ++ error.message
  | unusable fault =>
    "Failed to parse config JSON: " ++
      match fault with
      | .malformed => "malformed text"
      | .truncated => "unexpected end of text"
      | .mismatch => "unexpected value"

def Configuration.ofFile (tree : FileTree) (path : String) :
    Except ConfigurationError Configuration :=
  match tree.readText path with
  | .error error => .error (.unreadable path error)
  | .ok text =>
    match ofJsonText text.toList with
    | .error fault => .error (.unusable fault)
    | .ok configuration => .ok configuration

namespace CommandLine

structure Options where
  paths : List String := []
  config : Option String := none
  output : Option String := none
  pretty : Bool := false
  issues : Bool := false
  verbose : Bool := false
deriving DecidableEq, Repr

inductive PathOption where
  | config
  | output
deriving DecidableEq, Repr

inductive Switch where
  | pretty
  | issues
  | verbose
deriving DecidableEq, Repr

inductive Request where
  | run (options : Options)
  | version
  | help
  | misuse
deriving DecidableEq, Repr

/-- Where the reading of arguments stands: the options so far, with an option that still waits for
its path, or an answer that further arguments do not change. -/
inductive Progress where
  | reading (options : Options) (waiting : Option PathOption)
  | settled (request : Request)

namespace Options

def addPath (options : Options) (path : String) : Progress :=
  if path = "" then .settled .misuse
  else .reading { options with paths := options.paths ++ [path] } none

def setPath (options : Options) (option : PathOption) (path : String) : Progress :=
  if path = "" then .settled .misuse
  else match option, options.config, options.output with
    | .config, none, _ => .reading { options with config := some path } none
    | .output, _, none => .reading { options with output := some path } none
    | _, _, _ => .settled .misuse

def turnOn (options : Options) (switch : Switch) : Option Options :=
  match switch, options.pretty, options.issues, options.verbose with
  | .pretty, false, _, _ => some { options with pretty := true }
  | .issues, _, false, _ => some { options with issues := true }
  | .verbose, _, _, false => some { options with verbose := true }
  | _, _, _, _ => none

def short (options : Options) : Text → Progress
  | [] => .reading options none
  | letter :: rest =>
    let switch (s : Switch) : Progress :=
      match options.turnOn s with
      | some options => short options rest
      | none => .settled .misuse
    let takePath (option : PathOption) : Progress :=
      match rest with
      | [] => .reading options (some option)
      | '=' :: path => options.setPath option (String.ofList path)
      | path => options.setPath option (String.ofList path)
    match letter with
    | 'p' => switch .pretty
    | 'v' => switch .verbose
    | 'c' => takePath .config
    | 'o' => takePath .output
    | 'h' => .settled .help
    | 'V' => .settled .version
    | _ => .settled .misuse

def long (options : Options) (name : Text) (value : Option Text) : Progress :=
  let switch (s : Switch) : Progress :=
    match value, options.turnOn s with
    | none, some options => .reading options none
    | _, _ => .settled .misuse
  let takePath (option : PathOption) : Progress :=
    match value with
    | none => .reading options (some option)
    | some path => options.setPath option (String.ofList path)
  let answer (request : Request) : Progress :=
    .settled (if value.isNone then request else .misuse)
  match String.ofList name with
  | "config" => takePath .config
  | "output" => takePath .output
  | "pretty" => switch .pretty
  | "issues" => switch .issues
  | "verbose" => switch .verbose
  | "help" => answer .help
  | "version" => answer .version
  | _ => .settled .misuse

end Options

def readArguments : (onlyPaths : Bool) → Progress → List String → Request
  | _, .settled request, _ => request
  | _, .reading _ (some _), [] => .misuse
  | _, .reading options none, [] => if options.paths.isEmpty then .misuse else .run options
  | true, .reading _ (some _), _ :: _ => .misuse
  | true, .reading options none, argument :: arguments =>
    readArguments true (options.addPath argument) arguments
  | false, .reading options waiting, argument :: arguments =>
    match argument.toList, waiting with
    | ['-', '-'], none => readArguments true (.reading options none) arguments
    | '-' :: _ :: _, some _ => .misuse
    | _, some option => readArguments false (options.setPath option argument) arguments
    | '-' :: '-' :: name, none =>
      let progress := match Text.splitOnce? '=' name with
        | some (name, value) => options.long name (some value)
        | none => options.long name none
      readArguments false progress arguments
    | '-' :: letter :: letters, none =>
      readArguments false (options.short (letter :: letters)) arguments
    | _, none => readArguments false (options.addPath argument) arguments

def request (arguments : List String) : Request :=
  readArguments false (.reading {} none) arguments

structure Outcome where
  code : UInt8
  stdout : String := ""
  stderr : String := ""
  files : FileTree

def versionText : String :=
  "kumitate 0.1.0\n"

def helpText : String :=
  "Parse crafting and construction recipe scripts into a JSON document\n\n" ++
  "Usage: kumitate-cli [OPTIONS] <PATHS>...\n\n" ++
  "Arguments:\n" ++
  "  <PATHS>...  Script files or directories to scan for scripts\n\n" ++
  "Options:\n" ++
  "  -c, --config <CONFIG>  Optional JSON configuration file\n" ++
  "  -o, --output <OUTPUT>  Write the document here instead of stdout\n" ++
  "  -p, --pretty           Pretty-print the JSON document\n" ++
  "      --issues           Print every parse issue to stderr\n" ++
  "  -v, --verbose          Enable debug logging\n" ++
  "  -h, --help             Print help\n" ++
  "  -V, --version          Print version\n"

def scriptPaths (tree : FileTree) (rule : FileRule) (paths : List String) :
    Except SourceError (List String) := do
  let found ← paths.mapM fun path =>
    if tree.isFolder path then tree.scripts path rule else .ok [path]
  return found.flatten

def summary (sources : List Source) (report : Report) : String :=
  let names := sources.map fun source => FileTree.fileName source.path
  "\n--- Parse Summary ---\n" ++
  "Sources:              " ++ ", ".intercalate names ++ "\n" ++
  "Recipes:              " ++ toString report.recipes.length ++ "\n" ++
  "  of which construction: " ++ toString (report.recipes.countP (·.construction)) ++ "\n" ++
  "Issues:               " ++ toString report.issues.length ++ "\n"

def issueLines (report : Report) : String :=
  String.join (report.issues.map fun issue => "  -> " ++ issue.message ++ "\n")

def load (tree : FileTree) (options : Options) :
    Except String (Configuration × List Source) := do
  let configuration ← match options.config with
    | none => .ok {}
    | some path =>
      match Configuration.ofFile tree path with
      | .ok configuration => .ok configuration
      | .error error =>
        .error ("Failed to load config '" ++ path ++ "': " ++ error.message)
  let sources ←
    match scriptPaths tree configuration.files options.paths with
    | .error error => .error error.message
    | .ok paths =>
      match tree.sources paths with
      | .error error => .error error.message
      | .ok sources => .ok sources
  if sources.isEmpty then throw "No script files matched the given paths."
  return (configuration, sources)

def failure (tree : FileTree) (stderr message : String) : Outcome :=
  { code := 1, stderr := stderr ++ "\nError: " ++ message ++ "\n", files := tree }

def convert (tree : FileTree) (options : Options) : Outcome :=
  match load tree options with
  | .error message => failure tree "" message
  | .ok (configuration, sources) =>
    let report := Script.reportAll configuration.settings (sources.map (·.text.toList))
    let stderr := if options.issues then issueLines report else ""
    let json := Document.toJson report.recipes
    let text := if options.pretty then json.pretty else json.compact
    match options.output with
    | none =>
      { code := 0, stdout := text ++ "\n", stderr := stderr ++ summary sources report, files := tree }
    | some path =>
      match tree.writeText path text with
      | .error error =>
        failure tree stderr ("Could not write '" ++ path ++ "': " ++ error.message)
      | .ok files => { code := 0, stderr := stderr ++ summary sources report, files }

def run (tree : FileTree) (arguments : List String) : Outcome :=
  match request arguments with
  | .run options => convert tree options
  | .version => { code := 0, stdout := versionText, files := tree }
  | .help => { code := 0, stdout := helpText, files := tree }
  | .misuse =>
    { code := 2, stderr := "error: the arguments cannot be used; try '--help'\n", files := tree }

end CommandLine

end CraftScript
