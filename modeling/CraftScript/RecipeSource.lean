import CraftScript.Block
import CraftScript.Comment

/-! Recipes found line by line. A recipe starts at a line that begins with its head and takes whole
lines until the braces counted so far balance, so what follows the closing brace on its line belongs
to it, and a line can hold only one head. -/
namespace CraftScript

structure RecipeSource where
  name : Text
  text : Text
deriving DecidableEq, Repr

namespace RecipeSource

def body? (block : RecipeSource) : Option Text :=
  (Brace.firstBlock? block.text).map (·.1)

def header? (line : Text) : Option Text := do
  let t ← line.dropBlanks.folded? "craftrecipe".toList
  let t ← t.afterBlanks?
  let (name, _) ← t.run? Block.isNameChar
  return name

/-- A recipe while its lines are gathered: `depth` counts the braces opened and not yet closed, and
goes below zero where more are closed than opened. -/
structure Gathering where
  name : Text
  lines : List Text := []
  depth : Int := 0
  opened : Bool := false
deriving Repr

def Gathering.push (gathering : Gathering) (line : Text) : Gathering :=
  { gathering with
    lines := gathering.lines ++ [line]
    depth := gathering.depth + line.count '{' - line.count '}'
    opened := gathering.opened || line.contains '{' }

def Gathering.isComplete (gathering : Gathering) : Bool :=
  gathering.opened && gathering.depth ≤ 0

def Gathering.text (gathering : Gathering) : Text :=
  gathering.lines.flatMap (· ++ ['\n'])

def Gathering.finish (gathering : Gathering) : RecipeSource :=
  ⟨gathering.name, (Comment.strip gathering.text).text⟩

def gather : Option Gathering → List Text → List RecipeSource × Option Text
  | gathering, [] => ([], gathering.map (·.name))
  | gathering, line :: lines =>
    match gathering <|> (header? line).map fun name => { name } with
    | none => gather none lines
    | some current =>
      let grown := current.push line
      if grown.isComplete then
        let (blocks, unclosed) := gather none lines
        (grown.finish :: blocks, unclosed)
      else gather (some grown) lines

def all (t : Text) : WithIssues (List RecipeSource) :=
  let (blocks, unclosed) := gather none t.lines
  ⟨blocks, unclosed.toList.map fun name => .unclosedBlock .craftRecipe (String.ofList name)⟩

end RecipeSource

end CraftScript
