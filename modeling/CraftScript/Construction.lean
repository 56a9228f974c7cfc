import CraftScript.RecipeBody

/-! Constructions: entities in a module that carry a recipe. The module's first skin says how they
are shown and is not searched for entities; a sprite component gives the pictures by facing and the
base health. -/
namespace CraftScript

structure SkinSheet where
  name : String
  labels : Dict Skin
deriving DecidableEq, Repr

def Block.bodies (blocks : List Block) : Dict Text :=
  Dict.ofList (blocks.map fun block => (String.ofList block.name, block.body))

namespace SkinSheet

def label (body : Text) : Skin :=
  let properties := Property.all body
  { displayName := (Property.find? "DisplayName".toList properties).map String.ofList
    icon := (Property.find? "Icon".toList properties).map String.ofList }

def read (block : Block) : WithIssues SkinSheet := do
  let entities ← Block.all .entity block.body
  return {
    name := String.ofList block.name
    labels := Dict.ofList (entities.map fun entity => (String.ofList entity.name, label entity.body)) }

/-- The label that a style names. A style that names the skin itself means the label of the
entity's own name, unless a label has the skin's name. -/
def resolve? (table : SkinSheet) (style entity : String) : Option Skin :=
  match table.labels.get? style with
  | some skin => some skin
  | none => if style = table.name then table.labels.get? entity else none

end SkinSheet

namespace Construction

/-- A row of sprites, `row = <sprites>`. The value ends at a comma, a newline or a closing brace, but
blanks before it may run over lines. -/
def spriteRow : Pattern Text := fun previous t => do
  let t ← t.literal? "row".toList
  guard (Text.beginsWord previous)
  let t ← t.dropBlanks.literal? ['=']
  let inRow (c : Char) : Bool := c ≠ ',' && c ≠ '\n' && c ≠ '}'
  let t := t.dropBlanks
  return (t.takeWhile inRow, t.dropWhile inRow)

def healthAmount : Pattern (Text × Text) := fun previous t => do
  let t ← t.folded? "skillbasehealth".toList
  guard (Text.beginsWord previous)
  let t ← t.dropBlanks.literal? ['=']
  EntryLine.amount? t.dropBlanks

def spritesOf (face : Block) : List String :=
  ((spriteRow.pieces face.body).filterMap Piece.value?).flatMap fun row =>
    row.words.map String.ofList

def faces (body : Text) : WithIssues (Dict (List String)) := do
  let faces ← Block.all .face body
  return Dict.ofList (faces.map fun face => (String.ofList face.name, spritesOf face))

def baseHealth? (body : Text) : Option Amount := do
  let found ← healthAmount.first? body
  Amount.ofDigits? found.value.1 found.value.2

def skin? (skins : Option SkinSheet) (name : String) (components : Dict Text) : Option Skin := do
  let body ← components.get? "UiConfig"
  let style ← Property.find? "entityStyle".toList (Property.all body)
  let table ← skins
  table.resolve? (String.ofList style) name

def readEntity (settings : Settings) (skins : Option SkinSheet) (entity : Block) :
    WithIssues (Option Recipe) := do
  let components := Block.bodies (← Block.all .component entity.body)
  let name := String.ofList entity.name
  match components.get? "CraftRecipe" with
  | none => return none
  | some body =>
    let recipe ← RecipeBody.read settings name body
    let recipe := { recipe with
      construction := true
      outputs := recipe.outputs ++ (skin? skins name components).toList.map .skin }
    match components.get? "SpriteConfig" with
    | none => return some recipe
    | some body =>
      let sprites ← faces body
      return some { recipe with
        sprites := sprites.nonempty?
        baseHealth := baseHealth? body }

def readModule (settings : Settings) (module : Block) : WithIssues (List Recipe) := do
  let pieces ← Block.pieces .xuiSkin module.body
  let skins ← (pieces.filterMap Piece.value?).head?.mapM SkinSheet.read
  let entities ← Block.all .entity (Piece.withoutFirst pieces)
  let recipes ← entities.mapM (readEntity settings skins)
  return recipes.filterMap id

def all (settings : Settings) (t : Text) : WithIssues (List Recipe) := do
  let modules ← Block.all .module t
  return (← modules.mapM (readModule settings)).flatten

end Construction

end CraftScript
