import CraftScript.Block
import CraftScript.Property
import CraftScript.Section

/-! The body of a recipe. Mappers are cut out of it first, then the inputs, then the outputs, and
what remains is read as properties. A section is the first of its name, wherever it stands. -/
namespace CraftScript.RecipeBody

def mapper : Pattern Block := fun previous t => do
  let (name, inside) ← Block.opener "itemMapper".toList previous t
  let (body, rest) ← inside.splitOnce? '}'
  return (⟨name, body⟩, rest)

def mapperTable (block : Block) : Dict String :=
  Dict.ofList ((Property.all block.body).map fun property =>
    (String.ofList property.key, String.ofList property.value))

def takeMappers (body : Text) : Mappers × Text :=
  let (blocks, rest) := mapper.takeAll [] body
  (Dict.ofList (blocks.map fun block => (String.ofList block.name, mapperTable block)), rest)

def sectionOpener (keyword : Text) : Pattern Unit := fun previous t => do
  let t ← t.literal? keyword
  guard (Text.beginsWord previous)
  let rest ← t.dropBlanks.literal? ['{']
  return ((), rest)

def cutSection? (keyword : Text) (body : Text) : Option (Text × Text) := do
  let found ← (sectionOpener keyword).first? body
  let (inside, rest) ← Brace.close? found.after
  return (inside, found.before ++ rest)

def takeSection (settings : Settings) (recipe keyword : String) (body : Text) :
    WithIssues (Section × Text) := do
  match cutSection? keyword.toList body with
  | some (inside, rest) => return (← Section.read settings inside, rest)
  | none =>
    WithIssues.note (.missingSection recipe keyword)
    return ({}, body)

def detail (value : Text) : Detail :=
  if value.contains ';' then .list ((value.listItems (· == ';')).map String.ofList)
  else .text (String.ofList value)

def store (recipe : Recipe) (property : Property) : Recipe :=
  if property.key.sameIgnoringCase "category".toList then
    { recipe with category := some (String.ofList property.value) }
  else
    { recipe with
      details := recipe.details.insert (String.ofList property.key) (detail property.value) }

def read (settings : Settings) (name : String) (body : Text) : WithIssues Recipe := do
  let (mappers, body) := takeMappers body
  let (inputs, body) ← takeSection settings name "inputs" body
  let (outputs, body) ← takeSection settings name "outputs" body
  let recipe : Recipe := {
    name
    inputs := inputs.entries
    outputs := outputs.entries ++ inputs.carriedOver ++ outputs.carriedOver
    mappers := mappers.nonempty? }
  return (Property.all body).foldl store recipe

end CraftScript.RecipeBody
