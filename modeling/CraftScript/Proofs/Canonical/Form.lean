import CraftScript.Recipe
import CraftScript.Proofs.SectionOwners

/-! Scripts in canonical form: what is described, how it is written, and the recipe that is meant.
One line for each thing, braces on lines of their own, every list in brackets. -/
namespace CraftScript.Canonical

structure Run (kind : Char → Bool) where
  text : Text
  nonempty : text ≠ []
  every : ∀ c ∈ text, kind c

def Run.string {kind : Char → Bool} (run : Run kind) : String :=
  String.ofList run.text

def isPlain (c : Char) : Bool :=
  c.isAlphanum || c == '_'

abbrev Word := Run isPlain

abbrev ItemId := Run fun c => isPlain c || c == '.'

abbrev Digits := Run Text.isAsciiDigit

structure Numeral where
  whole : Digits
  fraction : Option Digits

namespace Numeral

def fractionText (numeral : Numeral) : Text :=
  (numeral.fraction.map (·.text)).getD []

def text (numeral : Numeral) : Text :=
  numeral.whole.text ++ (numeral.fraction.map fun digits => '.' :: digits.text).getD []

def amount (numeral : Numeral) : Amount :=
  .ofDecimal false
    ⟨Text.digitsValue 0 (numeral.whole.text ++ numeral.fractionText),
      -numeral.fractionText.length⟩

end Numeral

def listed {kind : Char → Bool} (runs : List (Run kind)) : Text :=
  [';'].intercalate (runs.map (·.text))

def bracket (inside : Text) : Text :=
  '[' :: (inside ++ [']'])

inductive Attribute where
  | group (ids : List ItemId)
  | mapper (name : Word)
  | mode (word : Word)
  | tags (words : List Word)
  | flags (words : List Word)

def Attribute.text : Attribute → Text
  | group ids => bracket (listed ids)
  | mapper name => "mapper:".toList ++ name.text
  | mode word => "mode:".toList ++ word.text
  | tags words => "tags".toList ++ bracket (listed words)
  | flags words => "flags".toList ++ bracket (listed words)

structure ItemForm where
  index : UInt32
  ids : List ItemId
  mapper : Option Word
  mode : Option Word
  tags : Option (List Word)
  flags : Option (List Word)

namespace ItemForm

def attributes (form : ItemForm) : List Attribute :=
  .group form.ids :: (form.mapper.toList.map .mapper ++ form.mode.toList.map .mode ++
    form.tags.toList.map .tags ++ form.flags.toList.map .flags)

def text (form : ItemForm) : Text :=
  "item ".toList ++ (Nat.toDigits 10 form.index.toNat ++
    form.attributes.flatMap fun part => ' ' :: part.text)

def capitalized (word : Word) : String :=
  String.ofList (word.text.take 1 |>.map Char.toUpper) ++ String.ofList (word.text.drop 1)

def item (settings : Settings) (form : ItemForm) : Item where
  index := form.index
  ids := form.ids.map fun id => settings.qualify id.string
  mapper := form.mapper.map (·.string)
  mode := form.mode.map capitalized
  tags := NameSet.ofList ((form.tags.getD []).map (·.string))
  flags := NameSet.ofList ((form.flags.getD []).map (·.string))

end ItemForm

inductive EntryForm where
  | item (form : ItemForm)
  | fluid (flow : Flow) (amount : Numeral) (types : List Word)
  | energy (amount : Numeral) (type : Word)

namespace EntryForm

def text : EntryForm → Text
  | item form => form.text
  | fluid flow amount types =>
    (if flow = .produced then '+' else '-') :: ("fluid ".toList ++ (amount.text ++
      ' ' :: bracket (listed types)))
  | energy amount type => "energy ".toList ++ (amount.text ++ ' ' :: type.text)

def meaning (settings : Settings) : EntryForm → EntryLine
  | item form => .item (form.item settings)
  | fluid flow amount types => .fluid flow ⟨types.map (·.string), amount.amount⟩
  | energy amount type => .energy { amount := amount.amount, type := type.string }

end EntryForm

structure Pair where
  key : Word
  value : Word

def Pair.line (pair : Pair) : Text :=
  pair.key.text ++ " = ".toList ++ pair.value.text ++ [',']

structure MapperForm where
  name : Word
  pairs : List Pair

structure RecipeForm where
  name : Word
  properties : List Pair
  category : Option Word
  mappers : List MapperForm
  inputs : List EntryForm
  outputs : List EntryForm
  uncategorized : ∀ pair ∈ properties, pair.key.text.sameIgnoringCase "category".toList = false

def enclosed (head : Text) (lines : List Text) : List Text :=
  head :: ['{'] :: (lines ++ [['}']])

def headLine (keyword : Text) (name : Word) : Text :=
  keyword ++ ' ' :: name.text

def MapperForm.lines (form : MapperForm) : List Text :=
  enclosed (headLine "itemMapper".toList form.name) (form.pairs.map Pair.line)

def entryLines (entries : List EntryForm) : List Text :=
  entries.map fun entry => entry.text ++ [',']

namespace RecipeForm

def categoryKey : Word :=
  ⟨"category".toList, by decide, by decide⟩

def pairs (form : RecipeForm) : List Pair :=
  form.properties ++ form.category.toList.map fun value => ⟨categoryKey, value⟩

def bodyLines (form : RecipeForm) : List Text :=
  form.pairs.map Pair.line ++ (form.mappers.flatMap MapperForm.lines ++
    (enclosed "inputs".toList (entryLines form.inputs) ++
      enclosed "outputs".toList (entryLines form.outputs)))

def lines (form : RecipeForm) : List Text :=
  enclosed (headLine "craftRecipe".toList form.name) form.bodyLines

def table (pairs : List Pair) : Dict String :=
  Dict.ofList (pairs.map fun pair => (pair.key.string, pair.value.string))

def recipe (settings : Settings) (form : RecipeForm) : Recipe :=
  let inputs := form.inputs.map (EntryForm.meaning settings)
  let outputs := form.outputs.map (EntryForm.meaning settings)
  { name := form.name.string
    inputs := Section.entriesOf settings false inputs
    outputs := Section.entriesOf settings false outputs ++ Section.carriedOf settings inputs ++
      Section.carriedOf settings outputs
    mappers := if form.mappers.isEmpty then none
      else some (Dict.ofList (form.mappers.map fun mapper => (mapper.name.string, table mapper.pairs)))
    category := form.category.map (·.string)
    details := Dict.ofList (form.properties.map fun pair => (pair.key.string, .text pair.value.string)) }

end RecipeForm

def unlines (lines : List Text) : Text :=
  lines.flatMap (· ++ ['\n'])

def script (forms : List RecipeForm) : Text :=
  unlines (forms.flatMap RecipeForm.lines)

end CraftScript.Canonical
