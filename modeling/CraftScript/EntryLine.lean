import CraftScript.Recipe
import CraftScript.Settings
import CraftScript.Text.Digit
import CraftScript.Text.Pattern
import CraftScript.Text.Upper

/-! The lines of a section: items, fluids and energy. The attributes of an item line may stand in
any order; each is taken out of the line in its turn and leaves a space, and the ids are what
remains. -/
namespace CraftScript

inductive Flow where
  | consumed
  | produced
deriving DecidableEq, Repr

inductive EntryLine where
  | item (item : Item)
  | fluid (flow : Flow) (fluid : Fluid)
  | energy (energy : Energy)
deriving DecidableEq, Repr

namespace EntryLine

open Text

def listOf (t : Text) : List String :=
  (t.listItems fun c => c == ';' || c == ',').map String.ofList

def restOfLine? (t : Text) : Option Text :=
  let rest := t.dropBlanks
  if rest.contains '\n' then none else some rest

/-- The digits before and behind the point of an amount, and the text after it. A point without
digits behind it is no part of the amount. -/
def amount? (t : Text) : Option ((Text × Text) × Text) :=
  let whole := t.takeWhile isDigit
  let rest := t.dropWhile isDigit
  match (literal? rest ['.']).bind (run? isDigit) with
  | some (fraction, rest) => some ((whole, fraction), rest)
  | none => if whole.isEmpty then none else some ((whole, []), rest)

def bracketed (word : Text) : Pattern Text := fun previous t => do
  let t ← t.folded? word
  guard (beginsWord previous)
  let t ← t.literal? ['[']
  t.splitOnce? ']'

def tagList : Pattern Text := bracketed "tags".toList

def flagList : Pattern Text := bracketed "flags".toList

def labelled (label : Text) (inRun : Char → Bool) : Pattern Text := fun previous t => do
  let t ← t.folded? label
  guard (beginsWord previous)
  t.dropBlanks.run? inRun

def mapperName : Pattern Text :=
  labelled "mapper:".toList fun c => !isBlank c && c ≠ '[' && c ≠ ']'

def modeWord : Pattern Text := labelled "mode:".toList isWord

def bracketGroup : Pattern Text := fun _ t => do
  let t ← t.literal? ['[']
  t.splitOnce? ']'

/-- The bare word `itemcount`, together with the blank on either side of it. At the very start of a
line there is no blank to take. -/
def itemCount : Pattern Unit := fun previous t => do
  let bare (t : Text) : Option Text := do
    let t ← t.folded? "itemcount".toList
    match t with
    | [] => some []
    | c :: t => if isBlank c then some t else none
  let atStart : Option Text := if previous.isNone then bare t else none
  let rest ← atStart <|> match t with
    | [] => none
    | c :: t => if isBlank c then bare t else none
  return ((), rest)

/-- The item of an index and the rest of its line, which holds attributes and ids. Ids in brackets win
over ids outside them. -/
def itemOf (settings : Settings) (index : Nat) (t : Text) : Item :=
  let (tagLists, t) := tagList.takeAll [' '] t
  let (flagLists, t) := flagList.takeAll [' '] t
  let (mapper, t) := mapperName.takeFirst [' '] t
  let (mode, t) := modeWord.takeFirst [' '] t
  let (groups, t) := bracketGroup.takeAll [' '] t
  let (counts, t) := itemCount.takeAll [' '] t
  let flags := NameSet.ofList (flagLists.flatMap listOf)
  let ids := if groups.isEmpty then listOf t else groups.flatMap listOf
  { index := UInt32.ofNat index
    ids := ids.map settings.qualify
    mapper := mapper.map String.ofList
    mode := mode.map fun word => String.ofList word.capitalize
    tags := NameSet.ofList (tagLists.flatMap listOf)
    flags := if counts.isEmpty then flags else flags.insert "itemcount" }

def item? (settings : Settings) (line : Text) : Option Item := do
  let t ← line.folded? "item".toList
  let t ← t.afterBlanks?
  let (digits, t) ← t.run? isDigit
  guard (t.head?.all fun c => !isWord c)
  let t ← restOfLine? t
  let index ← digits.natural?
  guard (index < UInt32.size)
  return itemOf settings index t

def fluidTypes (t : Text) : List String :=
  let t := t.trim
  match bracketGroup none t with
  | some (group, _) => listOf group
  | none => (t.words.head?.map String.ofList).toList

def fluid? (line : Text) : Option (Flow × Fluid) := do
  let (flow, t) ← match line with
    | '+' :: t => some (Flow.produced, t)
    | '-' :: t => some (Flow.consumed, t)
    | _ => none
  let t ← folded? t "fluid".toList
  let t ← t.afterBlanks?
  let ((whole, fraction), t) ← amount? t
  let t ← restOfLine? t
  let amount ← Amount.ofDigits? whole fraction
  return (flow, ⟨fluidTypes t, amount⟩)

def energy? (line : Text) : Option Energy := do
  let t ← line.folded? "energy".toList
  let t ← t.afterBlanks?
  let ((whole, fraction), t) ← amount? t
  let t ← t.afterBlanks?
  let (type, t) ← t.run? fun c => !isBlank c
  let t ← restOfLine? t
  let amount ← Amount.ofDigits? whole fraction
  let modifiers := t.trim
  return {
    amount
    type := String.ofList type
    modifiers := if modifiers.isEmpty then none else some (String.ofList modifiers) }

def read? (settings : Settings) (line : Text) : Option EntryLine :=
  match fluid? line with
  | some (flow, drawn) => some (.fluid flow drawn)
  | none =>
    match energy? line with
    | some supplied => some (.energy supplied)
    | none => (item? settings line).map .item

end EntryLine

end CraftScript
