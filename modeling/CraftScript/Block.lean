import CraftScript.Brace
import CraftScript.Issue
import CraftScript.Text.Pattern

/-! Named blocks, written as a keyword, a name and a body in braces. One search finds the blocks
of one kind that follow each other; what lies inside a block it has found is left to a search of
the body. -/
namespace CraftScript

structure Block where
  name : Text
  body : Text
deriving DecidableEq, Repr

namespace Block

def isNameChar (c : Char) : Bool :=
  !Text.isBlank c && c ≠ '{' && c ≠ '}'

def opener (word : Text) : Pattern Text := fun previous t => do
  let t ← t.literal? word
  guard (Text.beginsWord previous)
  let t ← t.afterBlanks?
  let (name, t) ← t.run? isNameChar
  let inside ← t.dropBlanks.literal? ['{']
  return (name, inside)

/-- A text cut at its blocks, and the name of the head whose braces never close, if one ended the
search. -/
structure Scan where
  pieces : List (Piece Block)
  unclosed : Option Text
deriving Repr

def Scan.cons (piece : Piece Block) (scan : Scan) : Scan :=
  { scan with pieces := piece :: scan.pieces }

/-- Cuts the text at its blocks. The next `covered` characters belong to the block found last. -/
def scanFrom (word : Text) : (covered : Nat) → Option Char → Text → Scan
  | _, _, [] => ⟨[], none⟩
  | covered + 1, _, c :: t => scanFrom word covered (some c) t
  | 0, previous, c :: t =>
    match opener word previous (c :: t) with
    | none => (scanFrom word 0 (some c) t).cons (.kept c)
    | some (name, inside) =>
      match Brace.close? inside with
      | none => ⟨(c :: t).map .kept, some name⟩
      | some (body, rest) =>
        let covered := t.length - rest.length
        (scanFrom word covered (some c) t).cons (.found ⟨name, body⟩ (c :: t.take covered))

theorem flatMap_source_scanFrom (word : Text) (covered : Nat) (previous : Option Char) (t : Text) :
    (scanFrom word covered previous t).pieces.flatMap Piece.source = t.drop covered := by
  induction t generalizing covered previous with
  | nil => simp [scanFrom]
  | cons c t ih =>
    cases covered with
    | succ covered => simp [scanFrom, ih]
    | zero =>
      unfold scanFrom
      split
      · simp [Scan.cons, Piece.source, ih]
      · split
        · simp [List.flatMap_map, Piece.source]
        · simp [Scan.cons, Piece.source, ih]

def pieces (keyword : Keyword) (t : Text) : WithIssues (List (Piece Block)) :=
  let scan := scanFrom keyword.word.toList 0 none t
  ⟨scan.pieces, scan.unclosed.toList.map fun name => .unclosedBlock keyword (String.ofList name)⟩

def all (keyword : Keyword) (t : Text) : WithIssues (List Block) := do
  return (← pieces keyword t).filterMap Piece.value?

def located (keyword : Keyword) (t : Text) : WithIssues (List (Block × Span)) := do
  return Piece.located 0 (← pieces keyword t)

end Block

end CraftScript
