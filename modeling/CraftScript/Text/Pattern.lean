import CraftScript.Text.Blank
import CraftScript.Text.Word

/-! Patterns and where they occur. A pattern answers at one place of a text, and a search tries it
place by place from the left, so an occurrence never starts inside an earlier one. Every pattern of
the script language reads its parts greedily and never has to give characters back. -/
namespace CraftScript

namespace Text

def literal? : Text → (word : Text) → Option Text
  | t, [] => some t
  | [], _ :: _ => none
  | c :: t, w :: word => if c = w then literal? t word else none

/-- Whether a character is a lower-case ASCII letter up to case. The long s and the Kelvin sign
count as the letters they fold to. -/
def foldsTo (lower c : Char) : Bool :=
  c.toLower == lower || (lower == 's' && c == '\u017F') || (lower == 'k' && c == '\u212A')

def folded? : Text → (word : Text) → Option Text
  | t, [] => some t
  | [], _ :: _ => none
  | c :: t, w :: word => if foldsTo w c then folded? t word else none

def afterBlanks? : Text → Option Text
  | [] => none
  | c :: t => if isBlank c then some (dropBlanks t) else none

def run? (inRun : Char → Bool) (t : Text) : Option (Text × Text) :=
  match t.takeWhile inRun with
  | [] => none
  | run => some (run, t.dropWhile inRun)

end Text

/-- A pattern is tried at one place: it is given the character before the place, if there is one,
and the text from there on, and answers with what it read and the text behind that. -/
abbrev Pattern (α : Type) := Option Char → Text → Option (α × Text)

/-- A text cut up by a search: single characters outside every occurrence, and the occurrences
with what was read there and the text they cover. -/
inductive Piece (α : Type) where
  | kept (c : Char)
  | found (value : α) (source : Text)
deriving Repr

namespace Piece

def source {α : Type} : Piece α → Text
  | kept c => [c]
  | found _ source => source

def value? {α : Type} : Piece α → Option α
  | kept _ => none
  | found value _ => some value

def replaced {α : Type} (filler : Text) : Piece α → Text
  | kept c => [c]
  | found _ _ => filler

def withoutFirst {α : Type} : List (Piece α) → Text
  | [] => []
  | kept c :: pieces => c :: withoutFirst pieces
  | found _ _ :: pieces => pieces.flatMap source

def located {α : Type} (start : Nat) : List (Piece α) → List (α × Span)
  | [] => []
  | kept c :: pieces => located (start + c.utf8Size) pieces
  | found value source :: pieces =>
    let stop := start + source.byteSize
    (value, ⟨start, stop⟩) :: located stop pieces

end Piece

structure Occurrence (α : Type) where
  before : Text
  value : α
  after : Text
deriving Repr

namespace Pattern

/-- Cuts the text at the occurrences of a pattern. The next `covered` characters belong to the occurrence
read last. -/
def piecesFrom {α : Type} (p : Pattern α) : (covered : Nat) → Option Char → Text → List (Piece α)
  | _, _, [] => []
  | covered + 1, _, c :: t => piecesFrom p covered (some c) t
  | 0, previous, c :: t =>
    match p previous (c :: t) with
    | none => .kept c :: piecesFrom p 0 (some c) t
    | some (value, rest) =>
      let covered := t.length - rest.length
      .found value (c :: t.take covered) :: piecesFrom p covered (some c) t

def pieces {α : Type} (p : Pattern α) (t : Text) : List (Piece α) :=
  piecesFrom p 0 none t

theorem flatMap_source_piecesFrom {α : Type} (p : Pattern α) (covered : Nat)
    (previous : Option Char) (t : Text) :
    (piecesFrom p covered previous t).flatMap Piece.source = t.drop covered := by
  induction t generalizing covered previous with
  | nil => simp [piecesFrom]
  | cons c t ih =>
    cases covered with
    | succ covered => simp [piecesFrom, ih]
    | zero =>
      unfold piecesFrom
      split <;> simp [Piece.source, ih]

/-- A search loses nothing: its pieces make up the text. -/
theorem flatMap_source_pieces {α : Type} (p : Pattern α) (t : Text) :
    (p.pieces t).flatMap Piece.source = t := by
  simp [pieces, flatMap_source_piecesFrom]

def firstFrom? {α : Type} (p : Pattern α) : Option Char → Text → Option (Occurrence α)
  | _, [] => none
  | previous, c :: t =>
    match p previous (c :: t) with
    | some (value, rest) => some ⟨[], value, rest⟩
    | none =>
      (firstFrom? p (some c) t).map fun found => { found with before := c :: found.before }

def first? {α : Type} (p : Pattern α) (t : Text) : Option (Occurrence α) :=
  firstFrom? p none t

def takeAll {α : Type} (p : Pattern α) (filler : Text) (t : Text) : List α × Text :=
  let pieces := p.pieces t
  (pieces.filterMap Piece.value?, pieces.flatMap (Piece.replaced filler))

def takeFirst {α : Type} (p : Pattern α) (filler : Text) (t : Text) : Option α × Text :=
  match p.first? t with
  | none => (none, t)
  | some found => (some found.value, found.before ++ filler ++ found.after)

end Pattern

end CraftScript
