import CraftScript.Text.Blank

/-! Properties, written `key = value`. Several may share a line with commas between them, and a
piece without an equals sign continues the value before it on its line, comma included. Pieces
whose key is not one word say nothing. -/
namespace CraftScript

structure Property where
  key : Text
  value : Text
deriving DecidableEq, Repr

namespace Property

def isEdge (c : Char) : Bool :=
  Text.isBlank c || c == '{' || c == '}'

def extend (piece : Text) (property : Property) : Property :=
  { property with value := property.value ++ ',' :: piece }

def readPieces : Option Property → List Text → List Property
  | current, [] => current.toList
  | current, piece :: pieces =>
    match piece, piece.splitOnce? '=' with
    | [], _ => readPieces current pieces
    | _, none => readPieces (current.map (extend piece)) pieces
    | _, some (left, right) =>
      let key := Text.trim left
      if key = [] || key.any Text.isBlank then current.toList ++ readPieces none pieces
      else current.toList ++ readPieces (some ⟨key, Text.trim right⟩) pieces

def readLine (line : Text) : List Property :=
  let pieces := (line.beforeLineComment.splitBy (· == ',')).map (Text.trimWhile isEdge)
  readPieces none pieces

def all (t : Text) : List Property :=
  t.lines.flatMap readLine

def find? (key : Text) (properties : List Property) : Option Text :=
  (properties.find? fun property => property.key.sameIgnoringCase key).map (·.value)

end Property

end CraftScript
