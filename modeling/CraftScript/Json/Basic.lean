import CraftScript.Amount.Written

/-! JSON values, and their text in two layouts. A value that was read from a text may be broken off:
the place then holds a fault, so that a decoder meets faults and values in the order of the text. -/
namespace CraftScript

namespace Json

inductive Fault where
  | malformed
  | truncated
  | mismatch
deriving DecidableEq, Repr

/-- A place where a text cannot be read: the fault met by a reader who wants what is there, and the
fault met by a reader who only passes it by, if any. -/
structure Obstacle where
  wanted : Fault
  passed : Option Fault
deriving DecidableEq, Repr

inductive Number where
  | integer (n : Int)
  | real (amount : Amount)
deriving DecidableEq, Repr

end Json

inductive Json where
  | null
  | bool (b : Bool)
  | number (n : Json.Number)
  | string (s : String)
  /-- The elements, and the fault behind them at which the text breaks off. -/
  | array (items : List Json) (fault : Option Json.Fault)
  /-- The members in the order of the text, and the obstacle behind them that ends them. -/
  | object (members : List (String × Json)) (obstacle : Option Json.Obstacle)
  | unreadable (obstacle : Json.Obstacle)

namespace Json

def list (items : List Json) : Json :=
  .array items none

def record (members : List (String × Json)) : Json :=
  .object members none

def natural (n : Nat) : Json :=
  .number (.integer n)

mutual

def passing? : Json → Option Fault
  | .array items fault => passingItems? items <|> fault
  | .object members obstacle => passingMembers? members <|> obstacle.bind (·.passed)
  | .unreadable obstacle => obstacle.passed
  | _ => none

def passingItems? : List Json → Option Fault
  | [] => none
  | item :: items => passing? item <|> passingItems? items

def passingMembers? : List (String × Json) → Option Fault
  | [] => none
  | (_, value) :: members => passing? value <|> passingMembers? members

end

def amount (a : Amount) : Json :=
  match a with
  | .infinite _ => .null
  | .finite .. => .number (.real a)

def hexDigit (n : Nat) : Char :=
  if n < 10 then Char.ofNat (0x30 + n) else Char.ofNat (0x57 + n)

def escaped (c : Char) : Text :=
  if c = '"' then ['\\', '"']
  else if c = '\\' then ['\\', '\\']
  else if c = '\n' then ['\\', 'n']
  else if c = '\r' then ['\\', 'r']
  else if c = '\t' then ['\\', 't']
  else if c = '\x08' then ['\\', 'b']
  else if c = '\x0c' then ['\\', 'f']
  else if c.toNat < 0x20 then
    ['\\', 'u', '0', '0', hexDigit (c.toNat / 16), hexDigit (c.toNat % 16)]
  else [c]

def quoted (s : String) : Text :=
  '"' :: s.toList.flatMap escaped ++ ['"']

def Number.text : Number → Text
  | .integer n => (if n < 0 then ['-'] else []) ++ Nat.toDigits 10 n.natAbs
  | .real a => (a.written?).getD "null".toList

def newLine : Option Nat → Text
  | none => []
  | some depth => '\n' :: List.replicate (2 * depth) ' '

def colon : Option Nat → Text
  | none => [':']
  | some _ => [':', ' ']

mutual

def render (depth : Option Nat) : Json → Text
  | .null => "null".toList
  | .bool true => "true".toList
  | .bool false => "false".toList
  | .number n => n.text
  | .string s => quoted s
  | .array [] _ => ['[', ']']
  | .array (item :: items) _ =>
    '[' :: newLine (depth.map (· + 1)) ++ render (depth.map (· + 1)) item ++
      renderItems depth items
  | .object [] _ => ['{', '}']
  | .object ((key, value) :: members) _ =>
    '{' :: newLine (depth.map (· + 1)) ++ quoted key ++ colon depth ++
      render (depth.map (· + 1)) value ++ renderMembers depth members
  | .unreadable _ => []

def renderItems (depth : Option Nat) : List Json → Text
  | [] => newLine depth ++ [']']
  | item :: items =>
    ',' :: newLine (depth.map (· + 1)) ++ render (depth.map (· + 1)) item ++
      renderItems depth items

def renderMembers (depth : Option Nat) : List (String × Json) → Text
  | [] => newLine depth ++ ['}']
  | (key, value) :: members =>
    ',' :: newLine (depth.map (· + 1)) ++ quoted key ++ colon depth ++
      render (depth.map (· + 1)) value ++ renderMembers depth members

end

def compact (j : Json) : String :=
  String.ofList (j.render none)

def pretty (j : Json) : String :=
  String.ofList (j.render (some 0))

end Json

end CraftScript
