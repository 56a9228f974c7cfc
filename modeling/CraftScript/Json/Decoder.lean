import CraftScript.Dict
import CraftScript.Json.Reader

/-! Decoders turn JSON values into values of the library. They look at a text in its own order, so
of several faults the first one counts: a wrong type before a broken text, and the other way
round. -/
namespace CraftScript

abbrev Decoder (α : Type) := Json → Except Json.Fault α

namespace Decoder

open Json (Fault)

def close {α : Type} (value : α) : Option Fault → Except Fault α
  | some fault => .error fault
  | none => .ok value

def pass (j : Json) : Except Fault Unit :=
  close () j.passing?

mutual

def whole (room : Nat) : Json → Except Fault Unit
  | .array items fault =>
    if room = 0 then .error .malformed else do wholeItems (room - 1) items; close () fault
  | .object members obstacle =>
    if room = 0 then .error .malformed
    else do wholeMembers (room - 1) members; close () (obstacle.map (·.wanted))
  | .unreadable obstacle => .error obstacle.wanted
  | _ => .ok ()

def wholeItems (room : Nat) : List Json → Except Fault Unit
  | [] => .ok ()
  | item :: items => do whole room item; wholeItems room items

def wholeMembers (room : Nat) : List (String × Json) → Except Fault Unit
  | [] => .ok ()
  | (_, value) :: members => do whole room value; wholeMembers room members

end

def string : Decoder String
  | .string s => .ok s
  | .unreadable obstacle => .error obstacle.wanted
  | _ => .error .mismatch

def bool : Decoder Bool
  | .bool b => .ok b
  | .unreadable obstacle => .error obstacle.wanted
  | _ => .error .mismatch

def amount : Decoder Amount
  | .number (.integer n) => .ok (.ofDecimal (n < 0) ⟨n.natAbs, 0⟩)
  | .number (.real a) => .ok a
  | .unreadable obstacle => .error obstacle.wanted
  | _ => .error .mismatch

def index : Decoder UInt32
  | .number (.integer n) =>
    if 0 ≤ n ∧ n < UInt32.size then .ok (UInt32.ofNat n.toNat) else .error .mismatch
  | .unreadable obstacle => .error obstacle.wanted
  | _ => .error .mismatch

def optional {α : Type} (decoder : Decoder α) : Decoder (Option α)
  | .null => .ok none
  | j => some <$> decoder j

def list {α : Type} (decoder : Decoder α) : Decoder (List α)
  | .array items fault => do close (← items.mapM decoder) fault
  | .unreadable obstacle => .error obstacle.wanted
  | _ => .error .mismatch

def nameSet : Decoder NameSet := fun j =>
  NameSet.ofList <$> list string j

def members {α : Type} (step : α → String → Json → Except Fault α) (start : α) : Decoder α
  | .object members obstacle => do
    let state ← members.foldlM (fun state member => step state member.1 member.2) start
    close state (obstacle.map (·.wanted))
  | .unreadable obstacle => .error obstacle.wanted
  | _ => .error .mismatch

/-- Goes through the fields of a record, which is an object or a list of values for the keys in their
order. A list may be shorter than the keys; one that is longer meets the fault `surplus`. -/
def fields {α : Type} (keys : List String) (surplus : Fault)
    (step : α → String → Json → Except Fault α) (start : α) : Decoder α
  | .array items fault => do
    let state ← (keys.zip items).foldlM (fun state field => step state field.1 field.2) start
    if keys.length < items.length then throw surplus
    close state fault
  | j => members step start j

def dict {α : Type} (decoder : Decoder α) : Decoder (Dict α) :=
  members (fun table key j => return table.insert key (← decoder j)) ∅

def once {α : Type} (field : Option α) (decoder : Decoder α) (j : Json) :
    Except Fault (Option α) :=
  match field with
  | some _ => .error .mismatch
  | none => some <$> decoder j

def required {α : Type} : Option α → Except Fault α
  | some value => .ok value
  | none => .error .mismatch

def run {α : Type} (decoder : Decoder α) (t : Text) : Except Fault α := do
  let (j, rest) := Json.read t
  let value ← decoder j
  match rest with
  | some rest => if (Json.dropSpaces rest).isEmpty then return value else throw .malformed
  | none => throw .malformed

def depthLimit : Nat := 127

end Decoder

end CraftScript
