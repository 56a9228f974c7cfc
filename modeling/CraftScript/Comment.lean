import CraftScript.Text.Basic

/-! Block comments. They nest, and removing one leaves nothing in its place, so a slash before it
and a star behind it can meet. Line comments are no business of this module: the readers of
sections and properties cut them where they matter. -/
namespace CraftScript.Comment

/-- Text without its block comments. `unclosedAt` is the byte where an outermost comment opens
that never closes; the text then ends there. -/
structure Uncommented where
  text : Text
  unclosedAt : Option Nat
deriving DecidableEq, Repr

/-- Strips the text that begins at byte `offset` inside `depth` comments, of which the outermost opens
at byte `opened`. -/
def stripFrom : (depth opened offset : Nat) → Text → Uncommented
  | 0, _, _, [] => ⟨[], none⟩
  | _ + 1, opened, _, [] => ⟨[], some opened⟩
  | 0, _, offset, '/' :: '*' :: t => stripFrom 1 offset (offset + 2) t
  | depth + 1, opened, offset, '/' :: '*' :: t => stripFrom (depth + 2) opened (offset + 2) t
  | depth + 1, opened, offset, '*' :: '/' :: t => stripFrom depth opened (offset + 2) t
  | 0, opened, offset, c :: t =>
    let rest := stripFrom 0 opened (offset + c.utf8Size) t
    { rest with text := c :: rest.text }
  | depth + 1, opened, offset, c :: t => stripFrom (depth + 1) opened (offset + c.utf8Size) t

def strip (t : Text) : Uncommented :=
  stripFrom 0 0 0 t

end CraftScript.Comment
