import CraftScript.Text.Basic

/-! Matching braces. A block reaches from an opening brace to the brace that closes it; every
brace counts, whatever stands around it. -/
namespace CraftScript.Brace

/-- The text up to the brace that closes `depth` inner blocks and the one around them, and the text
behind that brace. -/
def closeFrom? : (depth : Nat) → Text → Option (Text × Text)
  | _, [] => none
  | 0, '}' :: t => some ([], t)
  | depth + 1, '}' :: t => (closeFrom? depth t).map fun (inside, rest) => ('}' :: inside, rest)
  | depth, '{' :: t => (closeFrom? (depth + 1) t).map fun (inside, rest) => ('{' :: inside, rest)
  | depth, c :: t => (closeFrom? depth t).map fun (inside, rest) => (c :: inside, rest)

theorem eq_append_of_closeFrom? {depth : Nat} {t inside rest : Text}
    (closed : closeFrom? depth t = some (inside, rest)) : t = inside ++ '}' :: rest := by
  fun_induction closeFrom? depth t generalizing inside with
  | case1 => contradiction
  | case2 => simp_all
  | case3 _ _ ih | case4 _ _ ih | case5 _ _ _ _ _ _ ih =>
    obtain ⟨⟨_, _⟩, inner, same⟩ := Option.map_eq_some_iff.mp closed
    simp only [Prod.mk.injEq] at same
    obtain ⟨rfl, rfl⟩ := same
    rw [ih inner, List.cons_append]

def close? (t : Text) : Option (Text × Text) :=
  closeFrom? 0 t

def firstBlock? (t : Text) : Option (Text × Text) :=
  match t.dropWhile (· ≠ '{') with
  | [] => none
  | _ :: inside => close? inside

/-- The inside of the first block at or after byte `start`, and the byte behind its closing
brace. -/
def blockAt? (t : Text) (start : Nat) : Option (Text × Nat) := do
  let tail ← t.dropBytes? start
  let (inside, rest) ← firstBlock? tail
  return (inside, t.byteSize - rest.byteSize)

def braced (inside : Text) : Text :=
  '{' :: inside ++ ['}']

def inner : Text → Text
  | '{' :: t => if t.getLast? = some '}' then t.dropLast else '{' :: t
  | t => t

end CraftScript.Brace
