import CraftScript.Amount.Basic

/-! The written form of an amount: the fewest digits that read back as the same amount, and of
those the nearest to it. Between `0.00001` and `10 ^ 16` it is positional and always has a fraction;
elsewhere it has one digit before the point and an exponent with its sign. An infinite amount has no
written form. -/
namespace CraftScript.Amount

def leadingPower (steps : Nat) : Int :=
  let whole := steps / Nat.pow 2 1074
  if whole ≠ 0 then (Nat.toDigits 10 whole).length - 1
  else
    match (List.range 324).find? fun k => Nat.pow 2 1074 ≤ steps * Nat.pow 10 (k + 1) with
    | some k => -(k + 1)
    | none => -324

/-- The decimal of `places` significant digits that reads back as the count of steps, if there is
one. Of the two neighbours on that grid the nearer is tried first, and of two equally near ones the
even one. -/
def withPlaces? (steps : Nat) (places : Nat) : Option Decimal :=
  let exponent := leadingPower steps - places + 1
  let (numerator, denominator) :=
    match exponent with
    | .ofNat e => (steps, Nat.pow 2 1074 * Nat.pow 10 e)
    | .negSucc e => (steps * Nat.pow 10 (e + 1), Nat.pow 2 1074)
  let low := numerator / denominator
  let near := roundQuotient numerator denominator
  let far := if near = low then low + 1 else low
  [⟨near, exponent⟩, ⟨far, exponent⟩].find? fun d => nearest d == steps

def shortest (steps : Nat) : Decimal :=
  ((List.range 17).findSome? fun places => withPlaces? steps (places + 1)).getD
    ⟨steps * Nat.pow 5 1074, -1074⟩

def positional (digits : Text) (power : Int) : Text :=
  match power with
  | .ofNat p =>
    let whole := digits.take (p + 1)
    let fraction := digits.drop (p + 1)
    whole ++ List.replicate (p + 1 - whole.length) '0' ++
      '.' :: (if fraction.isEmpty then ['0'] else fraction)
  | .negSucc p => '0' :: '.' :: List.replicate p '0' ++ digits

def scientific (digits : Text) (power : Int) : Text :=
  let fraction := digits.drop 1
  let mantissa := digits.take 1 ++ if fraction.isEmpty then [] else '.' :: fraction
  mantissa ++ 'e' :: (if power < 0 then '-' else '+') :: Nat.toDigits 10 power.natAbs

def layOut (d : Decimal) : Text :=
  let digits := Nat.toDigits 10 d.digits
  let power := d.exponent + digits.length - 1
  let digits := Text.dropEndWhile (· == '0') digits
  if -5 ≤ power ∧ power ≤ 15 then positional digits power else scientific digits power

def written? : Amount → Option Text
  | .infinite _ => none
  | .finite negative steps _ _ =>
    let magnitude := if steps = 0 then ['0', '.', '0'] else layOut (shortest steps)
    some (if negative then '-' :: magnitude else magnitude)

end CraftScript.Amount
