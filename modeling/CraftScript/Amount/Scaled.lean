import CraftScript.Amount.Basic

/-! Amounts by scaling. The leading digits of a number that fit 64 bits are rounded to an amount,
which is multiplied or divided by a power of ten and rounded again, so the outcome may miss the
nearest amount in its last bits. Digits beyond those count only for their place. -/
namespace CraftScript.Amount

def takeDigits : (kept : Nat) → Text → Nat × Nat
  | kept, [] => (kept, 0)
  | kept, c :: t =>
    let next := Text.digitsValue kept [c]
    if next < UInt64.size then takeDigits next t else (kept, t.length + 1)

def powerOfTen (exponent : Nat) : Nat :=
  roundRatio (Nat.pow 10 exponent) 1

def product (a b : Nat) : Nat :=
  roundRatio (a * b) (Nat.pow 2 2148)

def quotient (a b : Nat) : Nat :=
  roundRatio a b

/-- A count of steps divided by a power of ten. The largest power that is an amount has the exponent
308; beyond it there are two divisions, and beyond twice that a number of 64 bits has vanished. -/
def shrink (steps exponent : Nat) : Nat :=
  if exponent ≤ 308 then quotient steps (powerOfTen exponent)
  else if exponent ≤ 616 then
    quotient (quotient steps (powerOfTen 308)) (powerOfTen (exponent - 308))
  else 0

def grow (steps exponent : Nat) : Nat :=
  if steps = 0 then 0
  else if exponent ≤ 308 then product steps (powerOfTen exponent)
  else limit

def scaled (d : Decimal) : Nat :=
  let steps := roundRatio d.digits 1
  match d.exponent with
  | .ofNat e => grow steps e
  | .negSucc e => shrink steps (e + 1)

theorem fits_shrink (steps exponent : Nat) : Fits (shrink steps exponent) := by
  unfold shrink
  split
  · exact fits_roundRatio _ _
  · split
    · exact fits_roundRatio _ _
    · decide

theorem fits_grow (steps exponent : Nat) : Fits (grow steps exponent) := by
  unfold grow
  split
  · decide
  · split
    · exact fits_roundRatio _ _
    · exact fits_limit

theorem fits_scaled (d : Decimal) : Fits (scaled d) := by
  unfold scaled
  split
  · exact fits_grow _ _
  · exact fits_shrink _ _

/-- The decimal that is left of a number once its digits are cut to 64 bits. Digits that are left
over before the point keep their places; behind it they are dropped. -/
def cutDecimal (whole fraction : Text) (exponent : Int) : Decimal :=
  let (kept, places) := takeDigits 0 whole
  let (digits, dropped) := takeDigits kept fraction
  ⟨digits, exponent + places + dropped - fraction.length⟩

def ofNumeral (negative : Bool) (whole fraction : Text) (exponent : Int) : Amount :=
  let d := cutDecimal whole fraction exponent
  if bounded : scaled d < limit then .finite negative (scaled d) (fits_scaled d) bounded
  else .infinite negative

end CraftScript.Amount
