import CraftScript.Text.Digit

/-! Amounts: binary floating-point numbers of 53 significant bits, held exactly. A finite magnitude
is a count of steps of `2 ^ (-1074)`, so zero, the smallest amounts and the largest need no
separate cases. Reading a decimal rounds it to the nearest amount, a tie to the one with an even
last bit. -/
namespace CraftScript

structure Decimal where
  digits : Nat
  exponent : Int
deriving DecidableEq, Repr

namespace Amount

def Fits (steps : Nat) : Prop :=
  steps % Nat.pow 2 (steps.log2 - 52) = 0

instance (steps : Nat) : Decidable (Fits steps) :=
  inferInstanceAs (Decidable (_ = _))

def limit : Nat :=
  Nat.pow 2 2098

end Amount

inductive Amount where
  | finite (negative : Bool) (steps : Nat) (fits : Amount.Fits steps)
      (bounded : steps < Amount.limit)
  | infinite (negative : Bool)
deriving DecidableEq, Repr

namespace Amount

theorem fits_mul_pow {m k : Nat} (small : m ≤ Nat.pow 2 53) : Fits (m * Nat.pow 2 k) := by
  unfold Fits
  rw [Nat.pow_eq] at small
  rw [Nat.pow_eq, Nat.pow_eq]
  apply Nat.mod_eq_zero_of_dvd
  rcases Nat.lt_or_eq_of_le small with less | same
  · by_cases none : m * 2 ^ k = 0
    · simp [none]
    · have below : m * 2 ^ k < 2 ^ (53 + k) := by
        rw [Nat.pow_add]
        exact Nat.mul_lt_mul_of_pos_right less (Nat.two_pow_pos k)
      have short : (m * 2 ^ k).log2 - 52 ≤ k := by
        have := (Nat.log2_lt none).mpr below
        omega
      exact Nat.dvd_trans (Nat.pow_dvd_pow 2 short) (Nat.dvd_mul_left _ _)
  · subst same
    rw [← Nat.pow_add, Nat.log2_two_pow]
    exact Nat.pow_dvd_pow 2 (by omega)

def roundQuotient (numerator denominator : Nat) : Nat :=
  let low := numerator / denominator
  let rest := numerator % denominator
  if denominator < 2 * rest || (denominator = 2 * rest && low % 2 = 1) then low + 1 else low

/-- The count of steps nearest to a ratio: whole steps while these fit, and beyond that the
multiples of the power of two that leaves 53 bits. -/
def roundRatio (numerator denominator : Nat) : Nat :=
  let steps := numerator * Nat.pow 2 1074
  let grid := Nat.pow 2 ((steps / denominator).log2 - 52)
  roundQuotient steps (denominator * grid) * grid

theorem roundQuotient_le (numerator denominator : Nat) :
    roundQuotient numerator denominator ≤ numerator / denominator + 1 := by
  unfold roundQuotient
  dsimp only
  split <;> omega

theorem fits_roundRatio (numerator denominator : Nat) : Fits (roundRatio numerator denominator) := by
  unfold roundRatio
  dsimp only
  generalize numerator * Nat.pow 2 1074 = steps
  apply fits_mul_pow
  refine Nat.le_trans (roundQuotient_le _ _) ?_
  rw [← Nat.div_div_eq_div_mul]
  generalize steps / denominator = whole
  have below : whole < 2 ^ (53 + (whole.log2 - 52)) :=
    Nat.lt_of_lt_of_le Nat.lt_log2_self (Nat.pow_le_pow_right (by decide) (by omega))
  rw [Nat.pow_add] at below
  exact Nat.div_lt_of_lt_mul (Nat.mul_comm _ _ ▸ below)

def nearest (d : Decimal) : Nat :=
  match d.exponent with
  | .ofNat e =>
    if d.digits = 0 then 0
    else if 400 < e then limit else roundRatio (d.digits * Nat.pow 10 e) 1
  | .negSucc e =>
    if d.digits.log2 + 1076 ≤ 3 * (e + 1) then 0 else roundRatio d.digits (Nat.pow 10 (e + 1))

theorem fits_two_pow (k : Nat) : Fits (Nat.pow 2 k) := by
  unfold Fits
  rw [Nat.pow_eq, Nat.pow_eq, Nat.log2_two_pow]
  exact Nat.mod_eq_zero_of_dvd (Nat.pow_dvd_pow 2 (by omega))

theorem fits_limit : Fits limit := by
  unfold limit
  apply fits_two_pow

theorem fits_nearest (d : Decimal) : Fits (nearest d) := by
  unfold nearest
  split
  · split
    · decide
    · split
      · exact fits_limit
      · exact fits_roundRatio _ _
  · split
    · decide
    · exact fits_roundRatio _ _

def ofDecimal (negative : Bool) (d : Decimal) : Amount :=
  if bounded : nearest d < limit then .finite negative (nearest d) (fits_nearest d) bounded
  else .infinite negative

def ofDigits? (whole fraction : Text) : Option Amount := do
  guard (whole.all Text.isAsciiDigit && fraction.all Text.isAsciiDigit)
  return ofDecimal false ⟨Text.digitsValue 0 (whole ++ fraction), -fraction.length⟩

def zero : Amount :=
  ofDecimal false ⟨0, 0⟩

instance : Inhabited Amount := ⟨zero⟩

end Amount

end CraftScript
