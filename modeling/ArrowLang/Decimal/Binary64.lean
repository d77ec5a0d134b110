/-! Binary floating-point numbers of 64 bits, held exactly: a finite value is `mantissa * 2 ^
exponent` with a sign. Reading a ratio rounds to the nearest value, ties to the even mantissa. -/
namespace ArrowLang.Decimal

-- powers of naturals as they are here, whatever else is imported
attribute [local instance (2000)] instPowNat

/-- The one representation that each finite magnitude has. -/
structure IsNormalForm (mantissa : Nat) (exponent : Int) : Prop where
  mantissa_lt : mantissa < 2 ^ (53 : Nat)
  le_exponent : -1074 ≤ exponent
  exponent_le : exponent ≤ 971
  normal : 2 ^ (52 : Nat) ≤ mantissa ∨ exponent = -1074

instance (mantissa : Nat) (exponent : Int) : Decidable (IsNormalForm mantissa exponent) :=
  decidable_of_iff
    (mantissa < 2 ^ (53 : Nat) ∧ -1074 ≤ exponent ∧ exponent ≤ 971 ∧
      (2 ^ (52 : Nat) ≤ mantissa ∨ exponent = -1074))
    ⟨fun ⟨a, b, c, d⟩ => ⟨a, b, c, d⟩, fun ⟨a, b, c, d⟩ => ⟨a, b, c, d⟩⟩

inductive Binary64 where
  | finite (negative : Bool) (mantissa : Nat) (exponent : Int)
      (normalForm : IsNormalForm mantissa exponent)
  | infinite (negative : Bool)
  | nan
  deriving DecidableEq

namespace Binary64

def zero (negative : Bool) : Binary64 :=
  .finite negative 0 (-1074) ⟨by decide, by decide, by decide, by decide⟩

instance : Inhabited Binary64 := ⟨zero false⟩

def isFinite : Binary64 → Bool
  | .finite .. => true
  | _ => false

def neg : Binary64 → Binary64
  | .finite negative m e h => .finite (!negative) m e h
  | .infinite negative => .infinite (!negative)
  | .nan => .nan

@[simp] theorem neg_neg (v : Binary64) : v.neg.neg = v := by cases v <;> simp [neg]
@[simp] theorem isFinite_neg (v : Binary64) : v.neg.isFinite = v.isFinite := by cases v <;> rfl

/-- Equality of the numbers: the two zeros are equal and `nan` equals nothing. -/
def sameNumber : Binary64 → Binary64 → Bool
  | .nan, _ | _, .nan => false
  | .infinite a, .infinite b => a == b
  | .finite a m e _, .finite b n f _ => m == n && e == f && (a == b || m == 0)
  | _, _ => false

end Binary64

/-- `num / den` to the nearest natural number, a half to the even neighbour. -/
def roundHalfEven (num den : Nat) : Nat :=
  let q := num / den
  let r := num % den
  if 2 * r < den ∨ 2 * r = den ∧ q % 2 = 0 then q else q + 1

/-- The ratio `num / den` divided by `2 ^ e`, again as a ratio. -/
def scaleTwo (num den : Nat) (e : Int) : Nat × Nat :=
  (num * 2 ^ (-e).toNat, den * 2 ^ e.toNat)

/-- The exponent at which `num / den` has a mantissa of 53 bits, or the least exponent. -/
def exponentOf (num den : Nat) : Int :=
  let e := max ((num.log2 : Int) - den.log2 - 53) (-1074)
  let (n, d) := scaleTwo num den e
  if n < d * 2 ^ (53 : Nat) then e else e + 1

/-- The mantissa and exponent nearest to `num / den`, before the range is checked. -/
def roundRatio (num den : Nat) : Nat × Int :=
  let e := exponentOf num den
  let (n, d) := scaleTwo num den e
  let m := roundHalfEven n d
  if m = 2 ^ (53 : Nat) then (2 ^ (52 : Nat), e + 1) else (m, e)

/-- The value nearest to `num / den`. What rounds past the largest finite value is infinite. -/
def Binary64.ofRatio (negative : Bool) (num den : Nat) : Binary64 :=
  if num = 0 then .zero negative
  else
    let (m, e) := roundRatio num den
    if h : IsNormalForm m e then .finite negative m e h else .infinite negative

/-- The value nearest to `digits * 10 ^ exponent`. Beyond the two bounds it is past the largest value
or below half of the smallest, and the powers are not worked out. -/
def Binary64.ofDecimal (negative : Bool) (digits : Nat) (exponent : Int) : Binary64 :=
  if digits = 0 then .zero negative
  else if 400 < exponent then .infinite negative
  else if exponent < -400 - (digits.log2 : Int) then .zero negative
  else .ofRatio negative (digits * 10 ^ exponent.toNat) (10 ^ (-exponent).toNat)

end ArrowLang.Decimal
