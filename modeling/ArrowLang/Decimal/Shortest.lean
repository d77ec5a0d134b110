import ArrowLang.Decimal.Binary64

/-! The shortest decimal of a binary number: of the decimals that read back to it, the ones with
fewest digits, of these the nearest, of two equally near the one with an even last digit. -/
namespace ArrowLang.Decimal

-- powers of naturals as they are here, whatever else is imported
attribute [local instance (2000)] instPowNat

/-- The number `digits * 10 ^ exponent`. -/
structure Scaled where
  digits : Nat
  exponent : Int
  deriving DecidableEq, Repr

/-- The same number without zeros at the end of its digits. -/
def Scaled.trimmed : Nat → Scaled → Scaled
  | 0, d => d
  | fuel + 1, d =>
    if d.digits ≠ 0 ∧ d.digits % 10 = 0 then trimmed fuel ⟨d.digits / 10, d.exponent + 1⟩ else d

def Scaled.reads (d : Scaled) (m : Nat) (e : Int) : Bool :=
  match Binary64.ofDecimal false d.digits d.exponent with
  | .finite _ m' e' _ => m' == m && e' == e
  | _ => false

/-- The exponent `k` with `10 ^ k ≤ num / den < 10 ^ (k + 1)`, found from a first guess that is
at most one too large or too small. -/
def decimalExponent (num den : Nat) : Int :=
  let guess : Int := ((num.log2 : Int) - den.log2) * 30103 / 100000
  let below (k : Int) : Bool := decide (num * 10 ^ (-k).toNat < den * 10 ^ k.toNat)
  if below guess then guess - 1 else if below (guess + 1) then guess else guess + 1

/-- The nearest multiple of `10 ^ grid` that reads back to `m * 2 ^ e = num / den`, of the two
neighbours of that value. -/
def onGrid? (m : Nat) (e : Int) (num den : Nat) (grid : Int) : Option Scaled :=
  let n := num * 10 ^ (-grid).toNat
  let d := den * 10 ^ grid.toNat
  let low : Scaled := ⟨n / d, grid⟩
  let high : Scaled := ⟨n / d + 1, grid⟩
  let r := n % d
  match low.reads m e, high.reads m e with
  | true, true =>
    some (if 2 * r < d ∨ 2 * r = d ∧ low.digits % 2 = 0 then low else high)
  | true, false => some low
  | false, true => some high
  | false, false => none

/-- All digits of `m * 2 ^ e`. -/
def exactDigits (m : Nat) (e : Int) : Scaled :=
  ⟨m * 2 ^ e.toNat * 5 ^ (-e).toNat, min e 0⟩

/-- The shortest decimal of `m * 2 ^ e`, for `m` not zero. -/
def shortest (m : Nat) (e : Int) : Scaled :=
  let num := m * 2 ^ e.toNat
  let den := 2 ^ (-e).toNat
  let top := decimalExponent num den
  let found := (List.range 17).findSome? fun (n : Nat) => onGrid? m e num den (top - n)
  (found.getD (exactDigits m e)).trimmed 400

end ArrowLang.Decimal
