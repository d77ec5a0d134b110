import ArrowLang.Decimal.Shortest

/-! How a number is written: positionally, or in short with an exponent where that is far from
zero. Both forms keep at least one digit on each side of the point that they write. -/
namespace ArrowLang.Decimal

def natDigits (n : Nat) : List Char := Nat.toDigits 10 n

def intDigits (n : Int) : List Char :=
  if n < 0 then '-' :: natDigits n.natAbs else natDigits n.natAbs

/-- Digits, a point and digits. -/
def Scaled.positional (d : Scaled) : List Char :=
  let ds := natDigits d.digits
  if 0 ≤ d.exponent then ds ++ List.replicate d.exponent.toNat '0' ++ ['.', '0']
  else
    let places := (-d.exponent).toNat
    let padded := List.replicate (places + 1 - ds.length) '0' ++ ds
    padded.take (padded.length - places) ++ '.' :: padded.drop (padded.length - places)

/-- The exponent of the first digit. -/
def Scaled.order (d : Scaled) : Int := d.exponent + (natDigits d.digits).length - 1

/-- One digit, the others after a point, and a signed exponent of at least two digits. -/
def Scaled.scientific (d : Scaled) : List Char :=
  let mantissa := match natDigits d.digits with
    | [] => []
    | [c] => [c]
    | c :: cs => c :: '.' :: cs
  let k := natDigits d.order.natAbs
  mantissa ++ 'e' :: (if d.order < 0 then '-' else '+') ::
    (List.replicate (2 - k.length) '0' ++ k)

/-- Powers of ten from `-4` to `15` are written positionally. -/
def Scaled.short (d : Scaled) : List Char :=
  if -4 ≤ d.order ∧ d.order < 16 then d.positional else d.scientific

namespace Binary64

def scaled (m : Nat) (e : Int) : Scaled := if m = 0 then ⟨0, 0⟩ else shortest m e

def signed (negative : Bool) (text : List Char) : List Char :=
  if negative then '-' :: text else text

/-- The short form. -/
def text : Binary64 → String
  | .finite negative m e _ => String.ofList (signed negative (scaled m e).short)
  | .infinite negative => String.ofList (signed negative ['i', 'n', 'f'])
  | .nan => "nan"

/-- The positional form of a finite value. -/
def positional? : Binary64 → Option String
  | .finite negative m e _ => some (String.ofList (signed negative (scaled m e).positional))
  | _ => none

end Binary64
end ArrowLang.Decimal
