import ArrowLang.Decimal.Binary64

/-! The values of the parts of a number: a sign, digits, a fraction and an exponent. -/
namespace ArrowLang.Decimal

def digitsValue (ds : List Char) : Nat := Nat.ofDigitChars 10 ds 0

/-- The sign, if any, and what follows it. -/
def splitSign : List Char → Bool × List Char
  | '-' :: cs => (true, cs)
  | '+' :: cs => (false, cs)
  | cs => (false, cs)

/-- The value of `whole.fraction * 10 ^ exponent`. -/
def ofParts (negative : Bool) (whole fraction : List Char) (exponent : Int) : Binary64 :=
  .ofDecimal negative (digitsValue (whole ++ fraction)) (exponent - fraction.length)

end ArrowLang.Decimal
