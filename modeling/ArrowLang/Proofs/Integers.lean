import ArrowLang.Proofs.Moves
import ArrowLang.Proofs.Numerals

/-!
# Integers of 32 bits

A number without a point is refused early when it has more than ten digits behind the zeros in front.
That agrees with its value: digits of a number that fits are never so many.
-/
namespace ArrowLang
namespace Decimal

/-- The number that digits mean, of which the last one counts ones. -/
def placeValue (ds : List Char) : Nat := Nat.ofDigits 10 (ds.reverse.map fun c => c.toNat - 48)

theorem digitsValue_eq_placeValue (ds : List Char) : digitsValue ds = placeValue ds := by
  induction ds with
  | nil => rfl
  | cons c ds ih =>
    rw [digitsValue_cons, ih, placeValue, placeValue, List.reverse_cons, List.map_append,
      Nat.ofDigits_append, List.length_map, List.length_reverse, List.map_singleton,
      Nat.ofDigits_singleton, Nat.add_comm]

end Decimal

namespace Reading

open Decimal (digitsValue placeValue)

/-- What is refused early is too large. -/
theorem lt_placeValue {ds : List Char} (h : Digits ds)
    (hlong : 10 < (ds.dropWhile (· = '0')).length) : 2147483647 < placeValue ds := by
  rw [← Decimal.digitsValue_eq_placeValue]
  by_contra hle
  have hshort := length_dropZeros h (Nat.le_of_not_lt hle)
  omega

theorem number_of_digits {t : Token} (h : Digits t.lexeme.toList)
    (hlen : t.lexeme.toList.length ≤ maxDigits) : number t =
      if placeValue t.lexeme.toList ≤ 2147483647 then .ok (.int (placeValue t.lexeme.toList))
      else .error (.fault (.invalidNumber GrammarFault.integerRange) t) := by
  rw [number_whole (splitPoint_whole h), if_neg (show ¬ t.lexeme.toList.length > maxDigits by omega),
    Decimal.digitsValue_eq_placeValue]
  by_cases hfits : placeValue t.lexeme.toList ≤ 2147483647
  · have hshort := length_dropZeros h (Decimal.digitsValue_eq_placeValue _ ▸ hfits)
    rw [if_neg (by omega), if_pos (by omega), if_pos hfits]
  · have hlarge : ¬ placeValue t.lexeme.toList < 2 ^ 31 := by omega
    rw [if_neg hfits, if_neg hlarge, ite_self]

/-- A number token of digits alone, not too many to be converted, gives its value if that has 32 bits
and is blamed if not, wherever there is room for the call; what has more than ten digits behind its
zeros never fits. -/
theorem operand_integer (sub : Sub) {stack : Stack} (hs : stack.holds 1 = true) {w : Window}
    (h : Digits w.previous.lexeme.toList)
    (hlen : w.previous.lexeme.length ≤ 4300) :
    (placeValue w.previous.lexeme.toList ≤ 2147483647 → (operand sub .number).on stack w =
      (.ok (.of (.literal (.int (placeValue w.previous.lexeme.toList)))), w)) ∧
    (2147483647 < placeValue w.previous.lexeme.toList → (operand sub .number).on stack w =
      (.error (.fault (.invalidNumber GrammarFault.integerRange) w.previous), w)) ∧
    (10 < (w.previous.lexeme.toList.dropWhile (· = '0')).length →
      2147483647 < placeValue w.previous.lexeme.toList) := by
  have hnum := number_of_digits h (String.length_toList ▸ hlen)
  refine ⟨fun hfits => ?_, fun hlarge => ?_, lt_placeValue h⟩
  · rw [operand, on_call, if_pos hs, on_bind_ok (on_previous w)]
    dsimp only
    rw [hnum, if_pos hfits]
    rfl
  · rw [operand, on_call, if_pos hs, on_bind_ok (on_previous w)]
    dsimp only
    rw [hnum, if_neg (by omega)]
    rfl

/-- The largest integer behind zeros is read, the next one is not. -/
theorem operand_integer_bounds :
    (operand (expression 0) .number).on (some 1)
        ⟨⟨.number, "0002147483647", 1, 13⟩, .absent, Cursor.ofText "", #[]⟩ =
      (.ok (.of (.literal (.int 2147483647))),
        ⟨⟨.number, "0002147483647", 1, 13⟩, .absent, Cursor.ofText "", #[]⟩) ∧
    (operand (expression 0) .number).on (some 1)
        ⟨⟨.number, "2147483648", 1, 10⟩, .absent, Cursor.ofText "", #[]⟩ =
      (.error (.fault (.invalidNumber GrammarFault.integerRange) ⟨.number, "2147483648", 1, 10⟩),
        ⟨⟨.number, "2147483648", 1, 10⟩, .absent, Cursor.ofText "", #[]⟩) := by
  have hlast : Digits "0002147483647".toList := ⟨by decide, List.all_eq_true.mp (by decide)⟩
  have hnext : Digits "2147483648".toList := ⟨by decide, List.all_eq_true.mp (by decide)⟩
  constructor
  · exact (operand_integer _ rfl hlast (by decide)).1 (by decide +kernel)
  · exact (operand_integer _ rfl hnext (by decide)).2.1 (by decide +kernel)

end Reading
end ArrowLang
