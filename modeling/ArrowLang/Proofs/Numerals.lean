import ArrowLang.Proofs.Derivation
import Mathlib

/-!
# Numerals

The lexemes of number tokens: digits, and more digits behind a point if there is one.
-/
namespace ArrowLang
namespace Decimal

theorem digitsValue_append (ds es : List Char) :
    digitsValue (ds ++ es) = 10 ^ es.length * digitsValue ds + digitsValue es := by
  rw [digitsValue, Nat.ofDigitChars_append, Nat.ofDigitChars_eq_ofDigitChars_zero]
  rfl

theorem digitsValue_cons (c : Char) (cs : List Char) :
    digitsValue (c :: cs) = 10 ^ cs.length * (c.toNat - 48) + digitsValue cs := by
  rw [digitsValue, Nat.ofDigitChars_cons, Nat.ofDigitChars_eq_ofDigitChars_zero, Nat.mul_zero,
    Nat.zero_add]
  rfl

/-- Zeros in front count for nothing. -/
theorem digitsValue_dropZeros (ds : List Char) :
    digitsValue (ds.dropWhile (· = '0')) = digitsValue ds := by
  induction ds with
  | nil => rfl
  | cons c ds ih =>
    by_cases hc : c = '0'
    · subst hc
      simpa [digitsValue_cons] using ih
    · simp [hc]

theorem one_le_digit {c : Char} (hd : c.isDigit) (h : c ≠ '0') : 1 ≤ c.toNat - 48 := by
  have h₁ : 48 ≤ c.toNat := by
    simp only [Char.isDigit, Bool.and_eq_true, decide_eq_true_eq] at hd
    exact hd.1
  have h₂ : c.toNat ≠ 48 := fun h' => h (Char.toNat_inj.mp h')
  omega

/-- Digits with no zero in front are as large as their number says. -/
theorem le_digitsValue {c : Char} (hd : c.isDigit) (h : c ≠ '0') (cs : List Char) :
    10 ^ cs.length ≤ digitsValue (c :: cs) := by
  rw [digitsValue_cons]
  exact Nat.le_trans (Nat.le_mul_of_pos_right _ (one_le_digit hd h)) (Nat.le_add_right _ _)

end Decimal

/-- One digit or more. -/
def Digits (ds : List Char) : Prop := ds ≠ [] ∧ ∀ c ∈ ds, c.isDigit

inductive Numeral : List Char → Prop where
  | whole {ds : List Char} : Digits ds → Numeral ds
  | pointed {ds fs : List Char} : Digits ds → Digits fs → Numeral (ds ++ '.' :: fs)

theorem Digits.ne_point {ds : List Char} (h : Digits ds) : ∀ c ∈ ds, decide (c ≠ '.') = true := by
  intro c hc
  have hd := h.2 c hc
  rw [decide_eq_true_eq]
  rintro rfl
  exact absurd hd (by decide)

namespace Reading

theorem splitPoint_whole {ds : List Char} (h : Digits ds) : splitPoint ds = (ds, none) := by
  rw [splitPoint, List.span_eq_takeWhile_dropWhile, List.takeWhile_eq_self_iff.mpr h.ne_point,
    List.dropWhile_eq_nil_iff.mpr h.ne_point]

theorem splitPoint_pointed {ds : List Char} (h : Digits ds) (fs : List Char) :
    splitPoint (ds ++ '.' :: fs) = (ds, some fs) := by
  rw [splitPoint, List.span_eq_takeWhile_dropWhile, List.takeWhile_append_of_pos h.ne_point,
    List.dropWhile_append_of_pos h.ne_point]
  simp

/-- Digits of a small value: no more than ten of them behind the zeros in front. -/
theorem length_dropZeros {ds : List Char} (h : Digits ds)
    (hv : Decimal.digitsValue ds ≤ 2147483647) : (ds.dropWhile (· = '0')).length ≤ 10 := by
  rw [← Decimal.digitsValue_dropZeros] at hv
  have hmem : ∀ c ∈ ds.dropWhile (· = '0'), c.isDigit := fun c hc =>
    h.2 c ((List.dropWhile_suffix _).mem hc)
  rcases hc : ds.dropWhile (· = '0') with _ | ⟨c, cs⟩
  · simp
  · rw [hc] at hv hmem
    have hzero : c ≠ '0' := by
      have := List.dropWhile_get_zero_not (fun c => decide (c = '0')) ds (by simp [hc])
      simpa [hc] using this
    have hle := Decimal.le_digitsValue (hmem c List.mem_cons_self) hzero cs
    by_contra hlen
    have := Nat.pow_le_pow_right (n := 10) (by decide) (show 10 ≤ cs.length by simp at hlen; omega)
    omega

/-- A numeral that fits gives a literal, unless it has too many digits to be converted. -/
theorem number_of_fits {t : Token} (h : Numeral t.lexeme.toList) (hf : t.Fits) :
    (∃ l, number t = .ok l) ∨ ∃ cause, number t = .error (.abort cause) := by
  unfold Token.Fits at hf
  generalize hl : t.lexeme.toList = lexeme at h hf
  cases h with
  | whole hd =>
    have hs := splitPoint_whole hd
    rw [hs] at hf
    have hlen := length_dropZeros hd hf
    rw [number_whole (hl ▸ hs), hl, if_neg (by omega)]
    split
    · exact .inr ⟨_, rfl⟩
    · rw [if_pos (by dsimp only at hf; omega)]
      exact .inl ⟨_, rfl⟩
  | @pointed ds fs hd hfs =>
    have hs := splitPoint_pointed hd fs
    rw [hs] at hf
    rw [number_pointed (hl ▸ hs), if_pos hf]
    exact .inl ⟨_, rfl⟩

end Reading
end ArrowLang
