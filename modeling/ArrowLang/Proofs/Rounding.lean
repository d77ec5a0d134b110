import ArrowLang.Decimal.Shortest
import Mathlib.Algebra.Order.Field.Power
import Mathlib.Data.Rat.Cast.Order
import Mathlib.Tactic.FieldSimp
import Mathlib.Tactic.Linarith
import Mathlib.Tactic.NormNum
import Mathlib.Tactic.Positivity
import Mathlib.Tactic.Ring

/-!
# Rounding looks at the number only

A ratio is rounded by its value alone, however its two parts are scaled. So a decimal may be written
with any number of zeros at its end.
-/
namespace ArrowLang.Decimal

theorem two_zpow_pos (e : Int) : (0 : ℚ) < 2 ^ e := zpow_pos (by norm_num) e

theorem zpow_toNat (b : ℚ) (hb : b ≠ 0) (e : Int) :
    b ^ e.toNat = b ^ e * b ^ (-e).toNat := by
  rw [← zpow_natCast, ← zpow_natCast, ← zpow_add₀ hb]
  congr 1
  omega

theorem roundHalfEven_mul (k : Nat) (hk : 0 < k) (a b : Nat) :
    roundHalfEven (k * a) (k * b) = roundHalfEven a b := by
  unfold roundHalfEven
  have h₁ : 2 * (k * (a % b)) < k * b ↔ 2 * (a % b) < b := by
    rw [Nat.mul_left_comm]
    exact Nat.mul_lt_mul_left hk
  have h₂ : 2 * (k * (a % b)) = k * b ↔ 2 * (a % b) = b := by
    rw [Nat.mul_left_comm]
    exact Nat.mul_right_inj (by omega)
  rw [Nat.mul_div_mul_left _ _ hk, Nat.mul_mod_mul_left]
  simp only [h₁, h₂]

theorem roundHalfEven_congr {a b c d : Nat} (hb : 0 < b) (hd : 0 < d) (h : a * d = c * b) :
    roundHalfEven a b = roundHalfEven c d := by
  rw [← roundHalfEven_mul d hd a b, ← roundHalfEven_mul b hb c d, Nat.mul_comm d a, h,
    Nat.mul_comm c b, Nat.mul_comm d b]

theorem roundHalfEven_whole {m d : Nat} (hd : 0 < d) : roundHalfEven (m * d) d = m := by
  unfold roundHalfEven
  rw [Nat.mul_div_cancel _ hd, Nat.mul_mod_left]
  simp [hd]

theorem roundHalfEven_small {n d : Nat} (h : 2 * n < d) : roundHalfEven n d = 0 := by
  unfold roundHalfEven
  rw [Nat.div_eq_of_lt (by omega), Nat.mod_eq_of_lt (by omega)]
  simp [h]

theorem scaleTwo_pos {b : Nat} (hb : 0 < b) (a : Nat) (e : Int) : 0 < (scaleTwo a b e).2 :=
  Nat.mul_pos hb (by positivity)

/-- What scaling does to the number. -/
theorem scaleTwo_value (a : Nat) {b : Nat} (hb : 0 < b) (e : Int) :
    ((scaleTwo a b e).1 : ℚ) * 2 ^ e = a / b * (scaleTwo a b e).2 := by
  have hbq : (b : ℚ) ≠ 0 := by positivity
  simp only [scaleTwo]
  push_cast
  rw [zpow_toNat 2 (by norm_num) e]
  field_simp

theorem scaleTwo_lt_iff (a : Nat) {b : Nat} (hb : 0 < b) (e : Int) (k : Nat) :
    (scaleTwo a b e).1 < (scaleTwo a b e).2 * 2 ^ k ↔ (a / b : ℚ) < 2 ^ (e + k) := by
  have hv := scaleTwo_value a hb e
  have hd : (0 : ℚ) < (scaleTwo a b e).2 := by exact_mod_cast scaleTwo_pos hb a e
  have he := two_zpow_pos e
  rw [zpow_add₀ (by norm_num), zpow_natCast, ← mul_lt_mul_iff_of_pos_right hd, ← hv]
  rw [show (2 : ℚ) ^ e * 2 ^ k * (scaleTwo a b e).2 = (scaleTwo a b e).2 * 2 ^ k * 2 ^ e by ring,
    mul_lt_mul_iff_of_pos_right he]
  exact_mod_cast Iff.rfl

/-- The exponent at which a number has a mantissa of 53 bits, or the least exponent. -/
structure IsExponent (x : ℚ) (e : Int) : Prop where
  least : -1074 ≤ e
  lt : x < 2 ^ (e + 53)
  ge : e = -1074 ∨ 2 ^ (e + 52) ≤ x

theorem IsExponent.le {x : ℚ} {e f : Int} (h : IsExponent x e) (h' : IsExponent x f) : e ≤ f := by
  by_contra hlt
  have hge : (2 : ℚ) ^ (e + 52) ≤ x := by
    rcases h.ge with he | he
    · have := h'.least
      omega
    · exact he
  have hle : (2 : ℚ) ^ (f + 53) ≤ 2 ^ (e + 52) := zpow_le_zpow_right₀ (by norm_num) (by omega)
  exact absurd h'.lt (not_lt.mpr (le_trans hle hge))

theorem IsExponent.unique {x : ℚ} {e f : Int} (h : IsExponent x e) (h' : IsExponent x f) : e = f :=
  le_antisymm (h.le h') (h'.le h)

theorem log2_bounds {a : Nat} (ha : 0 < a) :
    (2 : ℚ) ^ (a.log2 : Int) ≤ a ∧ (a : ℚ) < 2 ^ ((a.log2 : Int) + 1) := by
  constructor
  · rw [zpow_natCast]
    exact_mod_cast Nat.log2_self_le (by omega)
  · rw [← Nat.cast_succ, zpow_natCast]
    exact_mod_cast Nat.lt_log2_self

theorem ratio_bounds {a b : Nat} (ha : 0 < a) (hb : 0 < b) :
    (2 : ℚ) ^ ((a.log2 : Int) - b.log2 - 1) ≤ a / b ∧
      (a / b : ℚ) < 2 ^ ((a.log2 : Int) - b.log2 + 1) := by
  obtain ⟨ha₁, ha₂⟩ := log2_bounds ha
  obtain ⟨hb₁, hb₂⟩ := log2_bounds hb
  have hbq : (0 : ℚ) < b := by exact_mod_cast hb
  constructor
  · rw [le_div_iff₀ hbq]
    calc (2 : ℚ) ^ ((a.log2 : Int) - b.log2 - 1) * b
        ≤ 2 ^ ((a.log2 : Int) - b.log2 - 1) * 2 ^ ((b.log2 : Int) + 1) := by gcongr
      _ = 2 ^ (a.log2 : Int) := by
          rw [← zpow_add₀ (by norm_num)]
          congr 1
          ring
      _ ≤ a := ha₁
  · rw [div_lt_iff₀ hbq]
    calc (a : ℚ) < 2 ^ ((a.log2 : Int) + 1) := ha₂
      _ = 2 ^ ((a.log2 : Int) - b.log2 + 1) * 2 ^ (b.log2 : Int) := by
          rw [← zpow_add₀ (by norm_num)]
          congr 1
          ring
      _ ≤ 2 ^ ((a.log2 : Int) - b.log2 + 1) * b := by gcongr

theorem isExponent_exponentOf {a b : Nat} (ha : 0 < a) (hb : 0 < b) :
    IsExponent (a / b) (exponentOf a b) := by
  obtain ⟨hlow, hhigh⟩ := ratio_bounds ha hb
  unfold exponentOf
  dsimp only
  generalize he : max ((a.log2 : Int) - b.log2 - 53) (-1074) = e
  have hmono : ∀ {i j : Int}, i ≤ j → (2 : ℚ) ^ i ≤ 2 ^ j := fun h =>
    zpow_le_zpow_right₀ (by norm_num) h
  split
  · next hlt =>
    refine ⟨by omega, (scaleTwo_lt_iff a hb e 53).mp hlt, ?_⟩
    by_cases h : e = -1074
    · exact .inl h
    · exact .inr (le_trans (hmono (by omega)) hlow)
  · next hge =>
    have hge : (2 : ℚ) ^ (e + 53) ≤ a / b := not_lt.mp ((scaleTwo_lt_iff a hb e 53).not.mp hge)
    refine ⟨by omega, lt_of_lt_of_le hhigh (hmono (by omega)), .inr (le_trans (hmono (by omega)) hge)⟩

theorem exponentOf_eq {a b : Nat} (ha : 0 < a) (hb : 0 < b) {e : Int}
    (h : IsExponent (a / b) e) : exponentOf a b = e :=
  (isExponent_exponentOf ha hb).unique h

/-- Ratios of one value are rounded alike. -/
theorem roundRatio_congr {a b c d : Nat} (ha : 0 < a) (hb : 0 < b) (hc : 0 < c) (hd : 0 < d)
    (h : (a / b : ℚ) = c / d) : roundRatio a b = roundRatio c d := by
  have he : exponentOf a b = exponentOf c d := by
    refine exponentOf_eq ha hb ?_
    rw [h]
    exact isExponent_exponentOf hc hd
  have hbq : (b : ℚ) ≠ 0 := by positivity
  have hdq : (d : ℚ) ≠ 0 := by positivity
  have hcross : a * d = c * b := by
    rw [div_eq_div_iff hbq hdq] at h
    exact_mod_cast h
  have hm : roundHalfEven (scaleTwo a b (exponentOf c d)).1 (scaleTwo a b (exponentOf c d)).2 =
      roundHalfEven (scaleTwo c d (exponentOf c d)).1 (scaleTwo c d (exponentOf c d)).2 := by
    refine roundHalfEven_congr (scaleTwo_pos hb _ _) (scaleTwo_pos hd _ _) ?_
    simp only [scaleTwo]
    rw [mul_mul_mul_comm, hcross, mul_mul_mul_comm]
  unfold roundRatio
  dsimp only
  rw [he, hm]

/-- The mantissa at an exponent. -/
def mantissaAt (a b : Nat) (e : Int) : Nat :=
  roundHalfEven (scaleTwo a b e).1 (scaleTwo a b e).2

theorem roundRatio_eq {a b : Nat} {e : Int} (he : exponentOf a b = e) : roundRatio a b =
    if mantissaAt a b e = 2 ^ 53 then (2 ^ 52, e + 1) else (mantissaAt a b e, e) := by
  subst he
  rfl

theorem exponentOf_le_roundRatio (a b : Nat) : exponentOf a b ≤ (roundRatio a b).2 := by
  rw [roundRatio_eq rfl]
  split
  · exact Int.le_add_one (le_refl _)
  · exact le_refl _

namespace Binary64

theorem ofRatio_of_normal (negative : Bool) {a b : Nat} (ha : 0 < a) {m : Nat} {e : Int}
    (h : roundRatio a b = (m, e)) (hn : IsNormalForm m e) :
    ofRatio negative a b = .finite negative m e hn := by
  unfold ofRatio
  rw [if_neg (by omega), h]
  exact dif_pos hn

theorem ofRatio_of_not_normal (negative : Bool) {a b : Nat} (ha : 0 < a) {m : Nat} {e : Int}
    (h : roundRatio a b = (m, e)) (hn : ¬ IsNormalForm m e) :
    ofRatio negative a b = .infinite negative := by
  unfold ofRatio
  rw [if_neg (by omega), h]
  exact dif_neg hn

theorem ofRatio_congr (negative : Bool) {a b c d : Nat} (ha : 0 < a) (hb : 0 < b) (hc : 0 < c)
    (hd : 0 < d) (h : (a / b : ℚ) = c / d) : ofRatio negative a b = ofRatio negative c d := by
  unfold ofRatio
  rw [if_neg (by omega), if_neg (by omega), roundRatio_congr ha hb hc hd h]

/-- What is past the largest value is infinite. -/
theorem ofRatio_large (negative : Bool) {a b : Nat} (ha : 0 < a) (hb : 0 < b) {k : Int}
    (hk : 1024 ≤ k) (h : (2 : ℚ) ^ k ≤ a / b) : ofRatio negative a b = .infinite negative := by
  have hlt := lt_of_le_of_lt h (isExponent_exponentOf ha hb).lt
  have he := (zpow_lt_zpow_iff_right₀ (by norm_num : (1 : ℚ) < 2)).mp hlt
  have hle := exponentOf_le_roundRatio a b
  rcases hr : roundRatio a b with ⟨m, f⟩
  rw [hr] at hle
  refine ofRatio_of_not_normal negative ha hr fun hn => ?_
  have := hn.exponent_le
  omega

theorem mantissaAt_small {a b : Nat} (hb : 0 < b) (h : (a / b : ℚ) < 2 ^ (-1075 : Int)) :
    mantissaAt a b (-1074) = 0 := by
  refine roundHalfEven_small ?_
  have hv := scaleTwo_value a hb (-1074)
  have hd : (0 : ℚ) < (scaleTwo a b (-1074)).2 := by exact_mod_cast scaleTwo_pos hb a _
  have hlt := mul_lt_mul_of_pos_right h hd
  rw [← hv, show (-1075 : Int) = -1 + -1074 by norm_num, zpow_add₀ (by norm_num), mul_right_comm,
    mul_lt_mul_iff_of_pos_right (two_zpow_pos _)] at hlt
  have hhalf : (2 : ℚ) ^ (-1 : Int) = 1 / 2 := by norm_num
  have hdouble : (2 * (scaleTwo a b (-1074)).1 : ℚ) < (scaleTwo a b (-1074)).2 := by
    rw [hhalf] at hlt
    linarith
  exact_mod_cast hdouble

/-- What is below half of the smallest value is zero. -/
theorem ofRatio_small (negative : Bool) {a b : Nat} (ha : 0 < a) (hb : 0 < b)
    (h : (a / b : ℚ) < 2 ^ (-1075 : Int)) : ofRatio negative a b = .zero negative := by
  have he : exponentOf a b = -1074 := by
    refine exponentOf_eq ha hb ⟨le_refl _, lt_trans h ?_, .inl rfl⟩
    exact zpow_lt_zpow_right₀ (by norm_num) (by norm_num)
  have hr : roundRatio a b = (0, -1074) := by
    rw [roundRatio_eq he, mantissaAt_small hb h]
    exact if_neg (by norm_num)
  exact ofRatio_of_normal negative ha hr _

end Binary64
end ArrowLang.Decimal
