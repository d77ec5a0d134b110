import ArrowLang.Decimal.Layout
import ArrowLang.Proofs.Numerals
import ArrowLang.Proofs.Rounding

/-!
# Floats are read back

The positional text of a finite value is a numeral, and the value nearest to that numeral is the
value itself.
-/
namespace ArrowLang.Decimal

/-- The number that a decimal stands for. -/
def Scaled.value (d : Scaled) : ℚ := d.digits * 10 ^ d.exponent

theorem decimal_ratio (n : Nat) (e : Int) :
    ((n * 10 ^ e.toNat : Nat) : ℚ) / (10 ^ (-e).toNat : Nat) = n * 10 ^ e := by
  push_cast
  rw [zpow_toNat 10 (by norm_num) e, ← mul_assoc, mul_div_assoc, div_self (by positivity), mul_one]

/-- Three binary places are less than a decimal one. -/
theorem two_zpow_le_ten_zpow {k : Int} (hk : 0 ≤ k) : (2 : ℚ) ^ (3 * k) ≤ 10 ^ k := by
  rw [zpow_mul]
  exact zpow_le_zpow_left₀ hk (by norm_num) (by norm_num)

theorem ten_zpow_le_two_zpow {k : Int} (hk : k ≤ 0) : (10 : ℚ) ^ k ≤ 2 ^ (3 * k) := by
  have h := two_zpow_le_ten_zpow (k := -k) (by omega)
  rw [show 3 * -k = -(3 * k) by ring, zpow_neg, zpow_neg] at h
  exact (inv_le_inv₀ (two_zpow_pos _) (zpow_pos (by norm_num) _)).mp h

namespace Binary64

/-- The bounds beyond which the powers are not worked out change nothing. -/
theorem ofDecimal_eq (negative : Bool) {n : Nat} (hn : n ≠ 0) (e : Int) :
    ofDecimal negative n e = ofRatio negative (n * 10 ^ e.toNat) (10 ^ (-e).toNat) := by
  have hpos : 0 < n * 10 ^ e.toNat := by positivity
  have hden : 0 < 10 ^ (-e).toNat := by positivity
  have hr := decimal_ratio n e
  unfold ofDecimal
  rw [if_neg hn]
  split
  · next hlarge =>
    refine (ofRatio_large negative hpos hden (k := 3 * e) (by omega) ?_).symm
    rw [hr]
    calc (2 : ℚ) ^ (3 * e) ≤ 10 ^ e := two_zpow_le_ten_zpow (by omega)
      _ ≤ n * 10 ^ e := by
          have : (1 : ℚ) ≤ n := by exact_mod_cast Nat.one_le_iff_ne_zero.mpr hn
          exact le_mul_of_one_le_left (by positivity) this
  · split
    · next hsmall =>
      refine (ofRatio_small negative hpos hden ?_).symm
      rw [hr]
      have hlog := (log2_bounds (Nat.pos_of_ne_zero hn)).2
      calc (n : ℚ) * 10 ^ e ≤ n * 2 ^ (3 * e) := by
            gcongr
            exact ten_zpow_le_two_zpow (by omega)
        _ < 2 ^ ((n.log2 : Int) + 1) * 2 ^ (3 * e) := by
            have := two_zpow_pos (3 * e)
            gcongr
        _ = 2 ^ ((n.log2 : Int) + 1 + 3 * e) := (zpow_add₀ (by norm_num) _ _).symm
        _ ≤ 2 ^ (-1075 : Int) := zpow_le_zpow_right₀ (by norm_num) (by omega)
    · rfl

theorem ofDecimal_zero (negative : Bool) (e : Int) : ofDecimal negative 0 e = .zero negative :=
  if_pos rfl

/-- Decimals of one value are read alike. -/
theorem ofDecimal_congr (negative : Bool) {n m : Nat} {e f : Int}
    (h : (n : ℚ) * 10 ^ e = m * 10 ^ f) : ofDecimal negative n e = ofDecimal negative m f := by
  have he : (10 : ℚ) ^ e ≠ 0 := by positivity
  have hf : (10 : ℚ) ^ f ≠ 0 := by positivity
  by_cases hn : n = 0
  · have hm : m = 0 := by
      subst hn
      have : (m : ℚ) = 0 := by simpa [hf] using h.symm
      exact_mod_cast this
    rw [hn, hm, ofDecimal_zero, ofDecimal_zero]
  · have hm : m ≠ 0 := by
      rintro rfl
      have : (n : ℚ) = 0 := by simpa [he] using h
      exact hn (by exact_mod_cast this)
    rw [ofDecimal_eq negative hn, ofDecimal_eq negative hm]
    refine ofRatio_congr negative (by positivity) (by positivity) (by positivity) (by positivity) ?_
    rw [decimal_ratio, decimal_ratio, h]

/-- The value nearest to a value is that value. -/
theorem ofRatio_exact (negative : Bool) {a b m : Nat} {e : Int} (ha : 0 < a) (hb : 0 < b)
    (hn : IsNormalForm m e) (h : (a / b : ℚ) = m * 2 ^ e) :
    ofRatio negative a b = .finite negative m e hn := by
  have hp := two_zpow_pos e
  have hexp : exponentOf a b = e := by
    refine exponentOf_eq ha hb ?_
    rw [h]
    refine ⟨hn.le_exponent, ?_, ?_⟩
    · rw [add_comm, zpow_add₀ (by norm_num)]
      have : (m : ℚ) < 2 ^ (53 : Int) := by exact_mod_cast hn.mantissa_lt
      gcongr
    · refine hn.normal.symm.imp_right fun hm => ?_
      rw [add_comm, zpow_add₀ (by norm_num)]
      have : (2 : ℚ) ^ (52 : Int) ≤ m := by exact_mod_cast hm
      gcongr
  have hm : mantissaAt a b e = m := by
    have hv := scaleTwo_value a hb e
    rw [h, mul_right_comm] at hv
    have hv := mul_right_cancel₀ (ne_of_gt hp) hv
    rw [mantissaAt, show (scaleTwo a b e).1 = m * (scaleTwo a b e).2 by exact_mod_cast hv]
    exact roundHalfEven_whole (scaleTwo_pos hb a e)
  refine ofRatio_of_normal negative ha ?_ hn
  have := hn.mantissa_lt
  rw [roundRatio_eq hexp, hm, if_neg (by omega)]

end Binary64

theorem Scaled.value_trimmed (fuel : Nat) (d : Scaled) : (d.trimmed fuel).value = d.value := by
  induction fuel generalizing d with
  | zero => rfl
  | succ fuel ih =>
    unfold trimmed
    split
    · next h =>
      rw [ih]
      have hd : d.digits = 10 * (d.digits / 10) := by omega
      simp only [value]
      rw [zpow_add₀ (by norm_num), zpow_one]
      conv_rhs => rw [hd]
      push_cast
      ring
    · rfl

theorem value_exactDigits (m : Nat) (e : Int) : (exactDigits m e).value = m * 2 ^ e := by
  have hmin : min e 0 = -((-e).toNat : Int) := by omega
  simp only [Scaled.value, exactDigits]
  push_cast
  rw [zpow_toNat 2 (by norm_num) e, hmin, zpow_neg, zpow_natCast, ← div_eq_mul_inv,
    div_eq_iff (by positivity), show (10 : ℚ) = 2 * 5 by norm_num, mul_pow]
  ring

theorem ofRatio_sign {negative : Bool} {a b : Nat} (ha : 0 < a) {s : Bool} {m : Nat} {e : Int}
    {h : IsNormalForm m e} (hr : Binary64.ofRatio negative a b = .finite s m e h) :
    s = negative := by
  rcases hround : roundRatio a b with ⟨m', e'⟩
  by_cases hn : IsNormalForm m' e'
  · rw [Binary64.ofRatio_of_normal negative ha hround hn] at hr
    exact (Binary64.finite.inj hr).1.symm
  · rw [Binary64.ofRatio_of_not_normal negative ha hround hn] at hr
    cases hr

theorem ofDecimal_sign {negative : Bool} {n : Nat} {e : Int} {s : Bool} {m : Nat} {f : Int}
    {h : IsNormalForm m f} (hd : Binary64.ofDecimal negative n e = .finite s m f h) :
    s = negative := by
  by_cases hn : n = 0
  · subst hn
    rw [Binary64.ofDecimal_zero] at hd
    exact (Binary64.finite.inj hd).1.symm
  · rw [Binary64.ofDecimal_eq negative hn] at hd
    exact ofRatio_sign (by positivity) hd

/-- What the search for the shortest decimal looks for. -/
theorem ofDecimal_of_reads {d : Scaled} {m : Nat} {e : Int} (hn : IsNormalForm m e)
    (h : d.reads m e) : Binary64.ofDecimal false d.digits d.exponent = .finite false m e hn := by
  unfold Scaled.reads at h
  split at h
  · next b m' e' hn' hd =>
    obtain rfl := ofDecimal_sign hd
    simp only [Bool.and_eq_true, beq_iff_eq] at h
    obtain ⟨rfl, rfl⟩ := h
    exact hd
  · cases h

theorem reads_of_onGrid {m : Nat} {e : Int} {num den : Nat} {grid : Int} {d : Scaled}
    (h : onGrid? m e num den grid = some d) : d.reads m e := by
  unfold onGrid? at h
  dsimp only at h
  split at h <;> rename_i hlow hhigh
  · obtain rfl := Option.some.inj h
    split
    · exact hlow
    · exact hhigh
  · obtain rfl := Option.some.inj h
    exact hlow
  · obtain rfl := Option.some.inj h
    exact hhigh
  · cases h

/-- The shortest decimal of a value is read back as that value. -/
theorem ofDecimal_shortest {m : Nat} {e : Int} (hn : IsNormalForm m e) (hm : m ≠ 0) :
    Binary64.ofDecimal false (shortest m e).digits (shortest m e).exponent =
      .finite false m e hn := by
  unfold shortest
  dsimp only
  generalize hf : (List.range 17).findSome? _ = found
  rw [Binary64.ofDecimal_congr false (Scaled.value_trimmed 400 (found.getD (exactDigits m e)))]
  cases found with
  | some d =>
    obtain ⟨n, -, hd⟩ := List.exists_of_findSome?_eq_some hf
    exact ofDecimal_of_reads hn (reads_of_onGrid hd)
  | none =>
    have hv := value_exactDigits m e
    have hne : (exactDigits m e).digits ≠ 0 := by
      intro h0
      have hp := two_zpow_pos e
      rw [Scaled.value, h0] at hv
      have : (m : ℚ) = 0 := by simpa [hp.ne'] using hv.symm
      exact hm (by exact_mod_cast this)
    rw [Option.getD_none, Binary64.ofDecimal_eq false hne]
    refine Binary64.ofRatio_exact false (by positivity) (by positivity) hn ?_
    rw [decimal_ratio]
    exact hv

theorem ofDecimal_scaled {m : Nat} {e : Int} (hn : IsNormalForm m e) :
    Binary64.ofDecimal false (Binary64.scaled m e).digits (Binary64.scaled m e).exponent =
      .finite false m e hn := by
  unfold Binary64.scaled
  split
  · next hm =>
    subst hm
    obtain rfl : e = -1074 := by
      rcases hn.normal with h | h
      · omega
      · exact h
    exact Binary64.ofDecimal_zero false 0
  · next hm => exact ofDecimal_shortest hn hm

theorem digits_natDigits (n : Nat) : Digits (natDigits n) :=
  ⟨Nat.toDigits_ne_nil, fun _ hc => Nat.isDigit_of_mem_toDigits (by decide) (by decide) hc⟩

theorem digitsValue_natDigits (n : Nat) : digitsValue (natDigits n) = n :=
  Nat.ofDigitChars_ten_toDigits

theorem digitsValue_zeros (k : Nat) : digitsValue (List.replicate k '0') = 0 := by
  rw [digitsValue, Nat.ofDigitChars_replicate_zero, Nat.mul_zero]

theorem isDigit_pad {k : Nat} {ds : List Char} (h : ∀ c ∈ ds, c.isDigit) :
    ∀ c ∈ List.replicate k '0' ++ ds, c.isDigit := by
  intro c hc
  rcases List.mem_append.mp hc with hc | hc
  · rw [List.eq_of_mem_replicate hc]
    rfl
  · exact h c hc

/-- The positional text has digits on both sides of its point, and these are worth the decimal. -/
theorem positional_spec (d : Scaled) : ∃ whole fraction, Digits whole ∧ Digits fraction ∧
    d.positional = whole ++ '.' :: fraction ∧
    (digitsValue (whole ++ fraction) : ℚ) * 10 ^ (-fraction.length : Int) = d.value := by
  have hd := digits_natDigits d.digits
  unfold Scaled.positional
  dsimp only
  split
  · next he =>
    refine ⟨natDigits d.digits ++ List.replicate d.exponent.toNat '0', ['0'], ?_,
      ⟨by simp, by simp⟩, by simp, ?_⟩
    · refine ⟨by simp [hd.1], fun c hc => ?_⟩
      rcases List.mem_append.mp hc with hc | hc
      · exact hd.2 c hc
      · rw [List.eq_of_mem_replicate hc]
        rfl
    · have hv : digitsValue (natDigits d.digits ++ List.replicate d.exponent.toNat '0' ++ ['0']) =
          10 * (10 ^ d.exponent.toNat * d.digits) := by
        rw [digitsValue_append, digitsValue_append, digitsValue_natDigits, digitsValue_zeros,
          List.length_replicate, show digitsValue ['0'] = 0 from digitsValue_zeros 1]
        simp
      have he : (d.exponent.toNat : Int) = d.exponent := Int.toNat_of_nonneg he
      rw [hv, Scaled.value]
      conv_rhs => rw [← he, zpow_natCast]
      push_cast
      simp only [List.length_singleton, Nat.cast_one, zpow_neg, zpow_one]
      ring
  · next he =>
    generalize hp : (-d.exponent).toNat = places
    generalize hpad : List.replicate (places + 1 - (natDigits d.digits).length) '0' ++
      natDigits d.digits = padded
    have hlen : places + 1 ≤ padded.length := by
      rw [← hpad, List.length_append, List.length_replicate]
      omega
    have hdig : ∀ c ∈ padded, c.isDigit := hpad ▸ isDigit_pad hd.2
    have hval : digitsValue padded = d.digits := by
      rw [← hpad, digitsValue_append, digitsValue_zeros, digitsValue_natDigits]
      simp
    have hdrop : (padded.drop (padded.length - places)).length = places := by
      rw [List.length_drop]
      omega
    refine ⟨_, _, ⟨?_, ?_⟩, ⟨?_, ?_⟩, rfl, ?_⟩
    · intro h
      have := congrArg List.length h
      rw [List.length_take, List.length_nil] at this
      omega
    · exact fun c hc => hdig c (List.mem_of_mem_take hc)
    · intro h
      rw [h, List.length_nil] at hdrop
      omega
    · exact fun c hc => hdig c (List.mem_of_mem_drop hc)
    · rw [List.take_append_drop, hval, hdrop, Scaled.value, show -(places : Int) = d.exponent by omega]

/-- A finite value is written as a numeral, with a sign if it is negative, and the numeral is read
back as the value without its sign. -/
theorem positional_reads (negative : Bool) {m : Nat} {e : Int} (hn : IsNormalForm m e) :
    ∃ whole fraction, Digits whole ∧ Digits fraction ∧
      (Binary64.finite negative m e hn).positional? =
        some (String.ofList (Binary64.signed negative (whole ++ '.' :: fraction))) ∧
      ofParts false whole fraction 0 = .finite false m e hn := by
  obtain ⟨whole, fraction, hw, hf, hp, hv⟩ := positional_spec (Binary64.scaled m e)
  refine ⟨whole, fraction, hw, hf, by rw [Binary64.positional?, hp], ?_⟩
  rw [ofParts, ← ofDecimal_scaled hn]
  refine Binary64.ofDecimal_congr false ?_
  rw [Int.zero_sub]
  exact hv

end ArrowLang.Decimal
