import ArrowLang.Decimal.Numeral
import ArrowLang.Proofs.Decimals
import ArrowLang.Proofs.Pieces

/-!
# What the text of a float denotes

The short text of a finite value and its positional text denote one rational number, so neither form
drops or adds a digit. No two finite values have the same short text, and the positional text is cut
as one number token.
-/
namespace ArrowLang
namespace Decimal

open Binary64 (signed scaled)

def exponent? : List Char → Option Int
  | [] => some 0
  | c :: cs =>
    if c = 'e' ∨ c = 'E' then
      let (negative, ds) := splitSign cs
      if ds.isEmpty || !ds.all Char.isDigit then none
      else some (if negative then -(digitsValue ds : Int) else digitsValue ds)
    else none

/-- The digits after a point, if there is one, and what stands behind them. -/
def fraction : List Char → List Char × List Char
  | '.' :: cs => (cs.takeWhile Char.isDigit, cs.dropWhile Char.isDigit)
  | cs => ([], cs)

/-- The exact number that digits with an optional point and an optional exponent denote. -/
def magnitude? (text : List Char) : Option ℚ :=
  let whole := text.takeWhile Char.isDigit
  let (frac, rest) := fraction (text.dropWhile Char.isDigit)
  if whole.isEmpty && frac.isEmpty then none
  else (exponent? rest).map fun k =>
    (digitsValue (whole ++ frac) : ℚ) * 10 ^ (k - (frac.length : Int))

/-- The number that a text denotes, and whether it has a minus. -/
def denoted? (text : List Char) : Option (Bool × ℚ) :=
  let (negative, cs) := splitSign text
  (magnitude? cs).map fun x => (negative, if negative then -x else x)

theorem denoted_signed (negative : Bool) {c : Char} (hc : c.isDigit) (cs : List Char) :
    denoted? (signed negative (c :: cs)) =
      (magnitude? (c :: cs)).map fun x => (negative, if negative then -x else x) := by
  cases negative with
  | true => rfl
  | false =>
    have hminus : c ≠ '-' := by rintro rfl; cases hc
    have hplus : c ≠ '+' := by rintro rfl; cases hc
    simp [signed, denoted?, splitSign, hminus, hplus]

section
variable {whole frac rest : List Char} {k : Int}

theorem magnitude_whole (hw : Digits whole) (hr : ∀ c ∈ rest.head?, c.isDigit = false ∧ c ≠ '.')
    (hk : exponent? rest = some k) : magnitude? (whole ++ rest) =
      some ((digitsValue whole : ℚ) * 10 ^ k) := by
  obtain ⟨htake, hdrop⟩ := Lexeme.takeWhile_boundary hw.2 fun c hc => (hr c hc).1
  have hfrac : fraction rest = ([], rest) := by
    cases rest with
    | nil => rfl
    | cons c rest => simp [fraction, (hr c rfl).2]
  simp [magnitude?, htake, hdrop, hfrac, hk, hw.1]

theorem magnitude_pointed (hw : Digits whole) (hf : Digits frac)
    (hr : ∀ c ∈ rest.head?, c.isDigit = false) (hk : exponent? rest = some k) :
    magnitude? (whole ++ '.' :: (frac ++ rest)) =
      some ((digitsValue (whole ++ frac) : ℚ) * 10 ^ (k - (frac.length : Int))) := by
  have hpoint : ∀ c ∈ ('.' :: (frac ++ rest)).head?, c.isDigit = false := by
    rintro _ ⟨⟩
    rfl
  obtain ⟨htake, hdrop⟩ := Lexeme.takeWhile_boundary hw.2 hpoint
  obtain ⟨hftake, hfdrop⟩ := Lexeme.takeWhile_boundary hf.2 hr
  simp [magnitude?, htake, hdrop, fraction, hftake, hfdrop, hk, hw.1]

end

theorem magnitude_positional (d : Scaled) : magnitude? d.positional = some d.value := by
  obtain ⟨whole, frac, hw, hf, hp, hv⟩ := positional_spec d
  have hend : ∀ c ∈ ([] : List Char).head?, c.isDigit = false := nofun
  have h := magnitude_pointed hw hf hend rfl
  rw [List.append_nil, ← hp, Int.zero_sub, hv] at h
  exact h

/-- An exponent is written with a sign and any zeros in front. -/
theorem exponent_text (n : Int) (zeros : Nat) :
    exponent? ('e' :: (if n < 0 then '-' else '+') ::
      (List.replicate zeros '0' ++ natDigits n.natAbs)) = some n := by
  generalize hds : List.replicate zeros '0' ++ natDigits n.natAbs = ds
  have hdig := digits_natDigits n.natAbs
  have hne : ds.isEmpty = false := by
    rw [← hds, List.isEmpty_eq_false_iff]
    simp [hdig.1]
  have hall : ds.all Char.isDigit = true := List.all_eq_true.mpr (hds ▸ isDigit_pad hdig.2)
  have hv : digitsValue ds = n.natAbs := by
    rw [← hds, digitsValue_append, digitsValue_zeros, digitsValue_natDigits]
    simp
  by_cases hn : n < 0
  · simp [exponent?, splitSign, hn, hne, hall, hv, abs_of_neg hn]
  · simp [exponent?, splitSign, hn, hne, hall, hv, abs_of_nonneg (not_lt.mp hn)]

theorem magnitude_scientific (d : Scaled) : magnitude? d.scientific = some d.value := by
  obtain ⟨hne, hdig⟩ := digits_natDigits d.digits
  have hval := digitsValue_natDigits d.digits
  have hexp := exponent_text d.order (2 - (natDigits d.order.natAbs).length)
  have horder : d.order = d.exponent + (natDigits d.digits).length - 1 := rfl
  unfold Scaled.scientific
  generalize hds : natDigits d.digits = ds at hne hdig hval horder
  cases ds with
  | nil => exact absurd rfl hne
  | cons c cs =>
    have hc : Digits [c] := ⟨by simp, by simpa using hdig c List.mem_cons_self⟩
    have hplaces : d.order - (cs.length : Int) = d.exponent := by
      rw [horder, List.length_cons]
      omega
    cases cs with
    | nil =>
      have h := magnitude_whole hc (by rintro _ ⟨⟩; exact ⟨rfl, by decide⟩) hexp
      refine h.trans ?_
      rw [hval, Scaled.value, show d.order = d.exponent by simpa using hplaces]
    | cons c' cs =>
      have hcs : Digits (c' :: cs) := ⟨by simp, fun x hx => hdig x (List.mem_cons_of_mem c hx)⟩
      have h := magnitude_pointed hc hcs (by rintro _ ⟨⟩; rfl) hexp
      refine h.trans ?_
      rw [List.singleton_append, hval, hplaces, Scaled.value]

theorem magnitude_short (d : Scaled) : magnitude? d.short = some d.value := by
  unfold Scaled.short
  split
  · exact magnitude_positional d
  · exact magnitude_scientific d

/-- Both forms begin with a digit. -/
theorem exists_digit_short (d : Scaled) : ∃ c cs, d.short = c :: cs ∧ c.isDigit := by
  unfold Scaled.short
  split
  · obtain ⟨whole, frac, hw, -, hp, -⟩ := positional_spec d
    obtain ⟨c, cs, rfl⟩ := List.exists_cons_of_ne_nil hw.1
    exact ⟨c, _, hp, hw.2 c List.mem_cons_self⟩
  · obtain ⟨c, cs, hds⟩ := List.exists_cons_of_ne_nil (digits_natDigits d.digits).1
    have hc := (digits_natDigits d.digits).2 c (hds ▸ List.mem_cons_self)
    unfold Scaled.scientific
    rw [hds]
    cases cs <;> exact ⟨c, _, rfl, hc⟩

namespace Binary64

variable {m : Nat} {e : Int}

/-- The short text denotes the shortest decimal of the value, with its sign. -/
theorem denoted_text (negative : Bool) (hn : IsNormalForm m e) :
    denoted? (finite negative m e hn).text.toList =
      some (negative, if negative then -(scaled m e).value else (scaled m e).value) := by
  obtain ⟨c, cs, hd, hc⟩ := exists_digit_short (scaled m e)
  have h := magnitude_short (scaled m e)
  rw [text, String.toList_ofList, hd, denoted_signed negative hc, ← hd, h]
  rfl

/-- No two finite values have the same short text. -/
theorem text_inj {v w : Binary64} (hv : v.isFinite) (hw : w.isFinite) (h : v.text = w.text) : v = w := by
  rcases v with ⟨s, m, e, hn⟩ | _ | _ <;> try cases hv
  rcases w with ⟨s', m', e', hn'⟩ | _ | _ <;> try cases hw
  have hexact := (denoted_text s hn).symm.trans (h ▸ denoted_text s' hn')
  obtain ⟨rfl, hval⟩ := Prod.mk.inj (Option.some.inj hexact)
  have hvalue : (scaled m e).value = (scaled m' e').value := by
    cases s
    · exact hval
    · exact neg_injective hval
  have hread := ofDecimal_congr false hvalue
  rw [ofDecimal_scaled hn, ofDecimal_scaled hn'] at hread
  injection hread with _ hm he
  subst hm he
  rfl

end Binary64
end Decimal

namespace Cursor

/-- A lexeme at the head of what is left is cut. -/
theorem next_of_tail {s : Cursor} {c : Char} {tail rest : List Char} {k : TokenKind}
    (hs : s.rest = c :: (tail ++ rest)) (ht : Lexeme.tail? c (tail ++ rest) = some (k, tail))
    (hk : k ≠ .newline) : s.next =
      (.ok ⟨k, String.ofList (c :: tail), s.line, s.col + (c :: tail).length⟩,
        ⟨s.current, s.current + (c :: tail).length, s.line, s.col + (c :: tail).length, rest⟩) := by
  obtain ⟨hgap, hquote⟩ := splitGap_of_tail ht
  simp [next, skipGap, token, skip, hs, hgap, hquote, ht, hk]

/-- A pointed numeral ends where no digit follows it. -/
theorem next_pointed {s : Cursor} {whole frac rest : List Char} (hw : Digits whole) (hf : Digits frac)
    (hs : s.rest = whole ++ '.' :: frac ++ rest) (hr : ∀ c ∈ rest.head?, c.isDigit = false) :
    s.next = (.ok ⟨.number, String.ofList (whole ++ '.' :: frac), s.line,
        s.col + (whole ++ '.' :: frac).length⟩,
      ⟨s.current, s.current + (whole ++ '.' :: frac).length, s.line,
        s.col + (whole ++ '.' :: frac).length, rest⟩) := by
  obtain ⟨c, cs, rfl⟩ := List.exists_cons_of_ne_nil hw.1
  obtain ⟨hc, hcs⟩ := List.forall_mem_cons.mp hw.2
  have ht : Lexeme.tail? c (cs ++ '.' :: frac ++ rest) = some (.number, cs ++ '.' :: frac) := by
    rw [Lexeme.tail?, if_pos hc, numberTail_pointed hcs hf hr]
  exact next_of_tail hs ht (by decide)

end Cursor

namespace Decimal.Binary64

/-- The positional text of a finite value is digits, a point and digits, with a minus if the value has
one. It denotes the number that the short text denotes, with the same sign. What stands behind the
minus, if there is one, is cut as one number token wherever no digit follows it. -/
theorem positional_exact {m : Nat} {e : Int} (hn : IsNormalForm m e) (negative : Bool) :
    ∃ text x, (∃ whole frac, Digits whole ∧ Digits frac ∧ text = whole ++ '.' :: frac) ∧
      (finite negative m e hn).positional? = some (String.ofList (signed negative text)) ∧
      denoted? (finite negative m e hn).text.toList = some (negative, x) ∧
      denoted? (signed negative text) = some (negative, x) ∧
      ∀ (s : Cursor) (rest : List Char), s.rest = text ++ rest →
        (∀ c ∈ rest.head?, c.isDigit = false) → s.next =
          (.ok ⟨.number, String.ofList text, s.line, s.col + text.length⟩,
            ⟨s.current, s.current + text.length, s.line, s.col + text.length, rest⟩) := by
  obtain ⟨whole, frac, hw, hf, hp, -⟩ := positional_spec (scaled m e)
  have hmag := magnitude_positional (scaled m e)
  refine ⟨(scaled m e).positional, _, ⟨whole, frac, hw, hf, hp⟩, rfl, denoted_text negative hn, ?_, ?_⟩
  · obtain ⟨c, cs, rfl⟩ := List.exists_cons_of_ne_nil hw.1
    rw [List.cons_append] at hp
    rw [hp, denoted_signed negative (hw.2 c List.mem_cons_self), ← hp, hmag]
    rfl
  · rw [hp]
    exact fun s rest => Cursor.next_pointed hw hf

/-- A power of ten that is written with an exponent, and its zeros. -/
theorem positional_exact_power : ∃ hn x,
    (finite true 4768371582031250 21 hn).text = "-1e+22" ∧
    (finite true 4768371582031250 21 hn).positional? = some "-10000000000000000000000.0" ∧
    denoted? "-1e+22".toList = some (true, x) ∧
    denoted? "-10000000000000000000000.0".toList = some (true, x) := by
  have hn : IsNormalForm 4768371582031250 21 := by decide
  have hscaled : scaled 4768371582031250 21 = ⟨1, 22⟩ := by decide +kernel
  have htext : (finite true 4768371582031250 21 hn).text = "-1e+22" := by
    rw [Binary64.text, hscaled]
    decide
  have hpos : (finite true 4768371582031250 21 hn).positional? =
      some "-10000000000000000000000.0" := by
    rw [positional?, hscaled]
    decide
  obtain ⟨text, x, -, htext', hshort, hlong, -⟩ := positional_exact hn true
  have heq : String.ofList (signed true text) = "-10000000000000000000000.0" :=
    Option.some.inj (htext'.symm.trans hpos)
  refine ⟨hn, x, htext, hpos, htext ▸ hshort, ?_⟩
  rw [← heq, String.toList_ofList]
  exact hlong

end Decimal.Binary64
end ArrowLang
