import ArrowLang.Text.Quoted
import Mathlib

/-!
# Quoted text can be read back

Each code of a quoted text stands for one character wherever it is, so no two texts are quoted alike.
-/
namespace ArrowLang.Text

/-- A hexadecimal digit in lower case as a number. -/
def hexDigit (c : Char) : Nat := if c.isDigit then c.toNat - 48 else c.toNat - 87

def hexNumber (ds : List Char) : Nat := ds.foldl (fun n c => 16 * n + hexDigit c) 0

/-- The character that the first code stands for, and what is behind the code. -/
def readCode : List Char → Option (Char × List Char)
  | [] => none
  | '\\' :: 'n' :: cs => some ('\n', cs)
  | '\\' :: 'r' :: cs => some ('\r', cs)
  | '\\' :: 't' :: cs => some ('\t', cs)
  | '\\' :: 'x' :: cs => some (Char.ofNat (hexNumber (cs.take 2)), cs.drop 2)
  | '\\' :: 'u' :: cs => some (Char.ofNat (hexNumber (cs.take 4)), cs.drop 4)
  | '\\' :: 'U' :: cs => some (Char.ofNat (hexNumber (cs.take 8)), cs.drop 8)
  | '\\' :: c :: cs => some (c, cs)
  | c :: cs => some (c, cs)

theorem hexDigit_digitChar : ∀ k < 16, hexDigit (Nat.digitChar k) = k := by decide

theorem hexNumber_hexDigits {width n : Nat} (h : n < 16 ^ width) :
    hexNumber (hexDigits width n) = n := by
  induction width generalizing n with
  | zero => exact (Nat.lt_one_iff.mp h).symm
  | succ width ih =>
    have hdiv : n / 16 < 16 ^ width := Nat.div_lt_of_lt_mul (by rwa [← Nat.pow_succ'])
    have hnumber := ih hdiv
    unfold hexNumber at hnumber
    rw [hexDigits, hexNumber, List.foldl_append, hnumber]
    simp only [List.foldl_cons, List.foldl_nil, hexDigit_digitChar _ (Nat.mod_lt n (by decide))]
    exact Nat.div_add_mod n 16

theorem readCode_hexDigits {width : Nat} {c : Char} (h : c.toNat < 16 ^ width) (rest : List Char) :
    Char.ofNat (hexNumber ((hexDigits width c.toNat ++ rest).take width)) = c ∧
      (hexDigits width c.toNat ++ rest).drop width = rest := by
  have hlen := length_hexDigits width c.toNat
  rw [List.take_left' hlen, List.drop_left' hlen, hexNumber_hexDigits h, Char.ofNat_toNat]
  exact ⟨rfl, rfl⟩

theorem readCode_codeEscape (c : Char) (rest : List Char) :
    readCode (codeEscape c.toNat ++ rest) = some (c, rest) := by
  have hcode (width : Nat) (h : c.toNat < 16 ^ width) := readCode_hexDigits h rest
  unfold codeEscape
  split
  · next h =>
    obtain ⟨hc, hrest⟩ := hcode 2 h
    rw [List.cons_append, List.cons_append, readCode, hc, hrest]
  split
  · next h =>
    obtain ⟨hc, hrest⟩ := hcode 4 h
    rw [List.cons_append, List.cons_append, readCode, hc, hrest]
  · have h : c.toNat < 16 ^ 8 := by
      rcases c.valid with h | ⟨-, h⟩ <;> exact lt_trans h (by decide)
    obtain ⟨hc, hrest⟩ := hcode 8 h
    rw [List.cons_append, List.cons_append, readCode, hc, hrest]

theorem quoteMark_cases (text : List Char) : quoteMark text = '\'' ∨ quoteMark text = '"' := by
  unfold quoteMark
  split
  · exact .inr rfl
  · exact .inl rfl

/-- A code is read back as its character, whatever follows it. -/
theorem readCode_quotedChar {quote : Char} (hq : quote = '\'' ∨ quote = '"') (c : Char)
    (rest : List Char) : readCode (quotedChar quote c ++ rest) = some (c, rest) := by
  unfold quotedChar
  split
  · next h =>
    rcases h with rfl | rfl
    · rfl
    · rcases hq with rfl | rfl <;> rfl
  next hplain =>
  split
  · next h => exact h ▸ rfl
  split
  · next h => exact h ▸ rfl
  split
  · next h => exact h ▸ rfl
  split
  · have hc : c ≠ '\\' := fun h => hplain (.inl h)
    simp [readCode, hc]
  · exact readCode_codeEscape c rest

theorem flatMap_quotedChar_inj {quote : Char} (hq : quote = '\'' ∨ quote = '"') {cs ds : List Char}
    (h : cs.flatMap (quotedChar quote) = ds.flatMap (quotedChar quote)) : cs = ds := by
  induction cs generalizing ds with
  | nil =>
    cases ds with
    | nil => rfl
    | cons d ds =>
      have hread := congrArg readCode h
      rw [List.flatMap_cons, readCode_quotedChar hq] at hread
      cases hread
  | cons c cs ih =>
    have hread := congrArg readCode h
    rw [List.flatMap_cons, readCode_quotedChar hq] at hread
    cases ds with
    | nil => cases hread
    | cons d ds =>
      rw [List.flatMap_cons, readCode_quotedChar hq] at hread
      obtain ⟨rfl, hrest⟩ := Prod.mk.inj (Option.some.inj hread)
      rw [ih hrest]

/-- No two texts are quoted alike. -/
theorem quoted_inj {s t : String} (h : quoted s = quoted t) : s = t := by
  have hchars := String.ofList_injective h
  unfold quotedChars at hchars
  obtain ⟨hquote, hbody⟩ := List.cons.inj hchars
  rw [← hquote] at hbody
  exact String.toList_inj.mp
    (flatMap_quotedChar_inj (quoteMark_cases s.toList) (List.append_cancel_right hbody))

theorem blank_le_hexDigits (width n : Nat) : ∀ c ∈ hexDigits width n, ' ' ≤ c := by
  induction width generalizing n with
  | zero => nofun
  | succ width ih =>
    have hdigit : ∀ k < 16, ' ' ≤ Nat.digitChar k := by decide
    rw [hexDigits, List.forall_mem_append, List.forall_mem_singleton]
    exact ⟨ih _, hdigit _ (Nat.mod_lt n (by decide))⟩

theorem blank_le_escape {d : Char} {cs : List Char} (hd : ' ' ≤ d) (hcs : ∀ c ∈ cs, ' ' ≤ c) :
    ∀ c ∈ '\\' :: d :: cs, ' ' ≤ c :=
  List.forall_mem_cons.mpr ⟨by decide, List.forall_mem_cons.mpr ⟨hd, hcs⟩⟩

theorem blank_le_codeEscape (n : Nat) : ∀ c ∈ codeEscape n, ' ' ≤ c := by
  unfold codeEscape
  split
  · exact blank_le_escape (by decide) (blank_le_hexDigits 2 n)
  split
  · exact blank_le_escape (by decide) (blank_le_hexDigits 4 n)
  · exact blank_le_escape (by decide) (blank_le_hexDigits 8 n)

theorem blank_le_of_isPrintable {c : Char} (h : isPrintable c) : ' ' ≤ c := by
  rw [Char.le_def, UInt32.le_iff_toNat_le]
  change 32 ≤ c.toNat
  unfold isPrintable at h
  split at h
  · simp only [Bool.and_eq_true, decide_eq_true_eq] at h
    exact h.1
  · omega

theorem blank_le_quotedChar {quote : Char} (hq : ' ' ≤ quote) (c : Char) :
    ∀ d ∈ quotedChar quote c, ' ' ≤ d := by
  unfold quotedChar
  split
  · next h =>
    rcases h with rfl | rfl
    · exact blank_le_escape (by decide) nofun
    · exact blank_le_escape hq nofun
  split
  · exact blank_le_escape (by decide) nofun
  split
  · exact blank_le_escape (by decide) nofun
  split
  · exact blank_le_escape (by decide) nofun
  split
  · next h =>
    rw [List.forall_mem_singleton]
    exact blank_le_of_isPrintable h
  · exact blank_le_codeEscape c.toNat

theorem blank_le_quoted (s : String) : ∀ c ∈ (quoted s).toList, ' ' ≤ c := by
  have hq : ' ' ≤ quoteMark s.toList := by
    rcases quoteMark_cases s.toList with h | h <;> rw [h] <;> decide
  rw [quoted, String.toList_ofList, quotedChars, List.cons_append, List.forall_mem_cons,
    List.forall_mem_append, List.forall_mem_singleton, List.forall_mem_flatMap]
  exact ⟨hq, fun c _ => blank_le_quotedChar hq c, hq⟩

end ArrowLang.Text
