import ArrowLang.Coloring
import ArrowLang.Proofs.Pieces

/-!
# Rules of the colouring

Outside quotes, the rule that applies to a lexeme takes all of it, whatever stands in front of it, and
gives the class of its kind, but for keywords behind a word character. A piece that begins neither a
comment nor a string ends before the next one that does.
-/
namespace ArrowLang

open Lexeme

namespace Text

/-- No range of the one list overlaps with one of the other. -/
def apart (rs ss : List (Nat × Nat)) : Bool :=
  rs.all fun r => ss.all fun s => Nat.blt r.2 s.1 || Nat.blt s.2 r.1

theorem inRanges_of_apart {rs ss : List (Nat × Nat)} (h : apart rs ss) {n : Nat}
    (hn : inRanges rs n) : inRanges ss n = false := by
  obtain ⟨r, hr, hrn⟩ := List.any_eq_true.mp hn
  rw [inRanges, List.any_eq_false]
  intro s hs
  have hrs := List.all_eq_true.mp (List.all_eq_true.mp h r hr) s hs
  simp only [Bool.or_eq_true, Nat.blt_eq] at hrs
  simp only [Bool.and_eq_true, decide_eq_true_eq] at hrn ⊢
  omega

theorem apart_letters_blanks : apart letterRanges blankRanges := by decide +kernel

theorem apart_letters_digits : apart letterRanges decimalDigitRanges := by decide +kernel

/-- What holds of the characters of ASCII one by one. -/
theorem ascii_cases {p : Char → Prop} (h : ∀ n < 128, p (Char.ofNat n)) {c : Char}
    (hc : c.toNat < 128) : p c := by
  have hp := h c.toNat hc
  rwa [Char.ofNat_toNat] at hp

theorem isLetter_cases {c : Char} (h : isLetter c) :
    c.toNat < 128 ∧ c.isAlpha ∨ ¬ c.toNat < 128 ∧ inRanges letterRanges c.toNat := by
  unfold isLetter at h
  split at h
  · next hc => exact .inl ⟨hc, h⟩
  · next hc => exact .inr ⟨hc, h⟩

end Text

/-- The words that are no names. -/
def TokenKind.isKeyword (k : TokenKind) : Bool :=
  k matches .andWord | .orWord | .notWord | .trueWord | .falseWord

namespace Coloring

open Text (isBlank isDecimalDigit isLetter)

theorem isBlank_of_wordStart {c : Char} (h : isWordStart c) : isBlank c = false := by
  rcases Bool.or_eq_true_iff.mp h with h | h
  · rcases Text.isLetter_cases h with ⟨hc, ha⟩ | ⟨-, hr⟩
    · revert ha
      exact Text.ascii_cases (p := fun c => c.isAlpha = true → isBlank c = false) (by decide) hc
    · exact Text.inRanges_of_apart Text.apart_letters_blanks hr
  · obtain rfl := of_decide_eq_true h
    rfl

theorem isNameStart_of_wordStart {c : Char} (h : isWordStart c) : isNameStart c := by
  have hw : isWordChar c := by
    unfold isWordStart at h
    unfold isWordChar
    simp only [Bool.or_eq_true] at h ⊢
    exact h.imp_left .inl
  have hd : isDecimalDigit c = false := by
    rcases Bool.or_eq_true_iff.mp h with h | h
    · unfold isDecimalDigit
      rcases Text.isLetter_cases h with ⟨hc, ha⟩ | ⟨hc, hr⟩
      · rw [if_pos hc]
        revert ha
        exact Text.ascii_cases (p := fun c => c.isAlpha = true → c.isDigit = false) (by decide) hc
      · rw [if_neg hc]
        exact Text.inRanges_of_apart Text.apart_letters_digits hr
    · obtain rfl := of_decide_eq_true h
      rfl
  simp [isNameStart, hw, hd]

theorem pieces_cons {m m' : Mode} {b : Option Char} {c : Char} {cs : List Char} {k : Class} {n : Nat}
    (h : piece m b c cs = (k, n, m')) :
    pieces m b (c :: cs) = ⟨k, c :: cs.take n⟩ :: pieces m' (c :: cs.take n).getLast? (cs.drop n) := by
  rw [pieces, h]

/-- A word that is a keyword begins like a word. -/
theorem wordStart_of_keyword {b : Option Char} {c : Char} {cs : List Char}
    (h : wholeWord b (c :: cs) ∈ wordOperators ++ constants) : isWordStart c := by
  have hkey : ∀ w ∈ wordOperators ++ constants, w.head?.any isWordStart := by decide
  have hhead := hkey _ h
  unfold wholeWord at hhead
  rw [List.takeWhile_cons] at hhead
  split_ifs at hhead
  · cases hhead
  · simpa using hhead
  · cases hhead

theorem keyword_eq_false {b : Option Char} {c : Char} (hc : isWordStart c = false) (cs : List Char) :
    wordOperators.contains (wholeWord b (c :: cs)) = false ∧
      constants.contains (wholeWord b (c :: cs)) = false := by
  have hnone : wholeWord b (c :: cs) ∉ wordOperators ++ constants := by
    intro h
    rw [wordStart_of_keyword h] at hc
    cases hc
  rw [List.mem_append, not_or] at hnone
  simpa using hnone

/-- The classes of pieces that are lexemes other than strings. -/
def Class.IsLexeme (k : Class) : Prop := k ∉ [.text, .comment, .string, .escape, .error]

instance (k : Class) : Decidable k.IsLexeme := inferInstanceAs (Decidable (¬ _))

theorem Class.IsLexeme.ne_string {k : Class} (h : k.IsLexeme) : k ≠ .string := by
  rintro rfl
  exact absurd h (by decide)

theorem Class.IsLexeme.ne_comment {k : Class} (h : k.IsLexeme) : k ≠ .comment := by
  rintro rfl
  exact absurd h (by decide)

/-- The class of a lexeme by its kind. A number is told by its point. -/
def classOf? (k : TokenKind) (lexeme : List Char) : Option Class :=
  match k with
  | .andWord | .orWord | .notWord => some .wordOperator
  | .trueWord | .falseWord => some .constant
  | .identifier => some .name
  | .number => some (if '.' ∈ lexeme then .float else .integer)
  | .leftBrace | .rightBrace | .leftSquare | .rightSquare | .leftParen | .rightParen | .comma
  | .pipe => some .punctuation
  | .string | .newline | .endOfText | .absent => none
  | _ => some .operator

theorem not_isKeyword_of_class {k : TokenKind} {lexeme : List Char} {kind : Class}
    (h : classOf? k lexeme = some kind) (hop : kind ≠ .wordOperator) (hconst : kind ≠ .constant) :
    k.isKeyword = false := by
  cases k <;>
    first
    | rfl
    | exact absurd (Option.some.inj h).symm hop
    | exact absurd (Option.some.inj h).symm hconst

theorem isLexeme_of_class {k : TokenKind} {lexeme : List Char} {kind : Class}
    (h : classOf? k lexeme = some kind) (b : Bool) : (if b then Class.name else kind).IsLexeme := by
  have hkind : kind.IsLexeme := by
    cases k <;> cases h <;> first | decide | (split <;> decide)
  cases b
  · exact hkind
  · exact (by decide : Class.name.IsLexeme)

/-- A number ends where its digits and its fraction end. -/
theorem number_eq (cs : List Char) : number cs =
    (if '.' ∈ numberTail cs then .float else .integer, (numberTail cs).length) := by
  have hwhole : '.' ∉ cs.takeWhile Char.isDigit := fun h => by cases List.mem_takeWhile_imp h
  unfold number numberTail
  rcases hd : cs.dropWhile Char.isDigit with _ | ⟨c, r⟩
  · simp [hwhole]
  · by_cases hc : c = '.'
    · subst hc
      rcases r with _ | ⟨d, r⟩
      · simp [hwhole]
      · by_cases hdig : d.isDigit
        · simp [hdig]
          omega
        · simp [hdig, hwhole]
    · simp [hc, hwhole]

theorem isBlank_of_isDigit {c : Char} (h : c.isDigit) : isBlank c = false := by
  have hc : c.toNat < 128 := by
    simp only [Char.isDigit, Bool.and_eq_true, decide_eq_true_eq] at h
    exact Nat.lt_of_le_of_lt h.2 (by decide)
  revert h
  exact Text.ascii_cases (p := fun c => c.isDigit = true → isBlank c = false) (by decide) hc

theorem ne_of_class {p : Char → Bool} {c d : Char} (hc : p c) (hd : p d = false) : c ≠ d := by
  rintro rfl
  rw [hc] at hd
  cases hd

theorem codePiece_digit (b : Option Char) {c : Char} (hc : c.isDigit) (cs : List Char) :
    codePiece b c cs =
      (if '.' ∈ numberTail cs then .float else .integer, (numberTail cs).length, .code) := by
  have hhash : c ≠ '#' := ne_of_class hc rfl
  have hquote : c ≠ '"' := ne_of_class hc rfl
  simp [codePiece, isBlank_of_isDigit hc, hhash, hquote, hc, number_eq]

theorem pairs_not_word : ∀ p ∈ pairs, isWordStart p.1 = false := by decide

theorem pairs_of_wordStart {c : Char} (hc : isWordStart c) (cs : List Char) :
    (cs.head?.any fun d => pairs.contains (c, d)) = false := by
  rw [Option.any_eq_false]
  intro d _
  rw [List.contains_eq_mem, decide_eq_false_iff_not]
  intro h
  rw [pairs_not_word _ h] at hc
  cases hc

theorem isOperatorChar_of_wordStart {c : Char} (hc : isWordStart c) : isOperatorChar c = false := by
  have hnot : ∀ d ∈ ['+', '-', '*', '/', '%', '^', '<', '>', '=', '!', ':', '?'],
      isWordStart d = false := by
    intro d hd
    fin_cases hd <;> rfl
  unfold isOperatorChar
  rw [List.contains_eq_mem, decide_eq_false_iff_not]
  intro h
  rw [hnot c h] at hc
  cases hc

theorem isKeyword_word (w : List Char) :
    (wordKind w).isKeyword ∨ wordKind w = .identifier := by
  unfold wordKind TokenKind.keyword?
  split <;> first | exact .inr rfl | exact .inl rfl

theorem classOf_word (w : List Char) : classOf? (wordKind w) w =
    some (if wordOperators.contains w then .wordOperator else if constants.contains w then .constant
      else .name) := by
  have hkey : ∀ s : String, String.ofList w = s → w = s.toList := by
    rintro s rfl
    exact String.toList_ofList.symm
  unfold wordKind TokenKind.keyword?
  split
  · next h => rw [hkey _ h]; rfl
  · next h => rw [hkey _ h]; rfl
  · next h => rw [hkey _ h]; rfl
  · next h => rw [hkey _ h]; rfl
  · next h => rw [hkey _ h]; rfl
  · next hand hor hnot htrue hfalse =>
    have hnone : ∀ v ∈ wordOperators ++ constants, w ≠ v := by
      intro v hv
      rintro rfl
      simp only [wordOperators, constants, List.cons_append, List.nil_append, List.mem_cons,
        List.not_mem_nil, or_false] at hv
      rcases hv with rfl | rfl | rfl | rfl | rfl
      · exact hand rfl
      · exact hor rfl
      · exact hnot rfl
      · exact htrue rfl
      · exact hfalse rfl
    have hop : wordOperators.contains w = false := by
      rw [List.contains_eq_mem, decide_eq_false_iff_not]
      exact fun hw => hnone w (List.mem_append_left _ hw) rfl
    have hconst : constants.contains w = false := by
      rw [List.contains_eq_mem, decide_eq_false_iff_not]
      exact fun hw => hnone w (List.mem_append_right _ hw) rfl
    rw [hop, hconst]
    rfl

/-- A word goes on to where no word character is. Behind a word character it is a name, keyword or
not. -/
theorem codePiece_word (b : Option Char) {c : Char} (hc : isWordStart c) (cs : List Char) :
    ∃ k, classOf? (wordKind (c :: cs.takeWhile isWordChar)) (c :: cs.takeWhile isWordChar) = some k ∧
      codePiece b c cs =
        (if isWord b then .name else k, (cs.takeWhile isWordChar).length, .code) := by
  have hhash : c ≠ '#' := ne_of_class hc rfl
  have hquote : c ≠ '"' := ne_of_class hc rfl
  have hdigit : c.isDigit = false := Bool.eq_false_iff.mpr (not_isDigit_of_isWordStart hc)
  have hname := isNameStart_of_wordStart hc
  have hchar : isWordChar c := (Bool.and_eq_true_iff.mp hname).1
  have hwhole : wholeWord b (c :: cs) = if isWord b then [] else c :: cs.takeWhile isWordChar := by
    rw [wholeWord, List.takeWhile_cons_of_pos hchar]
  refine ⟨_, classOf_word _, ?_⟩
  unfold codePiece
  simp only [isBlank_of_wordStart hc, hhash, hquote, hdigit, pairs_of_wordStart hc,
    isOperatorChar_of_wordStart hc, hname, hwhole, Bool.false_eq_true, if_false, if_true]
  by_cases hb : isWord b
  · simp only [hb, if_true]
    rfl
  · simp only [hb, if_false, Bool.false_eq_true]
    split_ifs <;> rfl

/-- The character in front of a piece tells classes apart of which all make lexemes. -/
theorem codePiece_before {c : Char} (hc : isWordStart c = false) (b b' : Option Char)
    (cs : List Char) : codePiece b c cs = codePiece b' c cs := by
  unfold codePiece
  simp only [keyword_eq_false hc, Bool.false_eq_true, if_false]

/-- What is no word, no number and no blank, and begins neither a comment nor a string. -/
theorem symbol_not_other {c : Char} (h : isOperatorChar c || isPunctuation c) :
    isBlank c = false ∧ c ≠ '#' ∧ c ≠ '"' ∧ c.isDigit = false ∧ isWordStart c = false ∧
      isNameStart c = false := by
  have hall : ∀ c ∈ ['+', '-', '*', '/', '%', '^', '<', '>', '=', '!', ':', '?'] ++
      ['(', ')', ',', '[', ']', '\x7b', '\x7d', '|'], isBlank c = false ∧ c ≠ '#' ∧ c ≠ '"' ∧
        c.isDigit = false ∧ isWordStart c = false ∧ isNameStart c = false := by
    intro c hc
    fin_cases hc <;> decide
  apply hall
  simpa [isOperatorChar, isPunctuation, or_assoc] using h

/-- The class of a symbol of one character. -/
def symbolClass (c : Char) : Class := if isOperatorChar c then .operator else .punctuation

theorem symbolClass_cases (c : Char) : symbolClass c = .operator ∨ symbolClass c = .punctuation := by
  unfold symbolClass
  split_ifs
  · exact .inl rfl
  · exact .inr rfl

theorem codePiece_symbol (b : Option Char) {c : Char} (h : isOperatorChar c || isPunctuation c)
    (cs : List Char) : codePiece b c cs = if cs.head?.any fun d => pairs.contains (c, d) then
      (.operator, 1, .code) else (symbolClass c, 0, .code) := by
  obtain ⟨hblank, hhash, hquote, hdigit, hword, hname⟩ := symbol_not_other h
  unfold codePiece symbolClass
  simp only [hblank, hhash, hquote, hdigit, hname, keyword_eq_false hword, Bool.false_eq_true,
    if_false]
  split_ifs with hpair hop hpunct
  · rfl
  · rfl
  · rfl
  · simp [hop, hpunct] at h

theorem symbol_of_single {c : Char} {k : TokenKind} (h : TokenKind.single? c = some k) :
    (isOperatorChar c || isPunctuation c) ∧ (∀ d, pairs.contains (c, d) = false) ∧
      ∀ lexeme, classOf? k lexeme = some (symbolClass c) := by
  unfold TokenKind.single? at h
  split at h <;> first | cases h; done |
    (cases h; exact ⟨rfl, fun d => by simp [pairs], fun lexeme => rfl⟩)

theorem symbol_of_compound {c : Char} {seconds : List (Char × TokenKind)} {alone : TokenKind}
    (h : TokenKind.compound? c = some (seconds, alone)) :
    isOperatorChar c ∧ (∀ d, pairs.contains (c, d) = seconds.any fun second => d = second.1) ∧
      ∀ k ∈ alone :: seconds.map Prod.snd, ∀ lexeme, classOf? k lexeme = some .operator := by
  unfold TokenKind.compound? at h
  split at h <;> simp only [Option.some.injEq, Prod.mk.injEq, reduceCtorEq] at h <;>
    obtain ⟨rfl, rfl⟩ := h <;>
    exact ⟨rfl, fun d => by simp [pairs, Bool.or_comm], by simp [classOf?]⟩

/-- The operators are as long as those that are cut. -/
theorem codePiece_operator (b : Option Char) {c : Char} {cs tail : List Char} {k : TokenKind}
    (h : operatorTail? c cs = some (k, tail)) :
    ∃ k', (∀ lexeme, classOf? k lexeme = some k') ∧ (k' = .operator ∨ k' = .punctuation) ∧
      codePiece b c cs = (k', tail.length, .code) := by
  unfold operatorTail? at h
  split at h
  · next hs =>
    obtain ⟨hc, hnone, hclass⟩ := symbol_of_single hs
    obtain ⟨rfl, rfl⟩ := by simpa using h
    refine ⟨_, hclass, symbolClass_cases c, ?_⟩
    simp only [codePiece_symbol b hc cs, hnone]
    simp
  · obtain ⟨⟨seconds, alone⟩, hs, h⟩ := Option.map_eq_some_iff.mp h
    obtain ⟨hc, hpairs, hclass⟩ := symbol_of_compound hs
    have hpiece := codePiece_symbol b (Bool.or_eq_true_iff.mpr (.inl hc)) cs
    simp only [hpairs] at hpiece
    dsimp only at h
    split at h
    · next d second hf =>
      obtain ⟨rfl, rfl⟩ := by simpa using h
      have hd : cs.head? = some d := by simpa using List.find?_some hf
      have hany : (seconds.any fun second => d = second.1) = true := by
        rw [List.any_eq_true]
        exact ⟨_, List.mem_of_find?_eq_some hf, by simp⟩
      have hmem : second ∈ alone :: seconds.map Prod.snd :=
        List.mem_cons_of_mem _ (List.mem_map_of_mem (List.mem_of_find?_eq_some hf))
      refine ⟨_, hclass second hmem, .inl rfl, ?_⟩
      rw [hpiece, hd, Option.any_some, hany]
      rfl
    · next hf =>
      obtain ⟨rfl, rfl⟩ := by simpa using h
      have hany : (cs.head?.any fun d => seconds.any fun second => d = second.1) = false := by
        rw [Option.any_eq_false]
        intro d hd
        rw [List.any_eq_false]
        intro p hp
        simpa [hd] using List.find?_eq_none.mp hf p hp
      refine ⟨_, hclass alone List.mem_cons_self, .inl rfl, ?_⟩
      rw [hpiece, hany, symbolClass, if_pos hc]
      rfl

theorem not_isKeyword_of_operator {c : Char} {cs tail : List Char} {k : TokenKind}
    (h : operatorTail? c cs = some (k, tail)) : k.isKeyword = false := by
  obtain ⟨k', hclass, hk', -⟩ := codePiece_operator none h
  rcases hk' with rfl | rfl <;> exact not_isKeyword_of_class (hclass []) (by decide) (by decide)

/-- What is cut as a lexeme is a piece of the class of its kind, or a name if it is a keyword behind a
word character. -/
theorem codePiece_tail (b : Option Char) {c : Char} {cs tail : List Char} {k : TokenKind}
    (h : tail? c cs = some (k, tail)) (hk : k ≠ .newline) :
    ∃ k', classOf? k (c :: tail) = some k' ∧
      codePiece b c cs = (if k.isKeyword && isWord b then .name else k', tail.length, .code) := by
  rcases tail_cases h with ⟨hc, rfl, rfl⟩ | ⟨hc, rfl, rfl⟩ | ⟨-, hn, -⟩ | h
  · have hpoint : '.' ∈ c :: numberTail cs ↔ '.' ∈ numberTail cs := by
      simp [ne_of_class (d := '.') hc rfl |>.symm]
    refine ⟨_, rfl, ?_⟩
    simp only [codePiece_digit b hc, hpoint]
    rfl
  · obtain ⟨k', hclass, hpiece⟩ := codePiece_word b hc cs
    refine ⟨k', hclass, hpiece.trans ?_⟩
    rcases isKeyword_word (c :: cs.takeWhile isWordChar) with hkey | hname
    · rw [hkey, Bool.true_and]
    · rw [hname] at hclass
      obtain rfl := Option.some.inj hclass
      simp
  · exact absurd hn hk
  · obtain ⟨k', hclass, -, hpiece⟩ := codePiece_operator b h
    refine ⟨k', hclass _, hpiece.trans ?_⟩
    rw [not_isKeyword_of_operator h]
    rfl

/-- A character that begins neither a comment nor a string. -/
def isInert (c : Char) : Bool := c ≠ '#' && c ≠ '"'

theorem isInert_of_class {p : Char → Bool} (hhash : p '#' = false) (hquote : p '"' = false) {c : Char}
    (hc : p c) : isInert c := by
  simp [isInert, ne_of_class hc hhash, ne_of_class hc hquote]

/-- How many characters it is at least up to the next comment or string. -/
def reach (cs : List Char) : Nat := (cs.takeWhile isInert).length

theorem reach_cons {c : Char} (hc : isInert c) (cs : List Char) : reach (c :: cs) = reach cs + 1 := by
  simp [reach, hc]

theorem le_reach {tail : List Char} (h : ∀ d ∈ tail, isInert d) (rest : List Char) :
    tail.length ≤ reach (tail ++ rest) := by
  rw [reach, List.takeWhile_append_of_pos h, List.length_append]
  omega

theorem length_takeWhile_le {p : Char → Bool} (hhash : p '#' = false) (hquote : p '"' = false)
    (cs : List Char) : (cs.takeWhile p).length ≤ reach cs := by
  have hinert : ∀ d ∈ cs.takeWhile p, isInert d := fun d hd =>
    isInert_of_class hhash hquote (List.mem_takeWhile_imp hd)
  have h := le_reach hinert (cs.dropWhile p)
  rwa [List.takeWhile_append_dropWhile] at h

theorem inert_numeral {cs : List Char} (h : Numeral cs) : ∀ d ∈ cs, isInert d := by
  have hdigits : ∀ ds, Digits ds → ∀ d ∈ ds, isInert d := fun ds hds d hd =>
    isInert_of_class rfl rfl (hds.2 d hd)
  cases h with
  | whole hd => exact hdigits _ hd
  | pointed hd hf =>
    intro d hd'
    rcases List.mem_append.mp hd' with hd' | hd'
    · exact hdigits _ hd d hd'
    · rcases List.mem_cons.mp hd' with rfl | hd'
      · rfl
      · exact hdigits _ hf d hd'

/-- No string and no comment begins in a piece that begins with another character. -/
theorem codePiece_inert (b : Option Char) {c : Char} (hc : isInert c) (cs : List Char) :
    ∃ k n, codePiece b c cs = (k, n, .code) ∧ k ≠ .string ∧ k ≠ .comment ∧ n ≤ reach cs := by
  by_cases hdigit : c.isDigit
  · refine ⟨_, _, codePiece_digit b hdigit cs, ?_, ?_, ?_⟩
    · split_ifs <;> decide
    · split_ifs <;> decide
    · obtain ⟨rest, hrest⟩ := numberTail_isPrefix cs
      have hle := le_reach (fun d hd => inert_numeral (numeral_numberTail hdigit cs) d
        (List.mem_cons_of_mem c hd)) rest
      rwa [hrest] at hle
  · by_cases hword : isWordStart c
    · obtain ⟨k, hclass, hpiece⟩ := codePiece_word b hword cs
      have hk := isLexeme_of_class hclass (isWord b)
      exact ⟨_, _, hpiece, hk.ne_string, hk.ne_comment, length_takeWhile_le rfl rfl cs⟩
    · have hkey := keyword_eq_false (b := b) (Bool.eq_false_iff.mpr hword) cs
      obtain ⟨hhash, hquote⟩ : c ≠ '#' ∧ c ≠ '"' := by simpa [isInert] using hc
      unfold codePiece
      simp only [hkey, hhash, hquote, hdigit, if_false, Bool.false_eq_true]
      split_ifs with hblank hpair hop hname hpunct
      · exact ⟨_, _, rfl, by decide, by decide, length_takeWhile_le rfl rfl cs⟩
      · refine ⟨_, _, rfl, by decide, by decide, ?_⟩
        have hsecond : ∀ p ∈ pairs, isInert p.2 := by decide
        rcases cs with _ | ⟨d, cs⟩
        · cases hpair
        · have hd : isInert d := hsecond (c, d) (by simpa using hpair)
          rw [reach_cons hd]
          omega
      · exact ⟨_, _, rfl, by decide, by decide, Nat.zero_le _⟩
      · exact ⟨_, _, rfl, by decide, by decide, length_takeWhile_le rfl rfl cs⟩
      · exact ⟨_, _, rfl, by decide, by decide, Nat.zero_le _⟩
      · exact ⟨_, _, rfl, by decide, by decide, Nat.zero_le _⟩

end Coloring
end ArrowLang
