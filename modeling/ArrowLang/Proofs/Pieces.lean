import ArrowLang.Proofs.Lexed
import ArrowLang.Tree.Canonical
import Mathlib

/-!
# Pieces of text

A piece is cut into the same tokens whatever follows it, a word if a character follows that no word
holds. A text that is put together from pieces and words is cut piece by piece.
-/
namespace ArrowLang

open Lexeme

/-- What follows a word in a text that is put together. -/
def Boundary (cs : List Char) : Prop :=
  ∀ c ∈ cs.head?, c = ' ' ∨ c = ',' ∨ c = ')' ∨ c = ']' ∨ c = '\x7d' ∨ c = '\n'

/-- The characters are cut into the tokens. -/
def Piece (cs : List Char) (ts : List Token) : Prop :=
  ∀ rest, lex (cs ++ rest) = ts.map .ok ++ lex rest

/-- The characters are cut into the tokens if a word may end behind them. -/
def Word (cs : List Char) (ts : List Token) : Prop :=
  ∀ rest, Boundary rest → lex (cs ++ rest) = ts.map .ok ++ lex rest

theorem Piece.word {cs : List Char} {ts : List Token} (h : Piece cs ts) : Word cs ts :=
  fun rest _ => h rest

theorem Piece.append {as bs : List Char} {ts us : List Token} (ha : Piece as ts) (hb : Piece bs us) :
    Piece (as ++ bs) (ts ++ us) := by
  intro rest
  rw [List.append_assoc, ha, hb, List.map_append, List.append_assoc]

theorem Piece.word_append {as bs : List Char} {ts us : List Token} (ha : Piece as ts)
    (hb : Word bs us) : Word (as ++ bs) (ts ++ us) := by
  intro rest hr
  rw [List.append_assoc, ha, hb rest hr, List.map_append, List.append_assoc]

/-- Characters that a word may stand in front of. -/
def Divides (cs : List Char) : Prop := cs ≠ [] ∧ Boundary cs

theorem Divides.append {cs : List Char} (h : Divides cs) (rest : List Char) :
    Boundary (cs ++ rest) := by
  obtain ⟨c, cs, rfl⟩ := List.exists_cons_of_ne_nil h.1
  exact h.2

theorem Word.piece_append {as bs : List Char} {ts us : List Token} (ha : Word as ts)
    (hd : Divides bs) (hb : Piece bs us) : Piece (as ++ bs) (ts ++ us) := by
  intro rest
  rw [List.append_assoc, ha _ (hd.append rest), hb, List.map_append, List.append_assoc]

theorem Word.append {as bs : List Char} {ts us : List Token} (ha : Word as ts)
    (hd : Divides bs) (hb : Word bs us) : Word (as ++ bs) (ts ++ us) := by
  intro rest hr
  rw [List.append_assoc, ha _ (hd.append rest), hb rest hr, List.map_append, List.append_assoc]

theorem piece_blank : Piece [' '] [] := by
  intro rest
  exact lex_congr rfl

/-- No lexeme begins with a gap or a quote. -/
theorem splitGap_of_tail {c : Char} {cs tail : List Char} {k : TokenKind}
    (h : tail? c cs = some (k, tail)) : splitGap false (c :: cs) = ([], c :: cs) ∧ c ≠ '"' := by
  have hgap : c ≠ ' ' ∧ c ≠ '\r' ∧ c ≠ '\t' ∧ c ≠ '#' := by
    refine ⟨?_, ?_, ?_, ?_⟩ <;> rintro rfl <;> cases h
  constructor
  · rw [splitGap, if_neg (by simp [isGapChar, hgap]), if_neg hgap.2.2.2]
  · rintro rfl
    cases h

/-- A lexeme at the head of a text is its first token. -/
theorem lex_of_tail {c : Char} {tail rest : List Char} {k : TokenKind}
    (h : tail? c (tail ++ rest) = some (k, tail)) :
    lex (c :: tail ++ rest) = .ok ⟨k, String.ofList (c :: tail), 0, 0⟩ :: lex rest := by
  obtain ⟨hg, hq⟩ := splitGap_of_tail h
  have hc : cut (c :: tail ++ rest) = (.ok ⟨k, String.ofList (c :: tail), 0, 0⟩, rest) := by
    rw [cut, List.cons_append, hg, cutToken, if_neg hq, h]
    simp
  exact lex_of_cut hc (by simpa [Outcome.isEnd] using (tail_kind_ne h).1)

/-- The token of a kind that has only one spelling, without a position. -/
def mark (k : TokenKind) : Token := ⟨k, String.ofList (k.spelling?.getD []), 0, 0⟩

@[simp] theorem kind_mark (k : TokenKind) : (mark k).kind = k := rfl

theorem kind_of_bare_mark {t : Token} {k : TokenKind} (h : t.bare = mark k) : t.kind = k :=
  congrArg Token.kind h

theorem bare_of_spelled {t : Token} (h : t.Spelled) : t.bare = mark t.kind := by
  rw [Token.Spelled] at h
  rw [mark, h, Option.getD_some, String.ofList_toList]
  rfl

/-- Punctuation, which ends with its first character. -/
theorem piece_single {c : Char} {k : TokenKind} (h : TokenKind.single? c = some k)
    (ht : ∀ rest, tail? c rest = some (k, [])) : Piece [c] [mark k] := by
  intro rest
  have hl : lex ([c] ++ rest) = .ok ⟨k, String.ofList [c], 0, 0⟩ :: lex rest :=
    lex_of_tail (ht rest)
  rw [mark, TokenKind.spelling_of_single h]
  exact hl

theorem piece_leftParen : Piece ['('] [mark .leftParen] := piece_single rfl fun _ => rfl
theorem piece_rightParen : Piece [')'] [mark .rightParen] := piece_single rfl fun _ => rfl
theorem piece_leftSquare : Piece ['['] [mark .leftSquare] := piece_single rfl fun _ => rfl
theorem piece_rightSquare : Piece [']'] [mark .rightSquare] := piece_single rfl fun _ => rfl
theorem piece_leftBrace : Piece ['\x7b'] [mark .leftBrace] := piece_single rfl fun _ => rfl
theorem piece_rightBrace : Piece ['\x7d'] [mark .rightBrace] := piece_single rfl fun _ => rfl
theorem piece_comma : Piece [','] [mark .comma] := piece_single rfl fun _ => rfl
theorem piece_pipe : Piece ['|'] [mark .pipe] := piece_single rfl fun _ => rfl
theorem piece_question : Piece ['?'] [mark .question] := piece_single rfl fun _ => rfl

/-- An operator in front of a blank. -/
theorem tail_of_operator {k : TokenKind} (hi : (Binding.of k).associativity.isSome) {c : Char}
    {tail : List Char} (hs : k.spelling? = some (c :: tail)) (rest : List Char) :
    tail? c (tail ++ ' ' :: rest) = some (k, tail) := by
  cases k <;> first | (cases hi; done) | (cases hs; rfl)

theorem piece_operator {o : Token} (hi : (Binding.of o.kind).associativity.isSome) (hs : o.Spelled) :
    Piece (o.lexeme.toList ++ [' ']) [mark o.kind] := by
  rw [Token.Spelled] at hs
  rcases hl : o.lexeme.toList with _ | ⟨c, tail⟩
  · rw [hl] at hs
    generalize o.kind = k at hs
    cases k <;> cases hs
  · intro rest
    rw [hl] at hs
    have ht := lex_of_tail (tail_of_operator hi hs rest)
    rw [List.append_assoc, mark, hs]
    exact ht.trans (congrArg _ (piece_blank rest))

theorem piece_equal : Piece ['=', ' '] [mark .equal] := by
  intro rest
  have ht : tail? '=' ([] ++ ' ' :: rest) = some (.equal, []) := rfl
  exact (lex_of_tail ht).trans (congrArg _ (piece_blank rest))

theorem piece_not : Piece ['n', 'o', 't', ' '] [mark .notWord] := by
  intro rest
  have ht : tail? 'n' (['o', 't'] ++ ' ' :: rest) = some (.notWord, ['o', 't']) := rfl
  exact (lex_of_tail ht).trans (congrArg _ (piece_blank rest))

/-- A text that does not make an arrow of a minus in front of it. -/
def Opens (cs : List Char) : Prop := ∃ c r, cs = c :: r ∧ c ≠ '>' ∧ c ≠ '\n'

theorem word_minus {cs : List Char} {ts : List Token} (ho : Opens cs) (h : Word cs ts) :
    Word ('-' :: cs) (mark .minus :: ts) := by
  obtain ⟨c, r, rfl, hc, -⟩ := ho
  intro rest hr
  have ht : tail? '-' ([] ++ (c :: r ++ rest)) = some (.minus, []) := by
    change operatorTail? '-' (c :: (r ++ rest)) = _
    simp [operatorTail?, TokenKind.single?, TokenKind.compound?, hc]
  exact (lex_of_tail ht).trans (congrArg _ (h rest hr))

theorem Boundary.isWordChar {rest : List Char} (h : Boundary rest) :
    ∀ c ∈ rest.head?, isWordChar c = false := by
  intro c hc
  rcases h c hc with rfl | rfl | rfl | rfl | rfl | rfl <;> rfl

theorem Boundary.isDigit {rest : List Char} (h : Boundary rest) :
    ∀ c ∈ rest.head?, c.isDigit = false := by
  intro c hc
  rcases h c hc with rfl | rfl | rfl | rfl | rfl | rfl <;> rfl

theorem Boundary.ne_point {rest : List Char} (h : Boundary rest) (r : List Char) :
    rest ≠ '.' :: r := by
  rintro rfl
  have := h '.' rfl
  simp at this

theorem not_isDigit_of_isWordStart {c : Char} (h : isWordStart c) : ¬ c.isDigit := by
  intro hd
  have hlt : c.toNat < 128 := by
    simp only [Char.isDigit, Bool.and_eq_true, decide_eq_true_eq] at hd
    exact Nat.lt_of_le_of_lt hd.2 (by decide)
  simp only [isWordStart, Text.isLetter, if_pos hlt, Bool.or_eq_true, decide_eq_true_eq] at h
  rcases h with h | rfl
  · simp only [Char.isAlpha, Char.isUpper, Char.isLower, Char.isDigit, Bool.or_eq_true,
      Bool.and_eq_true, decide_eq_true_eq] at h hd
    have h₁ : c.val.toNat ≤ 57 := hd.2
    rcases h with h | h
    · have h₂ : 65 ≤ c.val.toNat := h.1
      omega
    · have h₂ : 97 ≤ c.val.toNat := h.1
      omega
  · cases hd

theorem word_of_tail {c : Char} {cs : List Char} {k : TokenKind}
    (h : ∀ rest, Boundary rest → tail? c (cs ++ rest) = some (k, cs)) :
    Word (c :: cs) [⟨k, String.ofList (c :: cs), 0, 0⟩] :=
  fun rest hr => lex_of_tail (h rest hr)

/-- The characters of a word, keyword or not. -/
theorem word_letters {c : Char} {cs : List Char} (hc : isWordStart c) (hcs : ∀ d ∈ cs, isWordChar d) :
    Word (c :: cs) [⟨wordKind (c :: cs), String.ofList (c :: cs), 0, 0⟩] := by
  apply word_of_tail
  intro rest hr
  rw [tail?, if_neg (not_isDigit_of_isWordStart hc), if_pos hc]
  dsimp only
  rw [(takeWhile_boundary hcs hr.isWordChar).1]

theorem word_identifier {t : Token} (h : t.IsIdentifier) : Word t.lexeme.toList [t.bare] := by
  obtain ⟨hk, ⟨c, w, hl, hc, hw⟩, hkey⟩ := h
  have hword := word_letters hc hw
  have hkind : wordKind (c :: w) = .identifier := by rw [wordKind, ← hl, hkey]; rfl
  rw [hl, show t.bare = ⟨.identifier, String.ofList (c :: w), 0, 0⟩ by
    rw [← hl, String.ofList_toList, ← hk]; rfl]
  rw [hkind] at hword
  exact hword

theorem word_true : Word ['t', 'r', 'u', 'e'] [mark .trueWord] :=
  word_letters (by decide) (List.all_eq_true.mp (by decide))

theorem word_false : Word ['f', 'a', 'l', 's', 'e'] [mark .falseWord] :=
  word_letters (by decide) (List.all_eq_true.mp (by decide))

/-- The token of a numeral. -/
def numeralToken (cs : List Char) : Token := ⟨.number, String.ofList cs, 0, 0⟩

theorem Boundary.numberTail_eq_nil {rest : List Char} (h : Boundary rest) : numberTail rest = [] :=
  Lexeme.numberTail_eq_nil.mpr ⟨h.isDigit, fun _ _ hr => absurd hr (h.ne_point _)⟩

theorem numberTail_whole {cs rest : List Char} (hcs : ∀ d ∈ cs, d.isDigit) (hr : Boundary rest) :
    numberTail (cs ++ rest) = cs := by
  rw [numberTail_append hcs, hr.numberTail_eq_nil, List.append_nil]

/-- Behind a point a number goes on as long as there are digits. -/
theorem numberTail_pointed {cs fs rest : List Char} (hcs : ∀ d ∈ cs, d.isDigit) (hfs : Digits fs)
    (hr : ∀ c ∈ rest.head?, c.isDigit = false) :
    numberTail (cs ++ '.' :: fs ++ rest) = cs ++ '.' :: fs := by
  obtain ⟨f, fs, rfl⟩ := List.exists_cons_of_ne_nil hfs.1
  rw [List.append_assoc, numberTail_append hcs, List.cons_append, List.cons_append,
    numberTail_point (hfs.2 f List.mem_cons_self),
    (takeWhile_boundary (fun d hd => hfs.2 d (List.mem_cons_of_mem f hd)) hr).1]

theorem word_numeral {cs : List Char} (h : Numeral cs) : Word cs [numeralToken cs] := by
  have hnumber : ∀ {c : Char} {tail : List Char}, c.isDigit →
      (∀ rest, Boundary rest → numberTail (tail ++ rest) = tail) →
      Word (c :: tail) [numeralToken (c :: tail)] := by
    intro c tail hc ht
    apply word_of_tail
    intro rest hr
    rw [tail?, if_pos hc, ht rest hr]
  cases h with
  | whole hd =>
    obtain ⟨c, tail, rfl⟩ := List.exists_cons_of_ne_nil hd.1
    exact hnumber (hd.2 c List.mem_cons_self) fun rest hr =>
      numberTail_whole (fun d hm => hd.2 d (List.mem_cons_of_mem _ hm)) hr
  | @pointed ds fs hd hf =>
    obtain ⟨c, tail, rfl⟩ := List.exists_cons_of_ne_nil hd.1
    exact hnumber (hd.2 c List.mem_cons_self) fun rest hr =>
      numberTail_pointed (fun d hm => hd.2 d (List.mem_cons_of_mem _ hm)) hf hr.isDigit

/-- A character of a string stands for itself or behind a backslash. -/
theorem escapeChar_cases (c : Char) : (∃ e, escapeChar c = ['\\', e] ∧ escape? e = some c) ∨
    escapeChar c = [c] ∧ c ≠ '"' := by
  unfold escapeChar
  split
  · exact .inl ⟨'n', rfl, rfl⟩
  · exact .inl ⟨'t', rfl, rfl⟩
  · exact .inl ⟨'r', rfl, rfl⟩
  · exact .inl ⟨'"', rfl, rfl⟩
  · next h => exact .inr ⟨rfl, h⟩

theorem badEscape_plain {c : Char} (hb : c ≠ '\\') (cs : List Char) (p : Nat × Nat) :
    ∃ q, badEscape? (c :: cs) p = badEscape? cs q := by
  obtain ⟨line, col⟩ := p
  rw [badEscape?]
  · exact ⟨_, rfl⟩
  · intro h
    exact absurd h hb
  · intro d t h
    exact absurd h hb

theorem unescape_plain {c : Char} (hb : c ≠ '\\') (cs : List Char) :
    unescape (c :: cs) = c :: unescape cs := by
  rw [unescape]
  · intro h
    exact absurd h hb
  · intro d t h
    exact absurd h hb

/-- A string ends at its closing quote. -/
theorem splitQuoted_escaped {cs : List Char} (h : '\\' ∉ cs) (rest : List Char) :
    splitQuoted (cs.flatMap escapeChar ++ '"' :: rest) = (cs.flatMap escapeChar, '"' :: rest) := by
  induction cs with
  | nil => rfl
  | cons c cs ih =>
    obtain ⟨hc, hcs⟩ := not_or.mp (List.mem_cons.not.mp h)
    rw [List.flatMap_cons, List.append_assoc]
    rcases escapeChar_cases c with ⟨e, he, -⟩ | ⟨he, hq⟩
    · simp only [he, List.cons_append, List.nil_append]
      rw [splitQuoted, ih hcs]
    · simp only [he, List.cons_append, List.nil_append]
      rw [splitQuoted_plain hq (Ne.symm hc), ih hcs]

theorem badEscape_escaped {cs : List Char} (h : '\\' ∉ cs) (p : Nat × Nat) :
    badEscape? (cs.flatMap escapeChar) p = none := by
  induction cs generalizing p with
  | nil => rfl
  | cons c cs ih =>
    obtain ⟨hc, hcs⟩ := not_or.mp (List.mem_cons.not.mp h)
    rw [List.flatMap_cons]
    rcases escapeChar_cases c with ⟨e, he, hesc⟩ | ⟨he, -⟩
    · obtain ⟨line, col⟩ := p
      simp only [he, List.cons_append, List.nil_append]
      rw [badEscape?, if_pos (by rw [hesc]; rfl), ih hcs]
    · obtain ⟨q, hp⟩ := badEscape_plain (Ne.symm hc) (cs.flatMap escapeChar) p
      rw [he, List.singleton_append, hp, ih hcs]

theorem unescape_escaped {cs : List Char} (h : '\\' ∉ cs) :
    unescape (cs.flatMap escapeChar) = cs := by
  induction cs with
  | nil => rfl
  | cons c cs ih =>
    obtain ⟨hc, hcs⟩ := not_or.mp (List.mem_cons.not.mp h)
    rw [List.flatMap_cons]
    rcases escapeChar_cases c with ⟨e, he, hesc⟩ | ⟨he, -⟩
    · simp only [he, List.cons_append, List.nil_append]
      rw [unescape, hesc, ih hcs]
      rfl
    · rw [he, List.singleton_append, unescape_plain (Ne.symm hc), ih hcs]

theorem newline_not_mem_escaped (cs : List Char) : '\n' ∉ cs.flatMap escapeChar := by
  intro h
  obtain ⟨c, -, hc⟩ := List.mem_flatMap.mp h
  unfold escapeChar at hc
  split at hc
  · simp at hc
  · simp at hc
  · simp at hc
  · simp at hc
  · next hn _ _ _ => exact hn (List.mem_singleton.mp hc).symm

theorem piece_text {s : String} (h : '\\' ∉ s.toList) :
    Piece ('"' :: (s.toList.flatMap escapeChar ++ ['"'])) [⟨.string, s, 0, 0⟩] := by
  intro rest
  have hc : cut ('"' :: (s.toList.flatMap escapeChar ++ ['"']) ++ rest) =
      (.ok ⟨.string, s, 0, 0⟩, rest) := by
    rw [List.cons_append, List.append_assoc]
    change cutQuoted (s.toList.flatMap escapeChar ++ '"' :: rest) = _
    rw [cutQuoted, splitQuoted_escaped h]
    dsimp only
    rw [badEscape_escaped h, unescape_escaped h, String.ofList_toList]
  exact lex_of_cut hc rfl

end ArrowLang
