import ArrowLang.Token.Lexeme

/-!
# Kinds and spellings

Most kinds of token are always spelled alike. A lexeme of such a kind has the spelling of its kind,
and any other lexeme is a number, a word or a run of newlines.
-/
namespace ArrowLang

/-- The spelling of a kind, if there is only one. -/
def TokenKind.spelling? : TokenKind → Option (List Char)
  | .leftBrace => some ['\x7b']
  | .rightBrace => some ['\x7d']
  | .leftSquare => some ['[']
  | .rightSquare => some [']']
  | .leftParen => some ['(']
  | .rightParen => some [')']
  | .slash => some ['/']
  | .star => some ['*']
  | .caret => some ['^']
  | .percent => some ['%']
  | .colon => some [':']
  | .comma => some [',']
  | .pipe => some ['|']
  | .question => some ['?']
  | .plus => some ['+']
  | .plusPlus => some ['+', '+']
  | .equal => some ['=']
  | .equalEqual => some ['=', '=']
  | .bang => some ['!']
  | .bangEqual => some ['!', '=']
  | .less => some ['<']
  | .lessEqual => some ['<', '=']
  | .leftArrow => some ['<', '-']
  | .greater => some ['>']
  | .greaterEqual => some ['>', '=']
  | .minus => some ['-']
  | .rightArrow => some ['-', '>']
  | .andWord => some ['a', 'n', 'd']
  | .orWord => some ['o', 'r']
  | .notWord => some ['n', 'o', 't']
  | .trueWord => some ['t', 'r', 'u', 'e']
  | .falseWord => some ['f', 'a', 'l', 's', 'e']
  | _ => none

namespace TokenKind

theorem spelling_of_single {c : Char} {k : TokenKind} (h : single? c = some k) :
    k.spelling? = some [c] := by
  unfold single? at h
  split at h <;> simp only [Option.some.injEq, reduceCtorEq] at h <;> subst h <;> rfl

theorem spelling_of_compound {c : Char} {pairs : List (Char × TokenKind)} {alone : TokenKind}
    (h : compound? c = some (pairs, alone)) :
    alone.spelling? = some [c] ∧ ∀ p ∈ pairs, p.2.spelling? = some [c, p.1] := by
  unfold compound? at h
  split at h <;> simp only [Option.some.injEq, Prod.mk.injEq, reduceCtorEq] at h <;>
    obtain ⟨rfl, rfl⟩ := h <;> simp [spelling?]

theorem spelling_of_keyword {w : String} {k : TokenKind} (h : keyword? w = some k) :
    k.spelling? = some w.toList := by
  unfold keyword? at h
  split at h <;> simp only [Option.some.injEq, reduceCtorEq] at h <;> subst h <;> rfl

end TokenKind

namespace Lexeme

theorem wordKind_cases (word : List Char) :
    wordKind word = .identifier ∧ TokenKind.keyword? (String.ofList word) = none ∨
      (wordKind word).spelling? = some word := by
  unfold wordKind
  cases h : TokenKind.keyword? (String.ofList word) with
  | none => exact .inl ⟨rfl, rfl⟩
  | some k => exact .inr (by simpa using TokenKind.spelling_of_keyword h)

theorem spelling_of_operator {c : Char} {cs tail : List Char} {k : TokenKind}
    (h : operatorTail? c cs = some (k, tail)) : k.spelling? = some (c :: tail) ∧ tail <+: cs := by
  unfold operatorTail? at h
  split at h
  · next hs =>
    obtain ⟨rfl, rfl⟩ := by simpa using h
    exact ⟨TokenKind.spelling_of_single hs, List.nil_prefix⟩
  · obtain ⟨⟨pairs, alone⟩, hc, h⟩ := Option.map_eq_some_iff.mp h
    obtain ⟨ha, hp⟩ := TokenKind.spelling_of_compound hc
    dsimp only at h
    split at h
    · next d k' hf =>
      obtain ⟨rfl, rfl⟩ := by simpa using h
      refine ⟨hp _ (List.mem_of_find?_eq_some hf), ?_⟩
      have hd : cs.head? = some d := by simpa using List.find?_some hf
      obtain ⟨t, rfl⟩ : ∃ t, cs = d :: t := by
        cases cs <;> simp_all
      simp
    · obtain ⟨rfl, rfl⟩ := by simpa using h
      exact ⟨ha, List.nil_prefix⟩

theorem numberTail_isPrefix (cs : List Char) : numberTail cs <+: cs := by
  have hw := List.takeWhile_append_dropWhile (p := Char.isDigit) (l := cs)
  have hp := List.takeWhile_prefix (l := cs) Char.isDigit
  unfold numberTail
  dsimp only
  split
  · next d rest hd =>
    split
    · obtain ⟨u, hu⟩ : '.' :: d :: rest.takeWhile Char.isDigit <+: '.' :: d :: rest := by
        simpa using List.takeWhile_prefix Char.isDigit
      exact ⟨u, by rw [List.append_assoc, hu, ← hd, hw]⟩
    · exact hp
  · exact hp

/-- What a lexeme can be. -/
theorem tail_cases {c : Char} {cs tail : List Char} {k : TokenKind}
    (h : tail? c cs = some (k, tail)) :
    (c.isDigit ∧ k = .number ∧ tail = numberTail cs) ∨
      (isWordStart c ∧ k = wordKind (c :: tail) ∧ tail = cs.takeWhile isWordChar) ∨
      (c = '\n' ∧ k = .newline ∧ tail = cs.takeWhile (· = '\n')) ∨
      operatorTail? c cs = some (k, tail) := by
  unfold tail? at h
  split at h
  · next hd =>
    obtain ⟨rfl, rfl⟩ := by simpa using h
    exact .inl ⟨hd, rfl, rfl⟩
  · split at h
    · next hw =>
      obtain ⟨rfl, rfl⟩ := by simpa using h
      exact .inr (.inl ⟨hw, rfl, rfl⟩)
    · split at h
      · next hn =>
        obtain ⟨rfl, rfl⟩ := by simpa using h
        exact .inr (.inr (.inl ⟨hn, rfl, rfl⟩))
      · exact .inr (.inr (.inr h))

theorem tail_isPrefix {c : Char} {cs tail : List Char} {k : TokenKind}
    (h : tail? c cs = some (k, tail)) : tail <+: cs := by
  rcases tail_cases h with ⟨-, -, rfl⟩ | ⟨-, -, rfl⟩ | ⟨-, -, rfl⟩ | h
  · exact numberTail_isPrefix cs
  · exact List.takeWhile_prefix _
  · exact List.takeWhile_prefix _
  · exact (spelling_of_operator h).2

theorem tail_spelling {c : Char} {cs tail : List Char} {k : TokenKind}
    (h : tail? c cs = some (k, tail)) :
    k = .number ∨ k = .identifier ∨ k = .newline ∨ k.spelling? = some (c :: tail) := by
  rcases tail_cases h with ⟨-, rfl, -⟩ | ⟨-, rfl, -⟩ | ⟨-, rfl, -⟩ | h
  · exact .inl rfl
  · rcases wordKind_cases (c :: tail) with ⟨hk, -⟩ | hk
    · exact .inr (.inl hk)
    · exact .inr (.inr (.inr hk))
  · exact .inr (.inr (.inl rfl))
  · exact .inr (.inr (.inr (spelling_of_operator h).1))

theorem tail_kind_ne {c : Char} {cs tail : List Char} {k : TokenKind}
    (h : tail? c cs = some (k, tail)) : k ≠ .endOfText ∧ k ≠ .string ∧ k ≠ .absent := by
  rcases tail_spelling h with rfl | rfl | rfl | h
  · simp
  · simp
  · simp
  · refine ⟨?_, ?_, ?_⟩ <;> rintro rfl <;> simp [TokenKind.spelling?] at h

end Lexeme
end ArrowLang
