import ArrowLang.Proofs.Joined
import ArrowLang.Proofs.Numerals

/-!
# Lexemes of cut tokens

What the lexeme of a token is, kind by kind, for the tokens that a text is cut into.
-/
namespace ArrowLang

open Lexeme

/-- A word that is no keyword. -/
def IsName (cs : List Char) : Prop :=
  (∃ c w, cs = c :: w ∧ isWordStart c ∧ ∀ d ∈ w, isWordChar d) ∧
    TokenKind.keyword? (String.ofList cs) = none

/-- The lexeme of a token suits its kind. -/
structure Token.Lexed (t : Token) : Prop where
  number : t.kind = .number → Numeral t.lexeme.toList
  text : t.kind = .string → '\\' ∉ t.lexeme.toList
  name : t.kind = .identifier → IsName t.lexeme.toList
  spelled : ∀ x, t.kind.spelling? = some x → t.lexeme = String.ofList x

/-- The lexeme is the spelling of the kind. -/
def Token.Spelled (t : Token) : Prop := t.kind.spelling? = some t.lexeme.toList

def Token.IsIdentifier (t : Token) : Prop := t.kind = .identifier ∧ IsName t.lexeme.toList

theorem Token.Lexed.identifier {t : Token} (h : t.Lexed) (hk : t.kind = .identifier) :
    t.IsIdentifier :=
  ⟨hk, h.name hk⟩

theorem Token.Lexed.spelled_of_isSome {t : Token} (h : t.Lexed) (hs : t.kind.spelling?.isSome) :
    t.Spelled := by
  obtain ⟨x, hx⟩ := Option.isSome_iff_exists.mp hs
  rw [Token.Spelled, hx, h.spelled x hx, String.toList_ofList]

namespace Lexeme

theorem digits_takeWhile {c : Char} (hc : c.isDigit) (cs : List Char) :
    Digits (c :: cs.takeWhile Char.isDigit) := by
  refine ⟨by simp, fun d hd => ?_⟩
  rcases List.mem_cons.mp hd with rfl | hd
  · exact hc
  · exact List.mem_takeWhile_imp hd

theorem numeral_numberTail {c : Char} (hc : c.isDigit) (cs : List Char) :
    Numeral (c :: numberTail cs) := by
  unfold numberTail
  dsimp only
  split
  · next d rest hd =>
    split
    · next hdig => exact .pointed (digits_takeWhile hc cs) (digits_takeWhile hdig rest)
    · exact .whole (digits_takeWhile hc cs)
  · exact .whole (digits_takeWhile hc cs)

theorem isName_of_tail {c : Char} {cs tail : List Char} (h : tail? c cs = some (.identifier, tail)) :
    IsName (c :: tail) := by
  rcases tail_cases h with ⟨-, h, -⟩ | ⟨hs, hk, rfl⟩ | ⟨-, h, -⟩ | h
  · cases h
  · refine ⟨⟨c, _, rfl, hs, fun d hd => List.mem_takeWhile_imp hd⟩, ?_⟩
    rcases wordKind_cases (c :: cs.takeWhile isWordChar) with ⟨-, h⟩ | h
    · exact h
    · rw [← hk] at h
      cases h
  · cases h
  · cases (spelling_of_operator h).1

theorem numeral_of_tail {c : Char} {cs tail : List Char} (h : tail? c cs = some (.number, tail)) :
    Numeral (c :: tail) := by
  rcases tail_cases h with ⟨hc, -, rfl⟩ | ⟨-, hk, -⟩ | ⟨-, h, -⟩ | h
  · exact numeral_numberTail hc cs
  · rcases wordKind_cases (c :: tail) with ⟨h, -⟩ | h <;> rw [← hk] at h <;> cases h
  · cases h
  · cases (spelling_of_operator h).1

/-- No escape stands for a backslash, and behind every backslash an escape is read. -/
theorem backslash_not_mem_unescape (cs : List Char) : '\\' ∉ unescape cs := by
  fun_induction unescape cs with
  | case1 => simp
  | case2 => simp
  | case3 c cs ih =>
    rw [List.mem_append, not_or]
    refine ⟨?_, ih⟩
    unfold escape?
    split <;> simp
  | case4 c cs hne hne' ih =>
    rw [List.mem_cons, not_or]
    refine ⟨fun hc => ?_, ih⟩
    cases cs with
    | nil => exact hne hc.symm rfl
    | cons d cs => exact hne' d cs hc.symm rfl

end Lexeme

theorem lexed_of_cutToken {s : List Char} {t : Token} (h : (cutToken s).1 = .ok t) : t.Lexed := by
  have hspelled := fun x => (fun hx => (spelling_of_cutToken h (x := x) hx).2)
  cases s with
  | nil =>
    obtain rfl := Except.ok.inj h
    constructor <;> simp [TokenKind.spelling?]
  | cons c s =>
    unfold cutToken at h
    dsimp only at h
    split at h
    · unfold cutQuoted at h
      split at h
      · cases h
      · split at h
        · cases h
        · obtain rfl := Except.ok.inj h
          refine ⟨by simp, fun _ => ?_, by simp, by simp [TokenKind.spelling?]⟩
          simpa using backslash_not_mem_unescape _
    · split at h
      · next kind tail ht =>
        obtain rfl := Except.ok.inj h
        refine ⟨fun hk => ?_, fun hk => absurd hk (tail_kind_ne ht).2.1, fun hk => ?_, hspelled⟩
        · cases hk
          simpa using numeral_of_tail ht
        · cases hk
          simpa using isName_of_tail ht
      · cases h

theorem Token.Lexed.of_bare {t : Token} (h : t.bare.Lexed) : t.Lexed :=
  ⟨h.number, h.text, h.name, h.spelled⟩

theorem lexed_of_next {s : Cursor} {t : Token} (h : s.next.1 = .ok t) : t.Lexed := by
  have hb := congrArg Prod.fst s.bare_next
  rw [h] at hb
  exact (lexed_of_cutToken hb.symm).of_bare

/-- The lexemes of all tokens of a text suit their kinds. -/
theorem lexed_of_mem {text : String} {t : Token} (h : .ok t ∈ (Cursor.ofText text).outcomes) :
    t.Lexed := by
  have hm : .ok t.bare ∈ lex text.toList := by
    rw [← Cursor.bare_outcomes_ofText]
    exact List.mem_map.mpr ⟨.ok t, h, rfl⟩
  obtain ⟨s, -, hs⟩ := mem_lex hm
  exact (lexed_of_cutToken hs).of_bare

end ArrowLang
