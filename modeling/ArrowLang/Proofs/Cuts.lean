import ArrowLang.Proofs.Bare
import ArrowLang.Proofs.Spelling
import Mathlib.Logic.Relation

/-!
# Cuts without positions

What a cursor cuts depends on the text behind it alone, up to positions. So the cuts of a text can
be followed on plain lists of characters, piece by piece.
-/
namespace ArrowLang

open Lexeme

/-- The string whose opening quote is read, and the text behind it. -/
def cutQuoted (cs : List Char) : Outcome × List Char :=
  match (splitQuoted cs).2 with
  | [] => (.error ⟨.unterminatedString, 0, 0⟩, [])
  | _ :: rest =>
    match badEscape? (splitQuoted cs).1 (0, 0) with
    | some (c, _) => (.error ⟨.unrecognizedEscape c.toString, 0, 0⟩, rest)
    | none => (.ok ⟨.string, String.ofList (unescape (splitQuoted cs).1), 0, 0⟩, rest)

/-- The token that begins a text, and the text behind it. -/
def cutToken : List Char → Outcome × List Char
  | [] => (.ok ⟨.endOfText, "", 0, 0⟩, [])
  | c :: cs =>
    if c = '"' then cutQuoted cs
    else match tail? c cs with
      | some (kind, tail) => (.ok ⟨kind, String.ofList (c :: tail), 0, 0⟩, cs.drop tail.length)
      | none => (.error ⟨.unrecognizedCharacter c.toString, 0, 0⟩, cs)

/-- The first token behind a gap, and the text behind it. -/
def cut (cs : List Char) : Outcome × List Char := cutToken (splitGap false cs).2

/-- Which escape is the first bad one does not depend on where the body stands. -/
theorem badEscape_position (cs : List Char) (p q : Nat × Nat) :
    (badEscape? cs p).map (·.1) = (badEscape? cs q).map (·.1) := by
  fun_induction badEscape? cs p generalizing q with
  | case1 => simp [badEscape?]
  | case2 => simp [badEscape?]
  | case3 c cs line col hc ih =>
    rw [badEscape?, if_pos hc]
    exact ih _
  | case4 c cs line col hc =>
    rw [badEscape?, if_neg hc]
    rfl
  | case5 c cs line col h h' ih =>
    rw [badEscape?]
    · exact ih _
    · exact h
    · exact h'

namespace Cursor

theorem bare_quoted (s : Cursor) (cs : List Char) :
    (Outcome.bare (s.quoted cs).1, (s.quoted cs).2.rest) = cutQuoted cs := by
  have hp := badEscape_position (splitQuoted cs).1 (s.line, s.col + 1) (0, 0)
  unfold quoted cutQuoted
  rcases hq : splitQuoted cs with ⟨body, _ | ⟨q, rest⟩⟩
  · rfl
  · rw [hq] at hp
    dsimp only at hp ⊢
    rcases hb : badEscape? body (s.line, s.col + 1) with _ | ⟨c, l, k⟩ <;>
      rcases hb' : badEscape? body (0, 0) with _ | ⟨c', l', k'⟩ <;>
      simp only [hb, hb', Option.map_some, Option.map_none, Option.some.injEq, reduceCtorEq] at hp
    · rfl
    · subst hp
      rfl

theorem bare_token (s : Cursor) :
    (Outcome.bare s.token.1, s.token.2.rest) = cutToken s.rest := by
  unfold token cutToken
  rcases h : s.rest with _ | ⟨c, cs⟩
  · simp [h, Outcome.bare, Token.bare]
  · dsimp only
    by_cases hc : c = '"'
    · rw [if_pos hc, if_pos hc, bare_quoted]
    · rw [if_neg hc, if_neg hc]
      cases tail? c cs with
      | none => simp [Outcome.bare, LexicalError.bare, skip, h]
      | some p =>
        dsimp only
        split <;> simp [Outcome.bare, Token.bare, skip, skipNewlines, h]

theorem bare_next (s : Cursor) : (Outcome.bare s.next.1, s.next.2.rest) = cut s.rest :=
  bare_token s.skipGap

end Cursor

theorem length_cut {cs : List Char} (h : (cut cs).1.isEnd = false) :
    (cut cs).2.length < cs.length := by
  have hn := Cursor.bare_next ⟨0, 0, 0, 0, cs⟩
  rw [← hn, Outcome.isEnd_bare] at h
  rw [← hn]
  exact Cursor.length_rest_next ⟨0, 0, 0, 0, cs⟩ h

/-- All cuts of a text. -/
def lex (cs : List Char) : List Outcome :=
  if _h : (cut cs).1.isEnd = false then (cut cs).1 :: lex (cut cs).2 else [(cut cs).1]
termination_by cs.length
decreasing_by exact length_cut ‹_›

/-- The cuts of a cursor are those of the text behind it. -/
theorem Cursor.bare_outcomes (s : Cursor) : s.outcomes.map Outcome.bare = lex s.rest := by
  have h : ∀ s : Cursor, (Outcome.isEnd s.next.1) = (cut s.rest).1.isEnd := by
    intro s
    rw [← bare_next, Outcome.isEnd_bare]
  unfold outcomes
  fun_induction Cursor.cuts s with
  | case1 s hs ih =>
    rw [lex, dif_pos (h s ▸ hs), ← bare_next]
    simpa using ih
  | case2 s hs =>
    rw [lex, dif_neg (h s ▸ hs), ← bare_next]
    rfl

theorem Cursor.rest_ofText (text : String) : (ofText text).rest = text.toList := rfl

theorem Cursor.bare_outcomes_ofText (text : String) :
    (ofText text).outcomes.map Outcome.bare = lex text.toList :=
  bare_outcomes (ofText text)

theorem Cursor.outcomes_of_ends {s : Cursor} (h : Outcome.isEnd s.next.1 = true) :
    s.outcomes = [s.next.1] := by
  rw [outcomes, cuts, dif_neg (by simpa using h)]
  rfl

theorem Cursor.outcomes_of_proceeds {s : Cursor} (h : Outcome.isEnd s.next.1 = false) :
    s.outcomes = s.next.1 :: s.next.2.outcomes := by
  rw [outcomes, cuts, dif_pos h]
  rfl

theorem lex_of_cut {cs rest : List Char} {o : Outcome} (h : cut cs = (o, rest))
    (ho : o.isEnd = false) : lex cs = o :: lex rest := by
  rw [lex, h, dif_pos ho]

theorem lex_of_end {cs rest : List Char} {o : Outcome} (h : cut cs = (o, rest))
    (ho : o.isEnd = true) : lex cs = [o] := by
  rw [lex, h, dif_neg (by simp [ho])]

/-- Texts with the same first cut have the same cuts. -/
theorem lex_congr {cs ds : List Char} (h : cut cs = cut ds) : lex cs = lex ds := by
  unfold lex
  rw [h]

/-- A cut that ends the text has nothing behind it. -/
theorem cutToken_isEnd {cs : List Char} : (cutToken cs).1.isEnd = true ↔ cs = [] := by
  cases cs with
  | nil => simp [cutToken, Outcome.isEnd]
  | cons c cs =>
    simp only [cutToken, reduceCtorEq, iff_false]
    split
    · unfold cutQuoted
      split
      · simp [Outcome.isEnd]
      · split <;> simp [Outcome.isEnd]
    · split
      · next h => simp [Outcome.isEnd, (tail_kind_ne h).1]
      · simp [Outcome.isEnd]

/-- The end of a text, without its position. -/
def textEnd : Token := ⟨.endOfText, "", 0, 0⟩

theorem lex_nil : lex [] = [.ok textEnd] := lex_of_end (rfl : cut [] = (.ok textEnd, [])) rfl

/-- What is left of a text behind some of its cuts. -/
def Behind : List Char → List Char → Prop := Relation.ReflTransGen fun r r' => (cut r).2 = r'

section
variable {cs r r' : List Char}

theorem Behind.refl (cs : List Char) : Behind cs cs := Relation.ReflTransGen.refl

theorem Behind.head (h : Behind (cut cs).2 r) : Behind cs r := Relation.ReflTransGen.head rfl h

theorem Behind.cut (h : Behind cs r) : Behind cs (cut r).2 := Relation.ReflTransGen.tail h rfl

/-- A cut that finds the end has only a gap in front of it. -/
theorem gap_of_end (h : (cut r).1.isEnd = true) :
    (splitGap false r).2 = [] ∧ (ArrowLang.cut r).2 = [] := by
  have hr : (splitGap false r).2 = [] := cutToken_isEnd.mp h
  exact ⟨hr, by rw [ArrowLang.cut, hr]; rfl⟩

theorem Behind.length_lex_le (h : Behind r r') : (lex r').length ≤ (lex r).length := by
  induction h with
  | refl => exact Nat.le_refl _
  | @tail r r' _ hr ih =>
    refine Nat.le_trans ?_ ih
    cases he : (ArrowLang.cut r).1.isEnd with
    | true =>
      rw [← hr, (gap_of_end he).2, lex_nil, lex_of_end rfl he]
      exact Nat.le_refl _
    | false =>
      have hcut : ArrowLang.cut r = ((ArrowLang.cut r).1, r') := Prod.ext rfl hr
      rw [lex_of_cut hcut he]
      exact Nat.le_succ _

/-- Where no fewer cuts are left, the text is the same up to the gap in front of it. -/
theorem Behind.gapless_eq (h : Behind r r') (hl : (lex r).length ≤ (lex r').length) :
    (splitGap false r).2 = (splitGap false r').2 := by
  rcases Relation.ReflTransGen.cases_head h with rfl | ⟨x, hx, h⟩
  · rfl
  · cases he : (ArrowLang.cut r).1.isEnd with
    | true =>
      obtain ⟨hr, hnil⟩ := gap_of_end he
      have hb : ∀ y, Behind [] y → y = [] := by
        intro y hy
        induction hy with
        | refl => rfl
        | tail _ hz ih =>
          rw [← hz, ih]
          rfl
      obtain rfl := hb r' (hnil ▸ hx ▸ h)
      exact hr
    | false =>
      have hcut : ArrowLang.cut r = ((ArrowLang.cut r).1, x) := Prod.ext rfl hx
      rw [lex_of_cut hcut he, List.length_cons] at hl
      exact absurd (Nat.le_trans hl (Behind.length_lex_le h)) (Nat.not_succ_le_self _)

/-- Two places of a text with as many cuts left have the same text behind them. -/
theorem Behind.eq_of_length (h : Behind cs r) (h' : Behind cs r')
    (hl : (lex r).length = (lex r').length) : (splitGap false r).2 = (splitGap false r').2 := by
  have hu : Relator.RightUnique fun r r' => (ArrowLang.cut r).2 = r' := fun _ _ _ h h' => h.symm.trans h'
  rcases Relation.ReflTransGen.total_of_right_unique hu h h' with h | h
  · exact Behind.gapless_eq h (Nat.le_of_eq hl)
  · exact (Behind.gapless_eq h (Nat.le_of_eq hl.symm)).symm

end

end ArrowLang
