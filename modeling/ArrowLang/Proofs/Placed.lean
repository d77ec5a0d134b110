import ArrowLang.Proofs.Colored

/-!
# Pieces by their offsets

A stretch that is a lexeme is one piece, found at the offset of the stretch. Newlines at the end of a
text change no such piece.
-/
namespace ArrowLang.Coloring

open Lexeme
open Text (isBlank)

/-- The piece that begins at an offset, counted from where the first piece begins. -/
def pieceAt? (i : Nat) : List Piece → Option Piece
  | [] => none
  | p :: ps =>
    if i = 0 then some p
    else if i < p.text.length then none
    else pieceAt? (i - p.text.length) ps

theorem pieceAt_add {p : Piece} (hp : p.text ≠ []) (i : Nat) (ps : List Piece) :
    pieceAt? (p.text.length + i) (p :: ps) = pieceAt? i ps := by
  have hlength := List.length_pos_of_ne_nil hp
  rw [pieceAt?, if_neg (by omega), if_neg (by omega), Nat.add_sub_cancel_left]

theorem pieceAt_cons_congr {p q : Piece} {ps qs : List Piece} {i : Nat}
    (h : ∀ j, pieceAt? j ps = some q ↔ pieceAt? j qs = some q) :
    pieceAt? i (p :: ps) = some q ↔ pieceAt? i (p :: qs) = some q := by
  unfold pieceAt?
  split_ifs
  · rfl
  · rfl
  · exact h _

/-- Outside quotes only a quote leads into a string. -/
theorem codePiece_cases (b : Option Char) (c : Char) (cs : List Char) :
    c = '"' ∧ codePiece b c cs = (.string, 0, .quoted) ∨
      ∃ k n, codePiece b c cs = (k, n, .code) ∧ k ≠ .string ∧ n ≤ cs.length := by
  by_cases hquote : c = '"'
  · subst hquote
    exact .inl ⟨rfl, rfl⟩
  · by_cases hhash : c = '#'
    · subst hhash
      exact .inr ⟨.comment, _, rfl, by decide, (List.takeWhile_prefix _).length_le⟩
    · have hinert : isInert c := by simp [isInert, hquote, hhash]
      obtain ⟨k, n, hpiece, hstring, -, hn⟩ := codePiece_inert b hinert cs
      exact .inr ⟨k, n, hpiece, hstring, hn.trans (List.takeWhile_prefix _).length_le⟩

/-- Only a quote leads out of a string. -/
theorem quotedPiece_cases (c : Char) (cs : List Char) :
    c = '"' ∧ quotedPiece c cs = (.string, 0, .code) ∨
      c ≠ '"' ∧ ∃ k n, quotedPiece c cs = (k, n, .quoted) := by
  by_cases hquote : c = '"'
  · subst hquote
    exact .inl ⟨rfl, rfl⟩
  · refine .inr ⟨hquote, ?_⟩
    unfold quotedPiece
    rw [if_neg hquote]
    split_ifs
    · split
      · exact ⟨_, _, rfl⟩
      · split_ifs <;> exact ⟨_, _, rfl⟩
    · exact ⟨_, _, rfl⟩

/-- At offset `i` a piece of code begins, cut from behind what stands in front of it. -/
def BeginsAt (m : Mode) (b : Option Char) (cs : List Char) (i : Nat) : Prop :=
  ∃ c rest k n, cs.drop i = c :: rest ∧
    codePiece (b.toList ++ cs.take i).getLast? c rest = (k, n, .code) ∧
      pieceAt? i (pieces m b cs) = some ⟨k, c :: rest.take n⟩

theorem getLast_behind {α : Type} (as : List α) {xs : List α} (hxs : xs ≠ []) (ys : List α) :
    (as ++ (xs ++ ys)).getLast? = (xs.getLast?.toList ++ ys).getLast? := by
  obtain ⟨x, hx⟩ : ∃ x, xs.getLast? = some x :=
    Option.ne_none_iff_exists'.mp (List.getLast?_eq_none_iff.not.mpr hxs)
  simp [List.getLast?_append, List.getLast?_cons, hx]

theorem getLast_toList {α : Type} (b : Option α) : b.toList.getLast? = b := by
  cases b <;> rfl

theorem BeginsAt.cons {m m' : Mode} {b : Option Char} {c : Char} {cs : List Char} {k : Class}
    {n i : Nat} (hp : piece m b c cs = (k, n, m'))
    (h : BeginsAt m' (c :: cs.take n).getLast? (cs.drop n) i) :
    BeginsAt m b (c :: cs) ((c :: cs.take n).length + i) := by
  obtain ⟨d, rest, k', n', hdrop, hpiece, hat⟩ := h
  have hsplit : c :: cs = (c :: cs.take n) ++ cs.drop n := by simp
  refine ⟨d, rest, k', n', ?_, ?_, ?_⟩
  · rw [hsplit, List.drop_length_add_append, hdrop]
  · have hlast : (b.toList ++ (c :: cs).take ((c :: cs.take n).length + i)).getLast? =
        ((c :: cs.take n).getLast?.toList ++ (cs.drop n).take i).getLast? := by
      conv_lhs => rw [hsplit, List.take_length_add_append]
      exact getLast_behind _ (List.cons_ne_nil _ _) _
    rw [hlast, hpiece]
  · rw [pieces_cons hp]
    exact (pieceAt_add (p := ⟨k, c :: cs.take n⟩) (List.cons_ne_nil _ _) i _).trans hat

theorem pieces_induction {motive : Mode → Option Char → List Char → Prop}
    (nil : ∀ m b, motive m b [])
    (cons : ∀ m b c cs k n m', piece m b c cs = (k, n, m') →
      motive m' (c :: cs.take n).getLast? (cs.drop n) → motive m b (c :: cs))
    (m : Mode) (b : Option Char) (cs : List Char) : motive m b cs :=
  pieces.induct motive nil cons m b cs

/-- A stretch that is a lexeme is a piece of code. -/
theorem beginsAt_of_stretch {m : Mode} {b : Option Char} {cs : List Char} {opened : Option Nat}
    {start : Nat} (hopened : opened.isSome ↔ m = .quoted) {s : Stretch}
    (hs : s ∈ stretches opened start (pieces m b cs)) (hk : s.kind = .lexeme) :
    ∃ i, s.start = start + i ∧ BeginsAt m b cs i := by
  induction m, b, cs using pieces_induction generalizing opened start with
  | nil m b =>
    obtain ⟨j, rfl, rfl⟩ := by simpa [pieces, stretches] using hs
    cases hk
  | cons m b c cs k n m' hp ih =>
    have hnext : ∀ opened', (opened'.isSome ↔ m' = .quoted) →
        s ∈ stretches opened' (start + (c :: cs.take n).length)
          (pieces m' (c :: cs.take n).getLast? (cs.drop n)) →
        ∃ i, s.start = start + i ∧ BeginsAt m b (c :: cs) i := by
      intro opened' hopened' hs
      obtain ⟨i, hi, hbegins⟩ := ih hopened' hs
      exact ⟨(c :: cs.take n).length + i, by rw [hi, Nat.add_assoc], hbegins.cons hp⟩
    rw [pieces_cons hp, stretches, List.mem_append] at hs
    cases m with
    | code =>
      obtain rfl : opened = none := by simpa using hopened
      rcases codePiece_cases b c cs with ⟨rfl, hquote⟩ | ⟨k', n', hcode, hstring, -⟩
      · obtain ⟨rfl, rfl, rfl⟩ := by simpa using hp.symm.trans hquote
        rcases hs with hs | hs
        · cases hs
        · exact hnext _ (by simp [Piece.turn, Piece.isQuote]) hs
      · obtain ⟨rfl, rfl, rfl⟩ := by simpa using hp.symm.trans hcode
        rw [turn_none hstring] at hs
        rcases hs with hs | hs
        · obtain ⟨kind, -, rfl⟩ := Option.map_eq_some_iff.mp (Option.mem_toList.mp hs)
          refine ⟨0, rfl, c, cs, k, n, rfl, ?_, ?_⟩
          · rwa [List.take_zero, List.append_nil, getLast_toList]
          · rw [pieces_cons hp]
            rfl
        · exact hnext _ (by simp) hs
    | quoted =>
      obtain ⟨j, rfl⟩ := Option.isSome_iff_exists.mp (hopened.mpr rfl)
      rcases quotedPiece_cases c cs with ⟨rfl, hquote⟩ | ⟨hc, k', n', hquoted⟩
      · obtain ⟨rfl, rfl, rfl⟩ := by simpa using hp.symm.trans hquote
        rcases hs with hs | hs
        · obtain rfl := List.mem_singleton.mp hs
          cases hk
        · exact hnext _ (by simp [Piece.turn, Piece.isQuote]) hs
      · obtain ⟨rfl, rfl, rfl⟩ := by simpa using hp.symm.trans hquoted
        have hnot : Piece.isQuote ⟨k, c :: cs.take n⟩ = false := by simp [Piece.isQuote, hc]
        rw [Piece.turn, hnot] at hs
        rcases hs with hs | hs
        · simp only [Bool.false_eq_true, if_false] at hs
          split at hs
          · obtain rfl := List.mem_singleton.mp hs
            cases hk
          · cases hs
        · exact hnext _ (by simp) hs

theorem takeWhile_append_stop {p : Char → Bool} {d : Char} (hd : p d = false) (cs : List Char) :
    (cs ++ [d]).takeWhile p = cs.takeWhile p := by
  rw [List.takeWhile_append]
  split_ifs with h
  · have hall := (List.takeWhile_prefix (l := cs) p).eq_of_length h
    simp [hd, hall]
  · rfl

/-- A run that a newline belongs to ends with it or in front of it. -/
theorem length_takeWhile_append (p : Char → Bool) (d : Char) (cs : List Char) :
    ((cs ++ [d]).takeWhile p).length = (cs.takeWhile p).length ∨
      (cs.takeWhile p).length = cs.length ∧ ((cs ++ [d]).takeWhile p).length = cs.length + 1 := by
  rw [List.takeWhile_append]
  split_ifs with h
  · by_cases hd : p d
    · exact .inr ⟨h, by simp [hd]⟩
    · exact .inl (by simp [hd, h])
  · exact .inl rfl

theorem numberTail_append_newline (cs : List Char) : numberTail (cs ++ ['\n']) = numberTail cs := by
  obtain ⟨r, hr⟩ := numberTail_isPrefix cs
  have hreplaces : Replaces r (r ++ ['\n']) := by
    simpa using replaces_append r [] (.inr (.inr (.inr (.inr rfl)))) []
  have h := number_replaces hreplaces (by rw [hr])
  rwa [← List.append_assoc, hr] at h

/-- How a newline at the end of a text changes a piece: not at all, or the piece takes it in. -/
def Grows (cs : List Char) (p q : Class × Nat × Mode) : Prop :=
  p = q ∧ p.2.1 ≤ cs.length ∨
    ¬ p.1.IsLexeme ∧ p.2.1 = cs.length ∧ q = (p.1, cs.length + 1, p.2.2)

theorem grows_run {k : Class} (hk : ¬ k.IsLexeme) (m : Mode) (p : Char → Bool) (cs : List Char) :
    Grows cs (k, (cs.takeWhile p).length, m) (k, ((cs ++ ['\n']).takeWhile p).length, m) := by
  rcases length_takeWhile_append p '\n' cs with h | ⟨hall, hnext⟩
  · exact .inl ⟨by rw [h], (List.takeWhile_prefix p).length_le⟩
  · exact .inr ⟨hk, hall, by rw [hnext]⟩

theorem codePiece_append_newline (b : Option Char) {c : Char} (hc : isBlank c = false)
    (cs : List Char) : codePiece b c (cs ++ ['\n']) = codePiece b c cs := by
  have hword : wholeWord b (c :: (cs ++ ['\n'])) = wholeWord b (c :: cs) := by
    unfold wholeWord
    rw [← List.cons_append, takeWhile_append_stop rfl]
  have hhead : ((cs ++ ['\n']).head?.any fun d => pairs.contains (c, d)) =
      cs.head?.any fun d => pairs.contains (c, d) := by
    cases cs with
    | nil => simp [pairs]
    | cons d cs => rfl
  unfold codePiece
  simp only [hc, number_eq, numberTail_append_newline, hword, hhead,
    takeWhile_append_stop (p := isWordChar) (d := '\n') rfl,
    takeWhile_append_stop (p := (· ≠ '\n')) (d := '\n') rfl, Bool.false_eq_true, if_false]

theorem grows_codePiece (b : Option Char) (c : Char) (cs : List Char) :
    Grows cs (codePiece b c cs) (codePiece b c (cs ++ ['\n'])) := by
  by_cases hc : isBlank c
  · have hrun : ∀ ds, codePiece b c ds = (.text, (ds.takeWhile isBlank).length, .code) := by
      intro ds
      simp [codePiece, hc]
    rw [hrun, hrun]
    exact grows_run (by decide) _ _ _
  · refine .inl ⟨(codePiece_append_newline b (Bool.eq_false_iff.mpr hc) cs).symm, ?_⟩
    rcases codePiece_cases b c cs with ⟨-, h⟩ | ⟨k, n, h, -, hn⟩ <;> rw [h]
    · exact Nat.zero_le _
    · exact hn

theorem grows_quotedPiece (c : Char) (cs : List Char) :
    Grows cs (quotedPiece c cs) (quotedPiece c (cs ++ ['\n'])) := by
  unfold quotedPiece
  split_ifs
  · cases cs with
    | nil => exact .inl ⟨rfl, Nat.le_refl _⟩
    | cons d cs =>
      refine .inl ⟨rfl, ?_⟩
      dsimp only
      split_ifs <;> simp
  · exact .inl ⟨rfl, Nat.zero_le _⟩
  · exact grows_run (by decide) _ _ _

/-- A newline at the end of a text leaves the pieces of code as they are. -/
theorem pieceAt_append_newline {m : Mode} {b : Option Char} {cs : List Char} {i : Nat} {p : Piece}
    (hp : p.kind.IsLexeme) :
    pieceAt? i (pieces m b (cs ++ ['\n'])) = some p ↔ pieceAt? i (pieces m b cs) = some p := by
  have hother : ∀ (q : Piece), ¬ q.kind.IsLexeme → ∀ j, pieceAt? j [q] ≠ some p := by
    intro q hq j h
    unfold pieceAt? at h
    split_ifs at h
    · obtain rfl := Option.some.inj h
      exact hq hp
    · cases h
  induction m, b, cs using pieces_induction generalizing i with
  | nil m b =>
    have hpiece : ∃ k m', piece m b '\n' [] = (k, 0, m') ∧ ¬ k.IsLexeme := by
      cases m
      · exact ⟨.text, .code, rfl, by decide⟩
      · exact ⟨.string, .quoted, rfl, by decide⟩
    obtain ⟨k, m', hpiece, hk⟩ := hpiece
    rw [List.nil_append, pieces_cons hpiece, List.drop_nil, pieces, pieces]
    exact iff_of_false (hother ⟨k, _⟩ hk i) (Option.some_ne_none p).symm
  | cons m b c cs k n m' hpiece ih =>
    have hgrows : Grows cs (piece m b c cs) (piece m b c (cs ++ ['\n'])) := by
      cases m
      · exact grows_codePiece b c cs
      · exact grows_quotedPiece c cs
    rw [hpiece] at hgrows
    rcases hgrows with ⟨hsame, hn⟩ | ⟨hk, hn, hnext⟩
    · rw [List.cons_append, pieces_cons hsame.symm, pieces_cons hpiece,
        List.take_append_of_le_length hn, List.drop_append_of_le_length hn]
      exact pieceAt_cons_congr fun j => ih
    · obtain rfl : n = cs.length := hn
      have hdrop : (cs ++ ['\n']).drop (cs.length + 1) = [] := by simp
      rw [List.cons_append, pieces_cons hnext, pieces_cons hpiece, hdrop, List.drop_length, pieces,
        pieces]
      exact iff_of_false (hother ⟨k, _⟩ hk i) (hother ⟨k, _⟩ hk i)

end ArrowLang.Coloring
