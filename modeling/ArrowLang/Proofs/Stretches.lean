import ArrowLang.Proofs.Rules

/-!
# Stretches of a coloured text

The pieces of a coloured text make up stretches: strings from quote to quote, comments, other lexemes,
and what is wrong. How pieces are cut within a stretch does not matter, so stretches can be followed
through the text character by character.
-/
namespace ArrowLang

open Lexeme

inductive StretchKind where
  | quoted | comment | lexeme | error
  deriving DecidableEq, Repr

/-- A part of a text between two offsets. -/
structure Stretch where
  kind : StretchKind
  start : Nat
  stop : Nat
  deriving DecidableEq, Repr

/-- Strings and comments. -/
def Stretch.isRegion (s : Stretch) : Bool := s.kind = .quoted || s.kind = .comment

namespace Coloring

open Text (isBlank)

/-- The stretch that a piece outside quotes makes, if it makes one. -/
def Class.stretch? : Class → Option StretchKind
  | .text => none
  | .comment => some .comment
  | .error => some .error
  | _ => some .lexeme

/-- A quote at either end of a string is a piece of its own. -/
def Piece.isQuote (p : Piece) : Bool := p.kind = .string && p.text = ['"']

/-- What a piece at offset `i` adds to the stretches, and where the string began that is open behind
it. In front of it one is open that began at `opened`, or none is. -/
def Piece.turn (opened : Option Nat) (i : Nat) (p : Piece) : List Stretch × Option Nat :=
  let j := i + p.text.length
  match opened with
  | none =>
    if p.isQuote then ([], some i) else ((p.kind.stretch?.map fun k => ⟨k, i, j⟩).toList, none)
  | some start =>
    if p.isQuote then ([⟨.quoted, start, j⟩], none)
    else (if p.kind = .error then [⟨.error, i, j⟩] else [], some start)

/-- The stretches of pieces that begin at offset `i`. A string that is not closed goes on to the
end. -/
def stretches (opened : Option Nat) (i : Nat) : List Piece → List Stretch
  | [] => (opened.map fun start => ⟨.quoted, start, i⟩).toList
  | p :: ps => (p.turn opened i).1 ++ stretches (p.turn opened i).2 (i + p.text.length) ps

theorem isQuote_of_kind {k : Class} (h : k ≠ .string) (text : List Char) :
    Piece.isQuote ⟨k, text⟩ = false := by
  simp [Piece.isQuote, h]

/-- What is wrong shows up among the stretches. -/
theorem error_mem_stretches {p : Piece} (hp : p.kind = .error) {ps : List Piece} (h : p ∈ ps)
    (opened : Option Nat) (i : Nat) : ∃ s ∈ stretches opened i ps, s.kind = .error := by
  induction ps generalizing opened i with
  | nil => cases h
  | cons q ps ih =>
    unfold stretches
    rcases List.mem_cons.mp h with rfl | h
    · have hq : p.isQuote = false := isQuote_of_kind (by simp [hp]) p.text
      refine ⟨⟨.error, i, i + p.text.length⟩, List.mem_append_left _ ?_, rfl⟩
      cases opened with
      | none => simp [Piece.turn, hq, hp, Class.stretch?]
      | some start => simp [Piece.turn, hq, hp]
    · obtain ⟨s, hs, he⟩ := ih h (q.turn opened i).2 (i + q.text.length)
      exact ⟨s, List.mem_append_right _ hs, he⟩

theorem Class.IsLexeme.stretch {k : Class} (h : k.IsLexeme) : k.stretch? = some .lexeme := by
  cases k <;> first | rfl | exact absurd h (by decide)

/-- The stretches of a text outside quotes that begins at offset `i`. -/
def outside (i : Nat) (cs : List Char) : List Stretch := stretches none i (pieces .code none cs)

theorem turn_none {k : Class} (hk : k ≠ .string) (i : Nat) (text : List Char) :
    Piece.turn none i ⟨k, text⟩ =
      ((k.stretch?.map fun s => ⟨s, i, i + text.length⟩).toList, none) := by
  rw [Piece.turn, isQuote_of_kind hk]
  rfl

/-- Which character is in front of a text does not matter. -/
theorem stretches_before (b : Option Char) (i : Nat) (cs : List Char) :
    stretches none i (pieces .code b cs) = outside i cs := by
  cases cs with
  | nil => simp [outside, pieces]
  | cons c cs =>
    by_cases hc : isWordStart c
    · obtain ⟨k, hclass, hp⟩ := codePiece_word b hc cs
      obtain ⟨k', hclass', hp'⟩ := codePiece_word none hc cs
      have hk := isLexeme_of_class hclass (isWord b)
      have hk' := isLexeme_of_class hclass' (isWord none)
      simp only [outside, pieces_cons (m := .code) hp, pieces_cons (m := .code) hp', stretches,
        turn_none hk.ne_string, turn_none hk'.ne_string, hk.stretch, hk'.stretch]
    · rcases hp : codePiece none c cs with ⟨k, n, m⟩
      have hp' := (codePiece_before (Bool.eq_false_iff.mpr hc) b none cs).trans hp
      simp only [outside, pieces_cons (m := .code) hp, pieces_cons (m := .code) hp']

theorem outside_nil (i : Nat) : outside i [] = [] := by
  simp [outside, pieces, stretches]

/-- A piece, and the stretches behind it. -/
theorem outside_cons {c : Char} {cs : List Char} {k : Class} {n : Nat} (i : Nat)
    (hp : codePiece none c cs = (k, n, .code)) (hk : k ≠ .string) (hn : n ≤ cs.length) :
    outside i (c :: cs) = (k.stretch?.map fun s => ⟨s, i, i + (n + 1)⟩).toList ++
      outside (i + (n + 1)) (cs.drop n) := by
  have hlength : (c :: cs.take n).length = n + 1 := by simp [hn]
  rw [outside, pieces_cons (m := .code) hp, stretches, turn_none hk, stretches_before, hlength]

theorem outside_lexeme {c : Char} {tail rest : List Char} {k : TokenKind} (i : Nat)
    (h : tail? c (tail ++ rest) = some (k, tail)) (hk : k ≠ .newline) :
    outside i (c :: tail ++ rest) =
      ⟨.lexeme, i, i + (c :: tail).length⟩ :: outside (i + (c :: tail).length) rest := by
  obtain ⟨k', hclass, hp⟩ := codePiece_tail none h hk
  have hk' := isLexeme_of_class hclass (k.isKeyword && isWord none)
  rw [List.cons_append, outside_cons i hp hk'.ne_string (by simp), hk'.stretch, List.drop_left]
  rfl

/-- What goes on behind a whole run of characters goes on behind its first one. -/
theorem eq_of_run {α : Type} {f : Nat → List Char → α} {p : Char → Bool}
    (h : ∀ c cs i, p c → f i (c :: cs) =
      f (i + ((cs.takeWhile p).length + 1)) (cs.drop (cs.takeWhile p).length))
    {c : Char} (hc : p c) (i : Nat) (cs : List Char) : f i (c :: cs) = f (i + 1) cs := by
  rw [h c cs i hc]
  cases cs with
  | nil => rfl
  | cons d cs =>
    by_cases hd : p d
    · rw [h d cs (i + 1) hd, List.takeWhile_cons_of_pos hd, List.length_cons, List.drop_succ_cons]
      congr 1
      omega
    · rw [List.takeWhile_cons_of_neg hd]
      rfl

/-- Blanks can be left out one by one. -/
theorem outside_blank {c : Char} (hc : isBlank c) (i : Nat) (cs : List Char) :
    outside i (c :: cs) = outside (i + 1) cs := by
  apply eq_of_run ?_ hc
  intro c cs i hc
  have hp : codePiece none c cs = (.text, (cs.takeWhile isBlank).length, .code) := by
    simp [codePiece, hc]
  rw [outside_cons i hp (by decide) (List.takeWhile_prefix _).length_le]
  rfl

theorem outside_comment {words rest : List Char} (hw : '\n' ∉ words)
    (hr : rest = [] ∨ rest.head? = some '\n') (i : Nat) :
    outside i ('#' :: words ++ rest) =
      ⟨.comment, i, i + ('#' :: words).length⟩ :: outside (i + ('#' :: words).length) rest := by
  have hrun : ∀ c ∈ words, decide (c ≠ '\n') = true := by
    intro c hc
    rw [decide_eq_true_eq]
    rintro rfl
    exact hw hc
  have hstop : ∀ c ∈ rest.head?, decide (c ≠ '\n') = false := by
    intro c hc
    rcases hr with rfl | hr
    · cases hc
    · rw [hr] at hc
      obtain rfl := Option.some.inj hc
      rfl
  have hp : codePiece none '#' (words ++ rest) = (.comment, words.length, .code) := by
    have htake := (takeWhile_boundary hrun hstop).1
    change (Class.comment, ((words ++ rest).takeWhile (· ≠ '\n')).length, Mode.code) = _
    rw [htake]
  rw [List.cons_append, outside_cons i hp (by decide) (by simp), List.drop_left]
  rfl

/-- The strings and comments of a text that begins outside quotes at offset `i`. -/
def regions (i : Nat) (cs : List Char) : List Stretch := (outside i cs).filter Stretch.isRegion

/-- Nothing else matters for where they stand. -/
theorem regions_drop (i : Nat) {cs : List Char} {n : Nat} (hn : n ≤ reach cs) :
    regions i cs = regions (i + n) (cs.drop n) := by
  induction cs generalizing i n with
  | nil =>
    obtain rfl : n = 0 := Nat.le_zero.mp hn
    rfl
  | cons c cs ih =>
    cases n with
    | zero => rfl
    | succ n =>
      have hc : isInert c := by
        by_contra h
        rw [reach, List.takeWhile_cons_of_neg h] at hn
        exact absurd hn (by simp)
      rw [reach_cons hc] at hn
      obtain ⟨k, m, hp, hstring, hcomment, hm⟩ := codePiece_inert none hc cs
      have hlength : m ≤ cs.length := hm.trans (List.takeWhile_prefix _).length_le
      have hnone : ((k.stretch?.map fun s => (⟨s, i, i + (m + 1)⟩ : Stretch)).toList.filter
          Stretch.isRegion) = [] := by
        cases k <;> first | rfl | exact absurd rfl hcomment
      -- the piece ends before the next string or comment, and so does what is left out
      calc regions i (c :: cs)
          = regions (i + (m + 1)) (cs.drop m) := by
            rw [regions, outside_cons i hp hstring hlength, List.filter_append, hnone]
            rfl
        _ = regions (i + 1 + m) (cs.drop m) := by rw [Nat.add_assoc, Nat.add_comm 1]
        _ = regions (i + 1) cs := (ih (i + 1) hm).symm
        _ = regions (i + 1 + n) (cs.drop n) := ih (i + 1) (by omega)
        _ = regions (i + (n + 1)) ((c :: cs).drop (n + 1)) := by
            rw [List.drop_succ_cons, Nat.add_assoc, Nat.add_comm 1]

theorem regions_cons {c : Char} (hc : isInert c) (i : Nat) (cs : List Char) :
    regions i (c :: cs) = regions (i + 1) cs :=
  regions_drop i (by rw [reach_cons hc]; omega)

/-- The stretches of a text that begins at offset `i` in a string that began at `start`. -/
def inside (start i : Nat) (cs : List Char) : List Stretch :=
  stretches (some start) i (pieces .quoted none cs)

theorem stretches_quoted (b : Option Char) (start i : Nat) (cs : List Char) :
    stretches (some start) i (pieces .quoted b cs) = inside start i cs := by
  cases cs with
  | nil => simp [inside, pieces]
  | cons c cs =>
    rcases hp : quotedPiece c cs with ⟨k, n, m⟩
    simp only [inside, pieces_cons (m := .quoted) hp]

theorem outside_quote (i : Nat) (cs : List Char) : outside i ('"' :: cs) = inside i (i + 1) cs := by
  have hp : piece .code none '"' cs = (.string, 0, .quoted) := rfl
  rw [outside, pieces_cons hp, stretches]
  exact stretches_quoted _ _ _ _

theorem inside_nil (start i : Nat) : inside start i [] = [⟨.quoted, start, i⟩] := by
  simp [inside, pieces, stretches]

theorem inside_quote (start i : Nat) (cs : List Char) :
    inside start i ('"' :: cs) = ⟨.quoted, start, i + 1⟩ :: outside (i + 1) cs := by
  have hp : piece .quoted none '"' cs = (.string, 0, .code) := rfl
  rw [inside, pieces_cons hp, stretches]
  exact congrArg (_ :: ·) (stretches_before _ _ _)

/-- A piece of a string, and the stretches behind it. -/
theorem inside_cons {c : Char} {cs : List Char} {k : Class} {n : Nat} (start i : Nat)
    (hp : quotedPiece c cs = (k, n, .quoted)) (hc : c ≠ '"') (hn : n ≤ cs.length) :
    inside start i (c :: cs) = (if k = .error then [⟨.error, i, i + (n + 1)⟩] else []) ++
      inside start (i + (n + 1)) (cs.drop n) := by
  have hlength : (c :: cs.take n).length = n + 1 := by simp [hn]
  have hquote : Piece.isQuote ⟨k, c :: cs.take n⟩ = false := by simp [Piece.isQuote, hc]
  rw [inside, pieces_cons (m := .quoted) hp, stretches, Piece.turn, hquote, hlength]
  exact congrArg (_ ++ ·) (stretches_quoted _ _ _ _)

theorem inside_plain {c : Char} (hc : (c ≠ '"' && c ≠ '\\') = true) (start i : Nat)
    (cs : List Char) : inside start i (c :: cs) = inside start (i + 1) cs := by
  apply eq_of_run (p := fun d => d ≠ '"' && d ≠ '\\') ?_ hc
  intro c cs i hc
  obtain ⟨hq, hb⟩ : c ≠ '"' ∧ c ≠ '\\' := by simpa using hc
  have hp : quotedPiece c cs =
      (.string, (cs.takeWhile fun d => d ≠ '"' && d ≠ '\\').length, .quoted) := by
    simp [quotedPiece, hq, hb]
  rw [inside_cons start i hp hq (List.takeWhile_prefix _).length_le]
  rfl

/-- An escape, good or bad, is left out with its backslash. -/
theorem inside_backslash (start i : Nat) (d : Char) (cs : List Char) :
    ∃ errors : List Stretch, (∀ s ∈ errors, s.kind = .error) ∧
      ((escape? d).isSome → errors = []) ∧
      inside start i ('\\' :: d :: cs) = errors ++ inside start (i + 2) cs := by
  have hbackslash : '\\' ≠ '"' := by decide
  by_cases hd : (escape? d).isSome
  · have hp : quotedPiece '\\' (d :: cs) = (.escape, 1, .quoted) := by simp [quotedPiece, hd]
    exact ⟨[], by simp, fun _ => rfl, inside_cons start i hp hbackslash (by simp)⟩
  · by_cases hn : d = '\n'
    · subst hn
      have hp : quotedPiece '\\' ('\n' :: cs) = (.error, 0, .quoted) := rfl
      refine ⟨[⟨.error, i, i + 1⟩], by simp, fun h => absurd h hd, ?_⟩
      rw [inside_cons start i hp hbackslash (by simp), List.drop_zero, inside_plain rfl]
      rfl
    · have hp : quotedPiece '\\' (d :: cs) = (.error, 1, .quoted) := by simp [quotedPiece, hd, hn]
      exact ⟨[⟨.error, i, i + 2⟩], by simp, fun h => absurd h hd,
        inside_cons start i hp hbackslash (by simp)⟩

/-- A string goes on to where it is cut off. Nothing is wrong in it if its escapes are good. -/
theorem inside_body (start i : Nat) {cs body rest : List Char} (h : splitQuoted cs = (body, rest))
    (at' : Nat × Nat) : ∃ errors : List Stretch, (∀ s ∈ errors, s.kind = .error) ∧
      (rest ≠ [] → badEscape? body at' = none → errors = []) ∧
      inside start i cs = errors ++ inside start (i + body.length) rest := by
  fun_induction splitQuoted cs generalizing i body rest at' with
  | case1 =>
    cases h
    exact ⟨[], by simp, fun _ _ => rfl, rfl⟩
  | case2 cs =>
    cases h
    exact ⟨[], by simp, fun _ _ => rfl, rfl⟩
  | case3 c cs body' rest' hsplit ih =>
    cases h
    obtain ⟨line, col⟩ := at'
    obtain ⟨errors, herrors, hgood, heq⟩ := inside_backslash start i c cs
    obtain ⟨errors', herrors', hgood', heq'⟩ := ih (i + 2) hsplit (line, col + 2)
    refine ⟨errors ++ errors', ?_, fun hrest hbad => ?_, ?_⟩
    · intro s hs
      exact (List.mem_append.mp hs).elim (herrors s) (herrors' s)
    · rw [badEscape?] at hbad
      split_ifs at hbad with hc
      rw [hgood hc, hgood' hrest hbad]
      rfl
    · rw [heq, heq', List.append_assoc, List.length_cons, List.length_cons]
      congr 3
      omega
  | case4 c cs hq hb body' rest' hsplit ih =>
    cases h
    by_cases hc : c = '\\'
    · subst hc
      cases cs with
      | cons d cs => exact absurd rfl (hb d cs rfl)
      | nil =>
        cases hsplit
        have hp : quotedPiece '\\' [] = (.error, 0, .quoted) := rfl
        exact ⟨[⟨.error, i, i + 1⟩], by simp, fun hrest => absurd rfl hrest,
          inside_cons start i hp (by decide) (Nat.zero_le _)⟩
    · obtain ⟨at'', hat⟩ := badEscape_plain hc body' at'
      obtain ⟨errors, herrors, hgood, heq⟩ := ih (i + 1) hsplit at''
      refine ⟨errors, herrors, fun hrest hbad => hgood hrest (hat ▸ hbad), ?_⟩
      have hquote : c ≠ '"' := hq
      have hplain : (c ≠ '"' && c ≠ '\\') = true := by simp [hc, hquote]
      rw [inside_plain hplain, heq, List.length_cons, Nat.add_assoc, Nat.add_comm 1]

end Coloring
end ArrowLang
