import ArrowLang.Proofs.Chained
import ArrowLang.Proofs.Longest

/-!
# Long chains are no nesting

What an operator that groups to the left takes on its right binds more tightly than the operator, and
there are only so many precedences. So a chain of such operators is read at a small depth, however
long it is and however its precedences rise and fall.
-/
namespace ArrowLang

open Lexeme Reading

/-- No gap stands in front of a lexeme. -/
theorem Lexical.splitGap_append {k : TokenKind} {w : List Char} (h : Lexical k w) (r : List Char) :
    splitGap false (w ++ r) = ([], w ++ r) := by
  obtain ⟨c, w, rfl⟩ := List.exists_cons_of_ne_nil h.ne_nil
  by_cases hc : c = '"'
  · subst hc
    rfl
  · obtain ⟨p, hp, -⟩ := tail_append_of_eq (h.tail_eq hc) r
    exact (splitGap_of_tail hp).1

/-- A lexeme is cut alike at the end of a text and in front of a blank. -/
theorem Lexical.lex_eq {k : TokenKind} {w : List Char} (h : Lexical k w) :
    ∃ l, (k ≠ .string → l = String.ofList w) ∧ lex w = [.ok ⟨k, l, 0, 0⟩, .ok textEnd] ∧
      ∀ y, lex (w ++ ' ' :: y) = .ok ⟨k, l, 0, 0⟩ :: lex (' ' :: y) := by
  obtain ⟨l, hcut, hl⟩ := h.cutToken_eq
  have hgap := h.splitGap_append
  have hend : (cutToken w).1.isEnd = false := by
    rw [Bool.eq_false_iff, ne_eq, cutToken_isEnd]
    exact h.ne_nil
  rw [hcut] at hend
  refine ⟨l, hl, ?_, fun y => ?_⟩
  · have hw : cut w = (.ok ⟨k, l, 0, 0⟩, []) := by
      rw [cut, ← List.append_nil w, hgap, List.append_nil, hcut]
    rw [lex_of_cut hw hend, lex_nil]
  · obtain ⟨c, w, rfl⟩ := List.exists_cons_of_ne_nil h.ne_nil
    have hblank : Replaces [] (' ' :: y) := replaces_append [] [] (.inl rfl) y
    have hw : cut (c :: w ++ ' ' :: y) = (.ok ⟨k, l, 0, 0⟩, ' ' :: y) := by
      rw [cut, hgap]
      exact cutToken_replaces hblank (by simp) (by simpa using hcut) (by simp)
    exact lex_of_cut hw hend

/-- One blank or more. -/
def blanks (more : Nat) : List Char := List.replicate (more + 1) ' '

theorem lex_blanks (n : Nat) (y : List Char) : lex (List.replicate n ' ' ++ y) = lex y := by
  induction n with
  | zero => rfl
  | succ n ih => exact (piece_blank _).trans ih

/-- A lexeme that is an operand by itself. Of a number the value fits, and its digits are few enough
to be converted. -/
inductive IsAtom : List Char → Prop where
  | name {w : List Char} : IsName w → IsAtom w
  | boolean {k : TokenKind} {w : List Char} : k = .trueWord ∨ k = .falseWord →
      k.spelling? = some w → IsAtom w
  | text {body text : List Char} : Means body text → IsAtom ('"' :: (body ++ ['"']))
  | number {w : List Char} : Numeral w → (numeralToken w).Fits →
      w.countP Char.isDigit ≤ maxDigits → IsAtom w

/-- A number that fits and has few enough digits has a value. -/
theorem number_of_few {t : Token} (hn : Numeral t.lexeme.toList) (hf : t.Fits)
    (hd : t.lexeme.toList.countP Char.isDigit ≤ maxDigits) : ∃ l, number t = .ok l := by
  rcases number_of_fits hn hf with h | ⟨cause, h⟩
  · exact h
  · have hlong := (overlong_of_abort hn h).1
    rw [List.countP_eq_length.mpr hlong.digits.2] at hd
    exact absurd hlong.many (Nat.not_lt_of_le hd)

/-- Nothing excuses a reading that fails. -/
def Never (_ : Failure) : Prop := False

theorem Gives.of_never {α : Type} {R : Reading α} {w : Window} {P : α → List Token → Prop}
    (h : Gives Never R w P) : ∃ x v, R.on none w = (.ok x, v) ∧ P x v.ahead :=
  h.resolve_right fun ⟨_, _, _, hf⟩ => hf

/-- What the token of an atom is read as. -/
theorem IsAtom.yields {w : List Char} (h : IsAtom w) : ∃ k, Lexical k w ∧
    ∀ t : Token, t.kind = k → (k ≠ .string → t.lexeme = String.ofList w) →
      OperandYields Never [t] fun _ => True := by
  cases h with
  | name h => exact ⟨.identifier, .name h, fun t hk _ => (name_yields hk).imp fun _ _ => trivial⟩
  | @boolean k w hk h =>
    exact ⟨k, .spelled h, fun t ht _ => (boolean_yields (ht ▸ hk)).imp fun _ _ => trivial⟩
  | text h => exact ⟨.string, .quoted h, fun t hk _ => (text_yields hk).imp fun _ _ => trivial⟩
  | number h hf hd =>
    refine ⟨.number, .number h, fun t hk hl => ?_⟩
    have hlex : t.lexeme = String.ofList w := hl (by decide)
    have hchars : t.lexeme.toList = w := by rw [hlex, String.toList_ofList]
    have hfits : t.Fits := by
      unfold Token.Fits at hf ⊢
      rwa [hlex]
    obtain ⟨l, hnum⟩ := number_of_few (hchars ▸ h) hfits (hchars ▸ hd)
    refine (number_yields hk fun f herr => ?_).imp fun _ _ => trivial
    cases hnum.symm.trans herr

/-- An atom is one token, at the end of a text and in front of a blank. -/
theorem IsAtom.lex_eq {w : List Char} (h : IsAtom w) : ∃ t, lex w = [.ok t, .ok textEnd] ∧
    (∀ y, lex (w ++ ' ' :: y) = .ok t :: lex (' ' :: y)) ∧
      ∀ u : Token, u.bare = t → OperandYields Never [u] fun _ => True := by
  obtain ⟨k, hlexical, hyields⟩ := h.yields
  obtain ⟨l, hl, hlast, hinside⟩ := hlexical.lex_eq
  refine ⟨⟨k, l, 0, 0⟩, hlast, hinside, fun u hu => ?_⟩
  exact hyields u (congrArg Token.kind hu) fun hk => (congrArg Token.lexeme hu).trans (hl hk)

/-- An operator of a chain with the atom behind it, and how many blanks there are on its two sides. -/
structure Segment where
  before : Nat
  operator : TokenKind
  behind : Nat
  atom : List Char

structure Segment.IsLeft (s : Segment) : Prop where
  groups : (Binding.of s.operator).associativity = some .left
  atom : IsAtom s.atom

/-- The text of a chain: of an atom, and of operators with the atom behind each of them. -/
def spaced (w : List Char) : List Segment → List Char
  | [] => w
  | s :: rest => w ++ (blanks s.before ++ ((mark s.operator).lexeme.toList ++
      (blanks s.behind ++ spaced s.atom rest)))

/-- Tokens that are read as a chain whose operators all group to the left. -/
def ReadsLeft (us : List Token) : Prop :=
  ∃ us₁ us₂ ss, us = us₁ ++ us₂ ∧ OperandYields Never us₁ (fun _ => True) ∧
    Operators Never ss us₂ ∧ ∀ k ∈ kindsOf ss, ¬ k.GroupsRight

theorem lex_spaced {w : List Char} {segments : List Segment} (hw : IsAtom w)
    (hs : ∀ s ∈ segments, s.IsLeft) : ∃ ts, lex (spaced w segments) = (ts ++ [textEnd]).map .ok ∧
      ∀ us, us.map Token.bare = ts → ReadsLeft us := by
  obtain ⟨t, hlast, hinside, hatom⟩ := hw.lex_eq
  induction segments generalizing w t with
  | nil =>
    refine ⟨[t], hlast, fun us hus => ?_⟩
    obtain ⟨u, rfl, hu⟩ := List.map_eq_singleton_iff.mp hus
    exact ⟨[u], [], [], rfl, hatom u hu, .nil, by simp [kindsOf]⟩
  | cons s segments ih =>
    obtain ⟨hleft, hs⟩ := List.forall_mem_cons.mp hs
    have hi : (Binding.of s.operator).associativity.isSome := by rw [hleft.groups]; rfl
    obtain ⟨t', hlast', hinside', hatom'⟩ := hleft.atom.lex_eq
    obtain ⟨ts, hlex, hreads⟩ := ih hleft.atom hs t' hlast' hinside' hatom'
    refine ⟨t :: mark s.operator :: ts, ?_, fun us hus => ?_⟩
    · calc lex (spaced w (s :: segments))
          = .ok t :: lex ((mark s.operator).lexeme.toList ++ (blanks s.behind ++
              spaced s.atom segments)) := by
            rw [spaced, blanks, List.replicate_succ, List.cons_append, hinside]
            exact congrArg _ (lex_blanks (s.before + 1) _)
        _ = .ok t :: .ok (mark s.operator) :: lex (spaced s.atom segments) := by
            rw [blanks, List.replicate_succ, List.cons_append, lex_operator hi, lex_blanks]
        _ = ((t :: mark s.operator :: ts) ++ [textEnd]).map .ok := by
            rw [hlex]
            rfl
    · obtain ⟨u, us, rfl, hu, hus⟩ := List.map_eq_cons_iff.mp hus
      obtain ⟨o, us, rfl, ho, hus⟩ := List.map_eq_cons_iff.mp hus
      obtain ⟨us₁, us₂, ss, rfl, hyields, hoperators, hgroups⟩ := hreads us hus
      have hk : o.kind = s.operator := kind_of_bare_mark ho
      refine ⟨[u], o :: us₁ ++ us₂, (o, fun _ => True) :: ss, rfl, hatom u hu,
        .cons (hk ▸ hi) hyields hoperators, ?_⟩
      refine List.forall_mem_cons.mpr ⟨fun hright => ?_, hgroups⟩
      cases hright.symm.trans (hk ▸ hleft.groups)

/-- A chain whose operators group to the left is read at any depth that the precedences leave room
for. -/
theorem ReadsLeft.gives {us : List Token} (h : ReadsLeft us) {depth : Nat} (hd : 9 ≤ depth)
    {w : Window} {e : Token} (ha : w.ahead = us ++ [e]) (he : e.kind = .endOfText) :
    Gives Never (expression depth .or) w fun _ rest => True ∧ rest = [e] := by
  obtain ⟨us₁, us₂, ss, rfl, hyields, hoperators, hgroups⟩ := h
  have room : Roomy Never depth .or (kindsOf ss) := .inr ⟨Nat.succ_le_succ hd, by decide, hgroups⟩
  have hends : Ends [e] := ⟨e, [], rfl, by rw [he]; rfl⟩
  exact (expression_gives depth (by decide) room hyields hoperators ha hends).imp
    fun _ _ hread => ⟨trivial, hread.whole.2⟩

theorem ReadsLeft.begins {us : List Token} (h : ReadsLeft us) : Begins us := by
  obtain ⟨us₁, us₂, ss, rfl, hyields, -, -⟩ := h
  obtain ⟨t, r, rfl, ht⟩ := hyields.begins
  exact ⟨t, r ++ us₂, rfl, ht⟩

/-- A text of tokens that are read as such a chain is one declaration, where the precedences alone
have room. -/
theorem ReadsLeft.forms {text : String} {us : List Token} {e : Token} (h : ReadsLeft us)
    (hus : (Cursor.ofText text).outcomes = (us ++ [e]).map .ok) (he : e.kind = .endOfText) :
    ∃ x v, (Window.start text).forms none 9 = (.ok [.evaluated x], v) ∧ v.diagnostics = #[] := by
  obtain ⟨hsilent, hdiagnostics, ha⟩ := Window.start_of_outcomes hus
  rw [h.begins.dropNewlines_append] at ha
  have hgives := evaluated_gives (h.gives (Nat.le_refl 9) ha he) (.inr he)
  obtain ⟨d, v, hd, ⟨x, -, rfl⟩, hrest⟩ := hgives.of_never
  obtain ⟨hturn, -, hsame⟩ := turn_of_declaration hsilent hd
  have hend : v.skipNewlines.current.kind = .endOfText := by
    have hk : v.current.kind = .endOfText := (Window.current_of_ahead hrest).symm ▸ he
    rw [Window.skipNewlines_of_ne (by rw [hk]; decide), hk]
  exact ⟨x, _, forms_of_last (h.begins.current_ne_end ha) hturn hend, hsame.trans hdiagnostics⟩

/-- A text of tokens that are read as such a chain is one declaration, at any depth that the
precedences leave room for and with as many frames as that depth takes. -/
theorem ReadsLeft.read {text : String} {us : List Token} {e : Token} (h : ReadsLeft us)
    (hus : (Cursor.ofText text).outcomes = (us ++ [e]).map .ok) (he : e.kind = .endOfText) :
    (∀ stack, 29 ≤ stack → ∃ x, Program.read stack text = .ok ⟨[.evaluated x], []⟩) ∧
      ∀ depth, 9 ≤ depth → ∃ x v, (expression depth .or).on none (Window.start text) = (.ok x, v) ∧
        v.current.kind = .endOfText := by
  refine ⟨fun stack hstack => ?_, fun depth hd => ?_⟩
  · obtain ⟨x, v, hforms, hdiagnostics⟩ := h.forms hus he
    have hframes : 3 * 9 + 10 ≤ Window.ownFrames + stack := Nat.add_le_add_left hstack 8
    have hdepth : 9 ≤ Window.ownFrames + stack := Nat.le_trans (by decide) hframes
    have hroom : Stack.holds (some (Window.ownFrames + stack)) (3 * 9 + 10) = true :=
      decide_eq_true hframes
    have hsame := Window.forms_covers hdepth (Stack.covers_of_holds hroom none)
      (by rw [hforms, hdiagnostics]; simp)
    exact ⟨x, by rw [Program.read_eq, Window.read, hsame, hforms, hdiagnostics]; rfl⟩
  · obtain ⟨-, -, ha⟩ := Window.start_of_outcomes hus
    rw [h.begins.dropNewlines_append] at ha
    obtain ⟨x, v, hx, -, hrest⟩ := (h.gives hd ha he).of_never
    exact ⟨x, v, hx, (Window.current_of_ahead hrest).symm ▸ he⟩

/-- Atoms with operators between them that group to the left, in blanks, are one declaration without a
diagnostic, however many they are: a few frames are enough for all of them. They would be so at any
depth of nesting from nine on. -/
theorem Program.read_spaced {w : List Char} {segments : List Segment} (hw : IsAtom w)
    (hs : ∀ s ∈ segments, s.IsLeft) :
    (∀ stack, 29 ≤ stack → ∃ x,
      read stack (String.ofList (spaced w segments)) = .ok ⟨[.evaluated x], []⟩) ∧
      ∀ depth, 9 ≤ depth → ∃ x v,
        (expression depth .or).on none (Window.start (String.ofList (spaced w segments))) =
          (.ok x, v) ∧ v.current.kind = .endOfText := by
  obtain ⟨ts, hlex, hreads⟩ := lex_spaced hw hs
  have htext : (String.ofList (spaced w segments)).toList = spaced w segments := String.toList_ofList
  rw [← htext] at hlex
  obtain ⟨us, e, hus, he, hbare⟩ := outcomes_of_lex hlex
  exact (hreads us hbare).read hus he

/-- A chain whose precedences rise and fall, of a name, a number, a string and a truth value. -/
theorem Program.read_spaced_mixed :
    (∃ x, read 29 "x + 007 ^ \"a\\n\"  or true" = .ok ⟨[.evaluated x], []⟩) ∧
      ∃ x v, (expression 9 .or).on none (Window.start "x + 007 ^ \"a\\n\"  or true") = (.ok x, v) ∧
        v.current.kind = .endOfText := by
  have hname : IsAtom ['x'] := .name ⟨⟨'x', [], rfl, by decide, nofun⟩, by decide⟩
  have hnumber : IsAtom ['0', '0', '7'] :=
    .number (.whole ⟨by simp, by simp⟩) (fits_of_number (l := .int 7) rfl).1 (by simp [maxDigits])
  have hmeans : Means ['a', '\\', 'n'] ['a', '\n'] :=
    .plain (by decide) (by decide) (.escape (by decide) .nil)
  have hword : IsAtom ['t', 'r', 'u', 'e'] := .boolean (.inl rfl) rfl
  have hplus : Segment.IsLeft ⟨0, .plus, 0, _⟩ := ⟨rfl, hnumber⟩
  have hcaret : Segment.IsLeft ⟨0, .caret, 0, _⟩ := ⟨rfl, .text hmeans⟩
  have hor : Segment.IsLeft ⟨1, .orWord, 0, _⟩ := ⟨rfl, hword⟩
  obtain ⟨hread, hdepth⟩ := read_spaced hname (List.forall_mem_cons.mpr ⟨hplus,
    List.forall_mem_cons.mpr ⟨hcaret, List.forall_mem_singleton.mpr hor⟩⟩)
  exact ⟨hread 29 (Nat.le_refl 29), hdepth 9 (Nat.le_refl 9)⟩

end ArrowLang
