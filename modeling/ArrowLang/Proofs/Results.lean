import ArrowLang.Proofs.Positions
import ArrowLang.Proofs.WellFormed
import Mathlib

/-!
# What readings find

Lexemes that suit the kinds of their tokens make well-formed trees, whether or not a fault was
reported before. A reading that fails blames a token that it has seen: it asks for a few things in
fixed words, and no other fault arises but an operand that is missing and a number that does not fit.
What ends the reading of the whole text is the conversion of a number.
-/
namespace ArrowLang

open Reading

/-- What is asked for, and in which words. -/
def expectations : List (TokenKind × String) :=
  [(.rightParen, "Expected ')' after tuple."), (.rightParen, "Expected ')' after expression."),
    (.rightSquare, "Expected ']' after list."), (.identifier, "Expected pattern before '|'."),
    (.pipe, "Expected '|' after pattern."), (.rightBrace, "Expected '\x7d' after function."),
    (.identifier, "Expected constant name before '='."),
    (.newline, "Expected newline after expression.")]

/-- The faults that arise, with the tokens that they are blamed on. -/
inductive Raised : GrammarFault → Token → Prop where
  | operand (t : Token) : Raised .expectedExpression t
  | token {k : TokenKind} {message : String} (t : Token) : (k, message) ∈ expectations →
      Raised (.expectedToken k message) t
  | number {range : String} {t : Token} : t.kind = .number →
      range = GrammarFault.integerRange ∨ range = GrammarFault.floatRange →
      Raised (.invalidNumber range) t

theorem raised_of_number {t u : Token} {g : GrammarFault} (hk : t.kind = .number)
    (h : number t = .error (.fault g u)) : Raised g u := by
  obtain rfl := token_of_number h
  rcases hs : splitPoint u.lexeme.toList with ⟨whole, _ | fraction⟩
  · rw [number_whole hs] at h
    split at h
    · cases h
      exact .number hk (.inl rfl)
    · split at h
      · cases h
      · split at h <;> cases h
        exact .number hk (.inl rfl)
  · rw [number_pointed hs] at h
    split at h <;> cases h
    exact .number hk (.inr rfl)

/-- A failure that only known tokens account for. -/
def Failure.Within (S : Token → Prop) : Failure → Prop
  | .fault g t => S t ∧ Raised g t
  | .tooDeep _ => True
  | .abort cause => ∃ t, S t ∧ t.kind = .number ∧ number t = .error (.abort cause)

namespace Window

variable {S : Token → Prop} {lost : Outcome → Prop} {w v : Window}

/-- Known tokens alone come into sight, whatever gets lost of what may. -/
def Within (S : Token → Prop) (lost : Outcome → Prop) (w : Window) : Prop :=
  ∀ v, w.Strays lost v → S v.current

theorem Within.current (h : w.Within S lost) : S w.current := h w (.refl w)

theorem Strays.within (h : w.Strays lost v) (hw : w.Within S lost) : v.Within S lost :=
  fun u hu => hw u (h.trans hu)

theorem Within.advance (h : w.Within S lost) : w.advance.Within S lost :=
  (reaches_advance w).strays.within h

/-- What strays behind a report strays without it. -/
theorem Strays.of_report {d : Diagnostic} (h : (w.report d).Strays lost v) :
    ∃ u, w.Strays lost u ∧ v.current = u.current ∧ v.cursor = u.cursor := by
  refine h.preserves (P := fun v => ∃ u, w.Strays lost u ∧ v.current = u.current ∧
    v.cursor = u.cursor) ?_ ⟨w, .refl w, rfl, rfl⟩
  rintro x y hs ⟨u, hu, hc, hr⟩
  have go : ∀ {u' : Window}, Slip lost u u' → w.Strays lost u' := fun h => hu.trans (.single h)
  cases hs with
  | step hs => cases hs with
    | pass => exact ⟨u, hu, hc, hr⟩
    | error hx hn =>
      rw [hc] at hx
      rw [hr] at hn
      exact ⟨_, go (.step (.error hx hn)), hc, rfl⟩
    | token hx hn =>
      rw [hc] at hx
      rw [hr] at hn
      exact ⟨_, go (.step (.token hx hn)), rfl, rfl⟩
  | lose hx ho =>
    rw [hc] at hx
    rw [hr] at ho
    exact ⟨_, go (.lose hx ho), hc, congrArg Cursor.broken hr⟩

theorem Within.report (h : w.Within S lost) (d : Diagnostic) : (w.report d).Within S lost := by
  intro v hv
  obtain ⟨u, hu, hc, -⟩ := hv.of_report
  rw [hc]
  exact h u hu

end Window

namespace Cursor

/-- The cursor stands in the text, on a line that the text has. -/
structure Inside (text : String) (s : Cursor) : Prop where
  rest : s.rest <:+ text.toList
  first : 1 ≤ s.line
  last : s.line + s.rest.count '\n' ≤ text.toList.count '\n' + 1

variable {text : String} {s v : Cursor}

theorem inside_ofText (text : String) : (ofText text).Inside text :=
  ⟨List.suffix_rfl, Nat.le_refl 1, by simp only [ofText]; omega⟩

/-- What moves over a part of the text counts at most the newlines in it. -/
theorem Inside.over {span : List Char} (h : s.Inside text) (hr : s.rest = span ++ v.rest)
    (hf : s.line ≤ v.line) (hl : v.line ≤ s.line + span.count '\n') : v.Inside text where
  rest := (List.suffix_append span v.rest).trans (hr ▸ h.rest)
  first := Nat.le_trans h.first hf
  last := by
    have hlast := h.last
    rw [hr, List.count_append] at hlast
    omega

theorem Inside.skipGap (h : s.Inside text) : s.skipGap.Inside text :=
  h.over s.rest_skipGap (Nat.le_refl _) (Nat.le_add_right _ _)

theorem Behind.le_line {span : List Char} {place : Nat × Nat} (h : s.Behind span place) :
    place.1 ≤ s.line + span.count '\n' := by
  have heq := h.1
  omega

theorem Inside.next (h : s.Inside text) : s.next.2.Inside text := by
  obtain ⟨span, ht⟩ := takes_token s.skipGap
  exact h.skipGap.over ht.rest ht.behind.line_le ht.behind.le_line

theorem Inside.broken (h : s.Inside text) : s.broken.Inside text := by
  simp only [Cursor.broken]
  split
  · next cs hcs =>
    split
    · next part hpart =>
      obtain ⟨more, hmore⟩ := (Lexeme.badPart?_prefix hpart).trans
        ⟨_, Lexeme.splitQuoted_append cs⟩
      have hb := s.skipGap.behind_unended part
      have hrest : s.skipGap.rest = ('"' :: part) ++ cs.drop part.length := by
        rw [hcs, ← hmore, List.drop_left]
        rfl
      exact h.skipGap.over hrest hb.line_le hb.le_line
    · exact h.next
  · exact h.next

end Cursor

/-- A token that is cut somewhere in a text, among its cuts from the beginning on unless an error of a
string got lost. -/
def TokenOf (lost : Outcome → Prop) (text : String) (t : Token) : Prop :=
  (∃ s : Cursor, s.Inside text ∧ s.next.1 = .ok t) ∧
    (.ok t ∈ (Cursor.ofText text).outcomes ∨ ∃ o, lost o ∧ o.inString = true)

/-- Where no error of a string is cut in a text, none gets lost. -/
theorem Program.Loses.not_inString {n : Nat} {text : String} {o : Outcome}
    (h : Program.Loses n text o)
    (hstring : ∀ o ∈ (Cursor.ofText text).outcomes, o.inString = false) : o.inString = false := by
  have hrest : (Window.start text).rest ⊆ (Cursor.ofText text).outcomes := fun o ho =>
    Window.rest_ofText text ▸ (Window.reaches_start text).rest_suffix.mem ho
  exact hstring o (hrest (Window.Loses.mem h fun o ho => hstring o (hrest ho)))

theorem TokenOf.lexed {lost : Outcome → Prop} {text : String} {t : Token}
    (h : TokenOf lost text t) : t.Lexed := by
  obtain ⟨⟨s, -, hs⟩, -⟩ := h
  exact lexed_of_next hs

/-- What a diagnostic is about is cut somewhere in the text. -/
inductive Diagnostic.About (lost : Outcome → Prop) (text : String) : Diagnostic → Prop where
  | error {s : Cursor} {e : LexicalError} : s.Inside text → s.next.1 = .error e →
      About lost text (.ofLexical e)
  | token {g : GrammarFault} {t : Token} : TokenOf lost text t → Raised g t ∨ g = .nestingTooDeep →
      About lost text (.grammar g t)

namespace Window

/-- What can still be cut at a window into a text, and what was reported. -/
structure Drawn (lost : Outcome → Prop) (text : String) (w : Window) : Prop where
  behind : w.cursor.Inside text
  rest : w.rest ⊆ (Cursor.ofText text).outcomes ∨ ∃ o, lost o ∧ o.inString = true
  told : ∀ d ∈ w.diagnostics.toList, d.About lost text

/-- A window in which a token of the text is in sight. -/
structure Into (lost : Outcome → Prop) (text : String) (w : Window) : Prop
    extends w.Drawn lost text where
  current : TokenOf lost text w.current

section
variable {lost : Outcome → Prop} {text : String} {v w : Window}

theorem drawn_ofText (lost : Outcome → Prop) (text : String) : (ofText text).Drawn lost text :=
  ⟨Cursor.inside_ofText text, .inl fun _ ho => rest_ofText text ▸ ho, by simp [ofText]⟩

theorem Drawn.error {e : LexicalError} {s : Cursor} (h : w.Drawn lost text)
    (hc : w.current.kind ≠ .endOfText) (hn : w.cursor.next = (.error e, s)) :
    (w.pass e s).Drawn lost text where
  behind := by
    have hnext := h.behind.next
    rwa [hn] at hnext
  rest := h.rest.imp_left fun hr o ho => by
    rw [rest_of_error hc hn] at hr
    exact hr (List.mem_cons_of_mem _ ho)
  told d hd := by
    rcases mem_report.mp hd with hd | rfl
    · exact h.told d hd
    · exact .error h.behind (by rw [hn])

theorem Drawn.token {t : Token} {s : Cursor} (h : w.Drawn lost text)
    (hc : w.current.kind ≠ .endOfText) (hn : w.cursor.next = (.ok t, s)) :
    Into lost text ⟨w.current, t, s, w.diagnostics⟩ := by
  have hr := rest_of_ok hc hn
  rw [advance_of_ok hc hn] at hr
  have hnext := h.behind.next
  rw [hn] at hnext
  refine ⟨⟨hnext, h.rest.imp_left fun h o ho => ?_, h.told⟩, ⟨_, h.behind, by rw [hn]⟩,
    h.rest.imp_left fun h => ?_⟩
  · exact h (hr ▸ List.mem_cons_of_mem _ ho)
  · exact h (hr ▸ List.mem_cons_self)

theorem Drawn.lose (h : w.Drawn lost text) (hc : w.current.kind ≠ .endOfText)
    (ho : lost w.cursor.next.1) : Drawn lost text { w with cursor := w.cursor.broken } := by
  refine ⟨h.behind.broken, ?_, h.told⟩
  cases hs : Outcome.inString w.cursor.next.1 with
  | true => exact .inr ⟨_, ho, hs⟩
  | false =>
    refine h.rest.imp_left fun h => ?_
    rcases rest_broken hc hs with hr | hr
    · exact fun o ho => h (hr ▸ List.mem_cons_of_mem _ ho)
    · exact hr ▸ h

theorem Strays.into (hv : w.Strays lost v) (h : w.Into lost text) : v.Into lost text := by
  refine hv.preserves (P := fun v => v.Into lost text) (fun u v hs hu => ?_) h
  cases hs with
  | step hs => cases hs with
    | pass => exact ⟨⟨hu.behind, hu.rest, hu.told⟩, hu.current⟩
    | error hc hn => exact ⟨hu.toDrawn.error hc hn, hu.current⟩
    | token hc hn => exact hu.toDrawn.token hc hn
  | lose hc ho => exact ⟨hu.toDrawn.lose hc ho, hu.current⟩

theorem Into.within (h : w.Into lost text) : w.Within (TokenOf lost text) lost :=
  fun _ hv => (hv.into h).current

theorem Drawn.advance (h : w.Drawn lost text) (hc : w.current.kind ≠ .endOfText) :
    w.advance.Into lost text := by
  induction w, hc using advance_induction with
  | token w hc t v hn =>
    rw [advance_of_ok hc hn]
    exact h.token hc hn
  | error w hc e v hn ih =>
    rw [advance_of_error hc hn]
    exact ih (h.error hc hn)

theorem into_start (lost : Outcome → Prop) (text : String) : (start text).Into lost text :=
  (reaches_skipNewlines _).strays.into
    ((drawn_ofText lost text).advance (show TokenKind.absent ≠ .endOfText by decide))

end

end Window

/-- No token that joins nothing is taken for an operator. -/
theorem Binding.infix_of_level {k : TokenKind} (h : 1 ≤ (Binding.of k).precedence.level) :
    ∃ a, (Binding.of k).associativity = some a := by
  cases k <;> first | exact ⟨_, rfl⟩ | cases h

namespace Reading

variable {α β : Type}

/-- A result as described, or a failure that known tokens account for. -/
inductive Found (S : Token → Prop) (lost : Outcome → Prop) (P : α → Prop) :
    Except Failure α × Window → Prop where
  | ok {x : α} {v : Window} : v.Within S lost → P x → Found S lost P (.ok x, v)
  | error {f : Failure} {v : Window} : v.Within S lost → f.Within S → Found S lost P (.error f, v)

/-- Where the tokens are known, the reading finds what is described. -/
def Finds (S : Token → Prop) (lost : Outcome → Prop) (R : Reading α) (P : α → Prop) : Prop :=
  ∀ ⦃w : Window⦄, w.Within S lost → Found S lost P (R.on none w)

/-- Nothing is said of a result. -/
def Anything (_ : α) : Prop := True

variable {S : Token → Prop} {lost : Outcome → Prop} {R R' : Reading α} {P : α → Prop}
  {f : α → Reading β} {Q : β → Prop}

theorem finds_pure {x : α} (h : P x) : Finds S lost (pure x) P := fun _ hw => .ok hw h

theorem finds_throw {e : Failure} (h : e.Within S) : Finds S lost (throw e : Reading α) P :=
  fun _ hw => .error hw h

theorem Finds.bind (hR : Finds S lost R P) (hf : ∀ x, P x → Finds S lost (f x) Q) :
    Finds S lost (R >>= f) Q := by
  intro w hw
  rw [on_bind]
  have h := hR hw
  generalize R.on none w = r at h
  cases h with
  | ok hv hx => exact hf _ hx hv
  | error hv he => exact .error hv he

theorem Finds.ite (c : Prop) [Decidable c] (hR : Finds S lost R P) (hR' : Finds S lost R' P) :
    Finds S lost (if c then R else R') P := by
  split
  · exact hR
  · exact hR'

theorem Finds.call (hR : Finds S lost R P) : Finds S lost (call R) P := by
  intro w hw
  rw [on_call_none]
  exact hR hw

theorem finds_advance : Finds S lost advance Anything := by
  intro w hw
  rw [on_advance]
  exact .ok hw.advance trivial

theorem finds_skipNewlines : Finds S lost skipNewlines Anything := by
  intro w hw
  rw [on_skipNewlines]
  exact .ok ((Window.reaches_skipNewlines w).strays.within hw) trivial

theorem finds_previous : Finds S lost previous Anything := fun _ hw => .ok hw trivial

theorem finds_current : Finds S lost current S := fun _ hw => .ok hw hw.current

theorem finds_check (kind : TokenKind) : Finds S lost (check kind) Anything :=
  fun _ hw => .ok hw trivial

theorem finds_bound : Finds S lost bound (· ≠ 0) := fun _ hw => .ok hw (Nat.succ_ne_zero _)

theorem finds_accept (kind : TokenKind) : Finds S lost (accept kind) Anything :=
  .call <| (finds_check kind).bind fun _ _ =>
    .ite _ (finds_advance.bind fun _ _ => finds_pure trivial) (finds_pure trivial)

theorem finds_expect {kind : TokenKind} {message : String} (h : (kind, message) ∈ expectations) :
    Finds S lost (expect kind message) Anything :=
  .call <| (finds_accept kind).bind fun _ _ =>
    .ite _ finds_previous (finds_current.bind fun t ht => finds_throw ⟨ht, .token t h⟩)

section
variable {sub : Sub} (hS : ∀ t, S t → t.Lexed)
  (hsub : ∀ p, p ≠ .none → Finds S lost (sub p) Expr.WellFormed)

section
include hsub

theorem finds_item : Finds S lost (item sub) Expr.WellFormed :=
  .call <| finds_skipNewlines.bind fun _ _ => (hsub .or (by decide)).bind fun _ he =>
    finds_skipNewlines.bind fun _ _ => finds_pure he

theorem finds_moreItems (n : Nat) :
    Finds S lost (moreItems sub n) fun es => ∀ e ∈ es, e.WellFormed := by
  induction n with
  | zero => exact finds_pure (by simp)
  | succ n ih =>
    refine (finds_accept .comma).bind fun _ _ => .ite _ ?_ (finds_pure (by simp))
    refine (finds_item hsub).bind fun e he => ih.bind fun es hes => finds_pure ?_
    simpa using ⟨he, hes⟩

/-- A tuple has one more item, since a comma is seen before. -/
theorem finds_group : Finds S lost (group sub) Expr.WellFormed := by
  refine (finds_item hsub).bind fun first hf => ?_
  intro w hw
  rw [on_check_bind]
  by_cases hk : w.current.kind = .comma
  · have hmore : ∀ n, Found S lost (fun es => es ≠ [] ∧ ∀ e ∈ es, e.WellFormed)
        ((moreItems sub (n + 1)).on none w) := by
      intro n
      rw [on_moreItems, if_pos hk]
      refine ((finds_item hsub).bind fun e he => (finds_moreItems hsub n).bind fun es hes =>
        finds_pure ⟨List.cons_ne_nil e es, ?_⟩) hw.advance
      simpa using ⟨he, hes⟩
    rw [hk, beq_self_eq_true, if_pos rfl, on_bind_ok (on_bound w), on_bind]
    have h := hmore w.remaining
    generalize (moreItems sub (w.remaining + 1)).on none w = r at h
    cases h with
    | error hv he => exact .error hv he
    | ok hv hes =>
      refine ((finds_expect (by simp [expectations])).bind fun _ _ => finds_pure (.tuple ?_ ?_)) hv
      · have := List.length_pos_iff.mpr hes.1
        simp only [List.length_cons]
        omega
      · simpa using ⟨hf, hes.2⟩
  · rw [beq_eq_false_iff_ne.mpr hk, if_neg Bool.false_ne_true]
    exact ((finds_expect (by simp [expectations])).bind fun _ _ => finds_pure hf) hw

omit hsub in
theorem finds_closeList {es : List Expr} (h : ∀ e ∈ es, e.WellFormed) :
    Finds S lost (closeList es) Expr.WellFormed :=
  (finds_expect (by simp [expectations])).bind fun _ _ => finds_pure (.list h)

theorem finds_list : Finds S lost (list sub) Expr.WellFormed := by
  refine finds_skipNewlines.bind fun _ _ => (finds_check .rightSquare).bind fun _ _ =>
    .ite _ (finds_closeList (by simp)) ?_
  refine (finds_item hsub).bind fun first hf => finds_bound.bind fun n _ => ?_
  refine (finds_moreItems hsub n).bind fun es hes => finds_closeList ?_
  simpa using ⟨hf, hes⟩

theorem finds_guard {first : Expr} (hf : first.WellFormed) :
    Finds S lost (guard sub first) Guard.WellFormed := by
  refine (finds_accept .question).bind fun _ _ => .ite _ ?_ ?_
  · exact (finds_item hsub).bind fun value hv => finds_pure (.mk hf hv)
  · exact finds_pure (.mk Expr.wellFormed_always hf)

omit hsub in
theorem finds_pattern {e : Expr} (he : e.WellFormed) {start : Token} (hs : S start) :
    Finds S lost (pattern e start) Pattern.WellFormed := by
  unfold pattern
  split
  · next hp => exact finds_pure (wellFormed_pattern he hp)
  · exact finds_throw ⟨hs, .token start (by simp [expectations])⟩

/-- A head of a case that may be read on. -/
def CaseHead.Found (S : Token → Prop) (h : CaseHead) : Prop := h.expr.WellFormed ∧ S h.start

/-- Guards that are well-formed, with the head of the next case if it is read. -/
def GuardsFound (S : Token → Prop) (n : Nat) (r : List Guard × Option CaseHead) : Prop :=
  (n ≠ 0 → r.1 ≠ []) ∧ (∀ g ∈ r.1, g.WellFormed) ∧ ∀ h ∈ r.2, CaseHead.Found S h

theorem finds_guards (n : Nat) {first : Expr} (hf : first.WellFormed) :
    Finds S lost (guards sub n first) (GuardsFound S n) := by
  induction n generalizing first with
  | zero => exact finds_pure ⟨by simp, by simp, nofun⟩
  | succ n ih =>
    refine (finds_guard hsub hf).bind fun g hg => (finds_accept .comma).bind fun _ _ =>
      .ite _ ?_ (finds_pure ⟨by simp, by simpa using hg, nofun⟩)
    refine finds_skipNewlines.bind fun _ _ => finds_current.bind fun start hs => ?_
    refine (finds_item hsub).bind fun next hn => (finds_check .pipe).bind fun _ _ => .ite _ ?_ ?_
    · refine finds_pure ⟨by simp, by simpa using hg, ?_⟩
      rintro h ⟨⟩
      exact ⟨hn, hs⟩
    · refine (ih hn).bind fun ⟨gs, head⟩ ⟨_, hgs, hhead⟩ => ?_
      exact finds_pure ⟨by simp, by simpa using ⟨hg, hgs⟩, hhead⟩

theorem finds_cases (n : Nat) {head : CaseHead} (hh : CaseHead.Found S head) :
    Finds S lost (cases sub n head) fun cs => (n ≠ 0 → cs ≠ []) ∧ ∀ c ∈ cs, c.WellFormed := by
  induction n generalizing head with
  | zero => exact finds_pure ⟨by simp, by simp⟩
  | succ n ih =>
    refine (finds_expect (by simp [expectations])).bind fun _ _ => ?_
    refine (finds_pattern hh.1 hh.2).bind fun p hp => ?_
    refine (finds_item hsub).bind fun first hf => finds_bound.bind fun m hm => ?_
    refine (finds_guards hsub m hf).bind fun ⟨gs, next⟩ ⟨hne, hgs, hnext⟩ => ?_
    have hc : (Case.mk p gs).WellFormed := .mk hp (hne hm) hgs
    cases next with
    | none => exact finds_pure ⟨by simp, by simpa using hc⟩
    | some next =>
      refine (ih (hnext next rfl)).bind fun cs ⟨_, hcs⟩ => ?_
      exact finds_pure ⟨by simp, by simpa using ⟨hc, hcs⟩⟩

theorem finds_function : Finds S lost (function sub) Expr.WellFormed := by
  refine finds_skipNewlines.bind fun _ _ => finds_current.bind fun start hs => ?_
  refine (finds_item hsub).bind fun first hf => finds_bound.bind fun n hn => ?_
  refine (finds_cases hsub n ⟨hf, hs⟩).bind fun cs ⟨hne, hcs⟩ => ?_
  exact (finds_expect (by simp [expectations])).bind fun _ _ => finds_pure (.function (hne hn) hcs)

end

include hS hsub

/-- The operand that the token before the window begins. -/
theorem operand_found {form : Operand} {w : Window} (hw : w.Within S lost) (hp : S w.previous)
    (hf : (Binding.of w.previous.kind).operand = some form) :
    Found S lost Expr.WellFormed ((operand sub form).on none w) := by
  have hk := Binding.mem_kinds hf
  have ht := hS _ hp
  rw [operand, on_call_none, on_bind_ok (on_previous w)]
  cases form with
  | number =>
    dsimp only
    split
    · next l hl => exact .ok hw (.literal (unsigned_of_number hl))
    · next e he =>
      refine .error hw ?_
      cases e with
      | fault g t =>
        have hprev := token_of_number he
        exact ⟨hprev ▸ hp, raised_of_number (List.mem_singleton.mp hk) he⟩
      | tooDeep lost => trivial
      | abort cause => exact ⟨w.previous, hp, List.mem_singleton.mp hk, he⟩
  | text => exact .ok hw (.literal (ht.text (List.mem_singleton.mp hk)))
  | boolean => exact .ok hw (.literal trivial)
  | name => exact .ok hw (.name (ht.identifier (List.mem_singleton.mp hk)))
  | unary =>
    have hu : w.previous.kind.IsUnary := by simpa [Operand.kinds, TokenKind.IsUnary] using hk
    have hs := ht.spelled_of_isSome (TokenKind.spelling_of_unary hu)
    exact ((hsub .unary (by decide)).bind fun x hx => finds_pure (.unary hs hu hx)) hw
  | group => exact finds_group hsub hw
  | list => exact finds_list hsub hw
  | function => exact finds_function hsub hw

theorem finds_operators {p : Precedence} (hp : p ≠ .none) (n : Nat) {left : Expr}
    (hl : left.WellFormed) : Finds S lost (operators sub p n left) Expr.WellFormed := by
  induction n generalizing left with
  | zero => exact finds_pure hl
  | succ n ih =>
    intro w hw
    rw [on_operators]
    split
    · next hle =>
      obtain ⟨a, ha⟩ := Binding.infix_of_level (Nat.le_trans (one_le_level hp) hle)
      have hr := rightPrecedence_ne_none (Nat.le_trans (one_le_level hp) hle) a
      rw [ha]
      refine ((hsub _ hr).bind fun right hright => ih ?_) hw.advance
      exact wellFormed_join (hS _ hw.current) (by simp [ha]) hl hright
    · exact .ok hw hl

end

variable (hS : ∀ t, S t → t.Lexed)
include hS

theorem finds_expression (depth : Nat) {p : Precedence} (hp : p ≠ .none) :
    Finds S lost (expression depth p) Expr.WellFormed := by
  induction depth generalizing p with
  | zero => exact finds_throw trivial
  | succ depth ih =>
    intro w hw
    rw [on_expression]
    cases hf : (Binding.of w.current.kind).operand with
    | none => exact .error hw.advance ⟨hw.current, .operand _⟩
    | some form =>
      dsimp only
      rw [on_bind]
      have hprev : S w.advance.previous := by
        rw [Window.previous_advance]
        exact hw.current
      have h := operand_found hS (fun _ => ih) hw.advance hprev (by rw [Window.previous_advance, hf])
      generalize (operand (expression depth) form).on none w.advance = r at h
      cases h with
      | error hv he => exact .error hv he
      | ok hv hleft =>
        exact (finds_bound.bind fun n _ => finds_operators hS (fun _ => ih) hp n hleft) hv

theorem finds_constant (depth : Nat) {e : Expr} (he : e.WellFormed) :
    Finds S lost (constant (expression depth) e) Decl.WellFormed := by
  unfold constant
  refine .call ?_
  split
  · exact finds_current.bind fun t ht => finds_throw ⟨ht, .token t (by simp [expectations])⟩
  · next n u ht =>
    obtain ⟨hn, hu⟩ := wellFormed_target he ht
    refine finds_advance.bind fun _ _ => ?_
    exact (finds_expression hS depth (by decide)).bind fun value hv => finds_pure ⟨hn, hu, hv⟩

omit hS in
theorem finds_ended {d : Decl} (h : d.WellFormed) : Finds S lost (ended d) Decl.WellFormed :=
  (finds_check .newline).bind fun _ _ => (finds_check .endOfText).bind fun _ _ =>
    .ite _ (finds_pure h) (finds_current.bind fun t ht =>
      finds_throw ⟨ht, .token t (by simp [expectations])⟩)

theorem finds_declaration (depth : Nat) :
    Finds S lost (declaration (expression depth)) Decl.WellFormed := by
  refine .call <| (finds_expression hS depth (by decide)).bind fun e he => ?_
  refine (finds_check .equal).bind fun _ _ => .ite _ ?_ (finds_ended he)
  exact (finds_constant hS depth he).bind fun d hd => finds_ended hd

end Reading

namespace Window

variable {S : Token → Prop} {lost : Outcome → Prop} {stack : Stack} {depth : Nat} {w : Window}
  (hS : ∀ t, S t → t.Lexed)
include hS

/-- What a turn gives that loses only what may get lost: a well-formed declaration if any, and an end
only for a reason. -/
theorem turn_found (hw : w.Within S lost)
    (hl : ∀ o, Loss ((declaration (expression depth)).on stack w).1 o → lost o) :
    (w.turn stack depth).2.Within S lost ∧ match (w.turn stack depth).1 with
      | .ok d => ∀ x ∈ d, Decl.WellFormed x
      | .error cause => Failure.Within S (.abort cause) := by
  refine ⟨turn_preserves (fun hs hv => (hs.mono hl).within hv) (fun hv => hv.report _) hw, ?_⟩
  have hfound := finds_declaration hS depth hw
  unfold turn
  rcases hd : (declaration (expression depth)).on stack w with ⟨(⟨g, t⟩ | _ | cause) | d, v⟩
  · simp
  · simp
  · rw [declaration_on_none hd (by simp)] at hfound
    cases hfound with | error _ hf => exact hf
  · rw [declaration_on_none hd (by simp)] at hfound
    cases hfound with | ok _ hd => simpa using hd

/-- What all turns give. -/
theorem forms_found (hw : w.Within S lost) (hl : ∀ o, w.Loses stack depth o → lost o) :
    match (w.forms stack depth).1 with
    | .ok ds => ∀ d ∈ ds, d.WellFormed
    | .error cause => Failure.Within S (.abort cause) := by
  induction w using forms_induction stack depth with
  | last w hc =>
    rw [forms_of_end hc]
    simp
  | turn w hc ih =>
    obtain ⟨hv, ht⟩ := turn_found hS hw fun o ho => hl o ⟨[], w, .here w, hc, ho⟩
    rw [forms_of_turn hc]
    rcases hturn : w.turn stack depth with ⟨cause | d, v⟩ <;> rw [hturn] at ht hv ih
    · exact ht
    · have hv := ih hv fun o ho => hl o (ho.of_turn hc hturn)
      dsimp only at hv ⊢
      rcases hds : (v.forms stack depth).1 with cause | ds <;> rw [hds] at hv
      · exact hv
      · intro x hx
        rcases List.mem_append.mp hx with hx | hx
        · exact ht x (Option.mem_toList.mp hx)
        · exact hv x hx

end Window

theorem Window.wellFormed_of_forms {stack : Nat} {source : String} {ds : List Decl}
    (h : (Window.read stack source).1 = .ok ds) : ∀ d ∈ ds, d.WellFormed := by
  have hf := forms_found (fun _ => TokenOf.lexed)
    (into_start (Program.Loses stack source) source).within fun _ => id
  rwa [show ((start source).forms _ _).1 = .ok ds from h] at hf

/-- Every declaration that is read is well-formed. -/
theorem Program.wellFormed_of_read {stack : Nat} {source : String} {p : Program}
    (h : Program.read stack source = .ok p) : ∀ d ∈ p.decls, d.WellFormed :=
  Window.wellFormed_of_forms (read_eq_ok h).1

/-- A negative pattern, a guard without a value and an application are read behind a fault. -/
theorem Program.wellFormed_of_read_function :
    ∃ d, (Program.read 20 "1 = 2\nf <- \x7b -3 | x \x7d").map Program.decls =
      .ok [.evaluated (.of (.literal (.int 2))), d] ∧ d.WellFormed := by
  have h : Program.read 20 "1 = 2\nf <- \x7b -3 | x \x7d" =
      .ok ⟨[.evaluated (.of (.literal (.int 2))), .evaluated (.of (.apply ⟨.leftArrow, "<-", 2, 4⟩ (.of (.name ⟨.identifier, "f", 2, 1⟩))
        (.of (.function [.mk (.literal (.int (-3)))
          [.mk Expr.always (.of (.name ⟨.identifier, "x", 2, 13⟩))]]))))],
      [.grammar (.expectedToken .identifier "Expected constant name before '='.")
        ⟨.equal, "=", 1, 3⟩]⟩ := by
    set_option maxRecDepth 4000 in cbv
  have hwell := Program.wellFormed_of_read h
  rw [h]
  exact ⟨_, rfl, hwell _ (by simp)⟩

end ArrowLang
