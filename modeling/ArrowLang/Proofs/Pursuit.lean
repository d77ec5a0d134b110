import ArrowLang.Proofs.Acceptance

/-!
# Windows that differ in newlines

Two streams of tokens that differ in newlines only, and there where newlines mean nothing: behind an
opening bracket, in front of a closing one and on both sides of what separates. What the windows on
them see, and what it is that a reading at the second window follows one at the first.
-/
namespace ArrowLang

open Reading

namespace TokenKind

def opens : TokenKind → Bool
  | .leftParen | .leftSquare | .leftBrace => true
  | _ => false

def closes : TokenKind → Bool
  | .rightParen | .rightSquare | .rightBrace => true
  | _ => false

def separates : TokenKind → Bool
  | .comma | .pipe | .question => true
  | _ => false

/-- Newlines mean nothing behind a token of the kind. -/
def LooseBehind (k : TokenKind) : Prop := k.opens ∨ k.separates

/-- Newlines mean nothing in front of a token of the kind. -/
def LooseBefore (k : TokenKind) : Prop := k.closes ∨ k.separates

instance (k : TokenKind) : Decidable k.LooseBehind := inferInstanceAs (Decidable (_ ∨ _))

instance (k : TokenKind) : Decidable k.LooseBefore := inferInstanceAs (Decidable (_ ∨ _))

/-- What may stand behind a loose place neither begins an expression nor goes on with one. -/
theorem LooseBefore.binding {k : TokenKind} (h : k.LooseBefore) :
    (Binding.of k).precedence.level = 0 ∧ (Binding.of k).operand = none ∧ k ≠ .equal ∧
      k ≠ .endOfText := by
  revert h
  cases k <;> decide

theorem not_looseBehind_of_infix {k : TokenKind} {a : Associativity}
    (h : (Binding.of k).associativity = some a) : ¬ k.LooseBehind := by
  revert h
  cases k <;> cases a <;> decide

/-- Of the tokens that begin an operand only the brackets are followed by a loose place. -/
theorem not_looseBehind_of_operand {k : TokenKind} {form : Operand}
    (h : (Binding.of k).operand = some form) (hg : form ≠ .group) (hl : form ≠ .list)
    (hf : form ≠ .function) : ¬ k.LooseBehind := by
  intro hk
  cases k with
  | leftParen => exact hg (Option.some.inj h).symm
  | leftSquare => exact hl (Option.some.inj h).symm
  | leftBrace => exact hf (Option.some.inj h).symm
  | comma | pipe | question => cases h
  | _ => exact absurd hk (by decide)

end TokenKind

namespace Pursuit

/-- Tokens that `f` does not tell apart, but for newlines: the second tokens have newlines wherever
the first ones have, and apart from that only where newlines mean nothing. In front of them stands a
token of kind `k`. -/
inductive Spread (f : Token → Token) : (k : TokenKind) → List Token → List Token → Prop where
  | nil (k : TokenKind) : Spread f k [] []
  | cons {k : TokenKind} {ns ms ts us : List Token} {t u : Token} : Newlines ns → Newlines ms →
      (ns ≠ [] → ms ≠ []) → (ns = [] → ms ≠ [] → k.LooseBehind ∨ t.kind.LooseBefore) →
      t.kind ≠ .newline → f t = f u → Spread f t.kind ts us →
      Spread f k (ns ++ t :: ts) (ms ++ u :: us)

section
variable (f : Token → Token)

/-- Windows behind a token of kind `k` with such tokens ahead. -/
structure Near (k : TokenKind) (w w' : Window) : Prop where
  spread : Spread f k w.ahead w'.ahead

/-- Windows at the same token, which is no newline. -/
structure InStep (w w' : Window) : Prop where
  current : f w.current = f w'.current
  kind_ne : w.current.kind ≠ .newline
  spread : Spread f w.current.kind w.ahead.tail w'.ahead.tail

/-- Near windows behind a token that is not followed by a loose place. -/
def Behind (w w' : Window) : Prop := ∃ k : TokenKind, ¬ k.LooseBehind ∧ Near f k w w'

abbrev SameExpr (e e' : Expr) : Prop := e.retoken f f = e'.retoken f f

abbrev SameExprs (es es' : List Expr) : Prop :=
  es.map (Expr.retoken f f) = es'.map (Expr.retoken f f)

abbrev SameGuard (g g' : Guard) : Prop := g.retoken f f = g'.retoken f f

abbrev SameCases (cs cs' : List Case) : Prop :=
  cs.map (Case.retoken f f) = cs'.map (Case.retoken f f)

abbrev SameDecl (d d' : Decl) : Prop := d.retoken f f = d'.retoken f f

/-- The guards of a case with the head of the next one. -/
def SameGuards (r r' : List Guard × Option CaseHead) : Prop :=
  r.1.map (Guard.retoken f f) = r'.1.map (Guard.retoken f f) ∧
    Option.Rel (fun h h' => SameExpr f h.expr h'.expr) r.2 r'.2

end

variable {f : Token → Token} {w w' : Window}

section
variable (hf : Keeps f)
include hf

theorem kind_eq {t u : Token} (h : f t = f u) : u.kind = t.kind := by
  rw [← (hf t).1, h, (hf u).1]

theorem bare_eq {t u : Token} (h : f t = f u) : t.bare = u.bare :=
  Token.bare_eq_iff.mpr ⟨(kind_eq hf h).symm, by rw [← (hf t).2, h, (hf u).2]⟩

end

/-- What stands ahead of near windows. -/
theorem Near.inv {k : TokenKind} (h : Near f k w w') : ∃ ns ms ts us t u,
    w.ahead = ns ++ t :: ts ∧ w'.ahead = ms ++ u :: us ∧ Newlines ns ∧ Newlines ms ∧
      (ns ≠ [] → ms ≠ []) ∧ (ns = [] → ms ≠ [] → k.LooseBehind ∨ t.kind.LooseBefore) ∧
      t.kind ≠ .newline ∧ f t = f u ∧ Spread f t.kind ts us := by
  have hs := h.spread
  generalize ha : w.ahead = x at hs
  generalize ha' : w'.ahead = y at hs
  cases hs with
  | nil => exact absurd ha (List.cons_ne_nil _ _)
  | cons hn hm hnm hloose ht htu hs =>
    exact ⟨_, _, _, _, _, _, rfl, rfl, hn, hm, hnm, hloose, ht, htu, hs⟩

theorem InStep.of_ahead {ts us : List Token} {t u : Token} (ha : w.ahead = t :: ts)
    (ha' : w'.ahead = u :: us) (ht : t.kind ≠ .newline) (htu : f t = f u) (hs : Spread f t.kind ts us) : InStep f w w' := by
  obtain rfl := Window.current_of_ahead ha
  obtain rfl := Window.current_of_ahead ha'
  refine ⟨htu, ht, ?_⟩
  rw [ha, ha']
  exact hs

theorem InStep.near (h : InStep f w w') (k : TokenKind) : Near f k w w' := by
  have hnone : Newlines [] := nofun
  exact ⟨.cons hnone hnone (fun hn => absurd rfl hn)
    (fun _ hm => absurd rfl hm) h.kind_ne h.current h.spread⟩

theorem InStep.behind (h : InStep f w w') : Behind f w w' :=
  ⟨.identifier, by decide, h.near _⟩

/-- Windows that are not in step have newlines in the second text: before a newline of the first
one, or before a token that newlines may stand in front of. -/
theorem Behind.cases (h : Behind f w w') : InStep f w w' ∨
    w'.current.kind = .newline ∧ (w.current.kind = .newline ∨ w.current.kind.LooseBefore) := by
  obtain ⟨k, hk, h⟩ := h
  obtain ⟨ns, ms, ts, us, t, u, ha, ha', hn, hm, hnm, hloose, ht, htu, hs⟩ := h.inv
  cases ms with
  | nil =>
    have hns : ns = [] := by
      by_contra hne
      exact hnm hne rfl
    subst hns
    exact .inl (.of_ahead ha ha' ht htu hs)
  | cons m ms =>
    refine .inr ⟨Window.current_of_ahead ha' ▸ hm m List.mem_cons_self, ?_⟩
    cases ns with
    | nil => exact .inr (Window.current_of_ahead ha ▸ (hloose rfl (by simp)).resolve_left hk)
    | cons n ns => exact .inl (Window.current_of_ahead ha ▸ hn n List.mem_cons_self)

/-- Where an expression begins, windows are in step. -/
theorem Behind.inStep_of_operand (h : Behind f w w')
    (ho : (Binding.of w.current.kind).operand ≠ none) : InStep f w w' := by
  rcases h.cases with h | ⟨-, hk | hk⟩
  · exact h
  · rw [hk] at ho
    exact absurd rfl ho
  · exact absurd hk.binding.2.1 ho

theorem Behind.inStep_of_equal (h : Behind f w w')
    (hc : w.current.kind = .equal ∨ w'.current.kind = .equal) : InStep f w w' := by
  rcases h.cases with h | ⟨hk', hk | hk⟩
  · exact h
  · rw [hk, hk'] at hc
    simp at hc
  · rw [hk'] at hc
    exact absurd (hc.resolve_right nofun) hk.binding.2.2.1

/-- So they are where an operator stands. -/
theorem Behind.inStep_of_level (h : Behind f w w')
    (hl : 1 ≤ (Binding.of w.current.kind).precedence.level ∨
      1 ≤ (Binding.of w'.current.kind).precedence.level) : InStep f w w' := by
  rcases h.cases with h | ⟨hk', hk | hk⟩
  · exact h
  · rw [hk, hk'] at hl
    exact absurd hl (by decide)
  · rw [hk', hk.binding.1] at hl
    exact absurd hl (by decide)

section
variable (hf : Keeps f)
include hf

theorem InStep.kind_eq (h : InStep f w w') : w'.current.kind = w.current.kind :=
  Pursuit.kind_eq hf h.current

theorem InStep.advance (h : InStep f w w') (hc : w.current.kind ≠ .endOfText) :
    Near f w.current.kind w.advance w'.advance := by
  have ha := Window.ahead_eq hc
  have ha' := Window.ahead_eq (w := w') (h.kind_eq hf ▸ hc)
  have hs := h.spread
  rw [ha, ha'] at hs
  exact ⟨hs⟩

/-- Behind the newlines, near windows are in step. -/
theorem Near.skipNewlines {k : TokenKind} (h : Near f k w w') :
    InStep f w.skipNewlines w'.skipNewlines := by
  obtain ⟨ns, ms, ts, us, t, u, ha, ha', hn, hm, -, -, ht, htu, hs⟩ := h.inv
  have hu : u.kind ≠ .newline := Pursuit.kind_eq hf htu ▸ ht
  have hr : w.skipNewlines.ahead = t :: ts := by
    rw [w.ahead_skipNewlines, ha, dropNewlines_append hn, dropNewlines_cons ht]
  have hr' : w'.skipNewlines.ahead = u :: us := by
    rw [w'.ahead_skipNewlines, ha', dropNewlines_append hm, dropNewlines_cons hu]
  exact .of_ahead hr hr' ht htu hs

/-- Where the first line ends, the second one does. -/
theorem Behind.endsForm (h : Behind f w w') (hc : w.current.kind.EndsForm) :
    w'.current.kind.EndsForm := by
  rcases h.cases with h | ⟨hk', -⟩
  · rwa [h.kind_eq hf]
  · exact .inl hk'

end

variable {α β γ δ : Type}

/-- If the first reading succeeds then the second one does, with a result that is the same in some
sense. -/
def Follows (R : Reading α) (R' : Reading β) (w w' : Window) (same : α → β → Prop)
    (P : Window → Window → Prop) : Prop :=
  ∀ x v, R.on none w = (.ok x, v) → ∃ y v', R'.on none w' = (.ok y, v') ∧ same x y ∧ P v v'

section
variable {R : Reading α} {R' : Reading β} {same : α → β → Prop} {same' : γ → δ → Prop}
  {P P' : Window → Window → Prop}

theorem Follows.ok {x : α} {y : β} {v v' : Window} (h : R.on none w = (.ok x, v))
    (h' : R'.on none w' = (.ok y, v')) (hs : same x y) (hP : P v v') : Follows R R' w w' same P := by
  intro x' u hx
  rw [h] at hx
  cases hx
  exact ⟨y, v', h', hs, hP⟩

theorem Follows.pure {x : α} {y : β} (hs : same x y) (hP : P w w') :
    Follows (Pure.pure x : Reading α) (Pure.pure y : Reading β) w w' same P :=
  .ok (on_pure x w) (on_pure y w') hs hP

theorem Follows.congr {S : Reading α} {S' : Reading β} {u u' : Window} (h : R.on none w = S.on none u)
    (h' : R'.on none w' = S'.on none u') (hs : Follows S S' u u' same P) : Follows R R' w w' same P := by
  unfold Follows
  rwa [h, h']

theorem Follows.call (h : Follows R R' w w' same P) :
    Follows (call R) (call R') w w' same P :=
  .congr (on_call_none R w) (on_call_none R' w') h

theorem Follows.bind {g : α → Reading γ} {g' : β → Reading δ} (h : Follows R R' w w' same P)
    (hg : ∀ x y v v', R.on none w = (.ok x, v) → R'.on none w' = (.ok y, v') → same x y → P v v' →
      Follows (g x) (g' y) v v' same' P') :
    Follows (R >>= g) (R' >>= g') w w' same' P' := by
  intro z u hz
  obtain ⟨x, v, hx, hz⟩ := on_bind_eq_ok.mp hz
  obtain ⟨y, v', hy, hs, hP⟩ := h x v hx
  obtain ⟨z', u', hz', hs', hP'⟩ := hg x y v v' hx hy hs hP z u hz
  exact ⟨z', u', (on_bind_ok hy).trans hz', hs', hP'⟩

end

section
variable (hf : Keeps f)
include hf

/-- A token that is asked for and taken. -/
theorem expect_follows {k : TokenKind} (hk : k ≠ .endOfText) (m : String) (h : InStep f w w') :
    Follows (expect k m) (expect k m) w w' (fun _ _ => True) (Near f k) := by
  intro t v ht
  obtain ⟨rfl, -, rfl⟩ := on_expect_eq_ok.mp ht
  exact ⟨_, _, on_expect_eq_ok.mpr ⟨h.kind_eq hf, rfl, rfl⟩, trivial, h.advance hf hk⟩

/-- The closing bracket of a form that is read. -/
theorem close_follows {k : TokenKind} (hk : k.closes) (m : String) {e e' : Expr}
    (he : SameExpr f e e') (h : InStep f w w') :
    Follows (expect k m >>= fun _ => pure e) (expect k m >>= fun _ => pure e') w w' (SameExpr f)
      (Behind f) := by
  have hend : k ≠ .endOfText := by
    rintro rfl
    cases hk
  have hbehind : ¬ k.LooseBehind := by
    revert hk
    cases k <;> decide
  exact (expect_follows hf hend m h).bind fun _ _ _ _ _ _ _ hv => .pure he ⟨k, hbehind, hv⟩

end

/-- Behind a move there is less left than there was in front of it. -/
theorem length_rest_lt {v : Window} (hc : w.current.kind ≠ .endOfText)
    (h : w.advance.Reaches v) : v.rest.length < w.rest.length :=
  Nat.lt_of_le_of_lt h.length_rest_le (Window.length_rest_advance hc)

/-- The readings of expressions follow each other. -/
def Pursues (f : Token → Token) (sub : Sub) : Prop :=
  ∀ p, p ≠ .none → ∀ w w', Behind f w w' →
    Follows (sub p) (sub p) w w' (SameExpr f) (Behind f)

end Pursuit
end ArrowLang
