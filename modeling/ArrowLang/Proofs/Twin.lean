import ArrowLang.Proofs.Bare
import ArrowLang.Proofs.Turns
import Mathlib

/-!
# Two runs of one reading

Two windows are near when the tokens ahead of them agree up to positions as far as matters. Near
windows stay near through every move until they come to a seam, where a newline or the end of the
text stands in both. The readings of expressions do the same at near windows on the same stack, or
the first run goes off, or the second one loses what it is not to lose: what that means is left open
here.
-/
namespace ArrowLang

open Reading

/-- A newline or the end of the text. -/
def TokenKind.isStop (k : TokenKind) : Bool := k == .newline || k == .endOfText

theorem Binding.level_of_isStop {k : TokenKind} (h : k.isStop) :
    (Binding.of k).precedence.level = 0 := by
  cases k <;> first | rfl | simp [TokenKind.isStop] at h

theorem Binding.operand_of_isStop {k : TokenKind} (h : k.isStop) :
    (Binding.of k).operand = Option.none := by
  cases k <;> first | rfl | simp [TokenKind.isStop] at h

theorem Token.kind_eq_of_bare {t u : Token} (h : t.bare = u.bare) : t.kind = u.kind :=
  (Token.bare_eq_iff.mp h).1

/-- What is read where an expression is missing. -/
def Reading.missing : Reading Expr := do
  advance
  let start ← previous
  need lookupFrames
  throw (.fault .expectedExpression start)

section
variable {stack : Stack} {w v : Window}

theorem Reading.missing_of_full (hs : stack.holds 1 = false) :
    missing.on stack w = (.error (.tooDeep none), w) :=
  on_bind_error (by rw [advance_on, hs]; rfl)

theorem Reading.missing_of_error (hs : stack.holds 1 = true) {f : Failure}
    (hm : w.move (stack.inside 1) = (.error f, v)) : missing.on stack w = (.error f, v) :=
  on_bind_error (by rw [advance_on, if_pos hs, hm])

/-- The token that the move leaves behind is blamed. -/
theorem Reading.missing_of_move (hs : stack.holds 1 = true)
    (hm : w.move (stack.inside 1) = (.ok (), w.advance)) :
    missing.on stack w = (.error (if stack.holds lookupFrames then
      .fault .expectedExpression w.current else .tooDeep none), w.advance) := by
  have ha : advance.on stack w = (.ok (), w.advance) := by rw [advance_on, if_pos hs, hm]
  rw [missing, on_bind_ok ha, on_bind_ok (on_previous _), Window.previous_advance, on_bind, on_need]
  cases stack.holds lookupFrames <;> rfl

theorem Reading.missing_ne_ok {e : Expr} : missing.on stack w ≠ (.ok e, v) := by
  intro h
  obtain ⟨_, _, -, h⟩ := on_bind_eq_ok.mp h
  obtain ⟨_, _, -, h⟩ := on_bind_eq_ok.mp h
  obtain ⟨_, _, -, h⟩ := on_bind_eq_ok.mp h
  cases h

end

/-- No expression begins with a newline or at the end of the text. -/
theorem Reading.expression_of_isStop {stack : Stack} {w : Window} (h : w.current.kind.isStop)
    (depth : Nat) (p : Precedence) :
    (expression (depth + 1) p).on stack w = (call missing).on stack w := by
  rw [expression, on_call, on_call]
  refine ite_congr rfl (fun _ => ?_) fun _ => rfl
  rw [missing, on_bind, on_bind]
  rcases ha : advance.on (stack.inside 1) w with ⟨_ | x, v⟩
  · rfl
  · have hp : v.previous = w.current := by rw [advance_of_on ha, Window.previous_advance]
    dsimp only
    rw [on_bind_ok (on_previous v), on_bind_ok (on_previous v), hp, Binding.operand_of_isStop h]

/-- A relation between the windows of two runs, and what it is for the first run to go off with a
failure at a window, given the failure and the window of the second run. -/
structure Pair where
  near : Window → Window → Prop
  seam : Window → Window → Prop
  off : Failure → Window → Option Failure → Window → Prop
  /-- What both runs may lose, and go on at near windows. -/
  misses : Outcome → Prop
  /-- What the second run is not to lose. -/
  drops : Outcome → Prop

def failure? {α : Type} : Except Failure α → Option Failure
  | .ok _ => none
  | .error f => some f

/-- What was lost as the stack ran out. -/
def Failure.lost? : Failure → Option Outcome
  | .tooDeep lost => lost
  | _ => none

/-- The same result at near windows, or the first run is off, or too much is lost. -/
inductive Pair.Meets (P : Pair) {α β : Type} (same : α → β → Prop) :
    Except Failure α × Window → Except Failure β × Window → Prop where
  | ok {x y v v'} : same x y → P.near v v' → Meets P same (.ok x, v) (.ok y, v')
  | error {f f' v v'} : f.bare = f'.bare → (∀ o, f = .tooDeep (some o) → P.misses o) →
      (∀ o, f' = .tooDeep (some o) → P.misses o) → P.near v v' →
      Meets P same (.error f, v) (.error f', v')
  | off {f v v'} {r : Except Failure β} : P.off f v (failure? r) v' → Meets P same (.error f, v) (r, v')
  | dropped {a o v'} : P.drops o → Meets P same a (.error (.tooDeep (some o)), v')

/-- Failures that lose nothing. -/
theorem Pair.Meets.failed {P : Pair} {α β : Type} {same : α → β → Prop} {f f' : Failure}
    {v v' : Window} (hb : f.bare = f'.bare) (hf : f.lost? = none) (hf' : f'.lost? = none)
    (hn : P.near v v') : P.Meets same (.error f, v) (.error f', v') :=
  .error hb (fun o ho => by rw [ho] at hf; cases hf) (fun o ho => by rw [ho] at hf'; cases hf') hn

/-- Two runs that meet move by move. -/
structure Twin extends Pair where
  bare : ∀ {w w'}, near w w' → ¬ seam w w' → w.current.bare = w'.current.bare
  stop : ∀ {w w'}, seam w w' → w.current.kind.isStop ∧ w'.current.kind.isStop
  move : ∀ {w w'}, near w w' → ¬ seam w w' → ∀ stack : Stack,
    toPair.Meets (fun _ _ : Unit => True) (w.move stack) (w'.move stack)
  dangle : ∀ {w w'}, near w w' → seam w w' → ∀ stack : Stack,
    toPair.Meets (fun e e' : Expr => e.bare = e'.bare) (missing.on stack w) (missing.on stack w')
  /-- If the second run succeeds where the first one fails, its success does not matter. -/
  astray : ∀ {f v v'}, off f v none v' → ∀ r x, off f v r x

namespace Twin

variable {T : Twin} {α β γ δ : Type} {same : α → β → Prop} {same' : γ → δ → Prop} {stack : Stack}

theorem meets_bind {R : Reading α} {R' : Reading β} {f : α → Reading γ} {f' : β → Reading δ}
    {w w' : Window} (h : T.Meets same (R.on stack w) (R'.on stack w'))
    (hf : ∀ x y v v', R.on stack w = (.ok x, v) → R'.on stack w' = (.ok y, v') → same x y →
      T.near v v' → T.Meets same' ((f x).on stack v) ((f' y).on stack v')) :
    T.Meets same' ((R >>= f).on stack w) ((R' >>= f').on stack w') := by
  rw [on_bind, on_bind]
  generalize hR : R.on stack w = a at h
  generalize hR' : R'.on stack w' = b at h
  cases h with
  | ok hs hn => exact hf _ _ _ _ hR hR' hs hn
  | error hb hm hm' hn => exact .error hb hm hm' hn
  | @off e v v' r ho =>
    cases r with
    | error e' => exact .off ho
    | ok y => exact .off (T.astray ho _ _)
  | dropped hd => exact .dropped hd

/-- The kinds that a reading may ask for agree, unless it asks for a newline or for the end. -/
theorem kind_eq_iff {w w' : Window} (h : T.near w w') {k : TokenKind} (hk : k.isStop = false) :
    w.current.kind = k ↔ w'.current.kind = k := by
  by_cases hs : T.seam w w'
  · have := T.stop hs
    constructor <;> rintro rfl <;> simp_all
  · rw [Token.kind_eq_of_bare (T.bare h hs)]

theorem isStop_eq {w w' : Window} (h : T.near w w') :
    w.current.kind.isStop = w'.current.kind.isStop := by
  by_cases hs : T.seam w w'
  · rw [(T.stop hs).1, (T.stop hs).2]
  · rw [Token.kind_eq_of_bare (T.bare h hs)]

/-- Where a token of the kind stands, the windows are at no seam. -/
theorem not_seam {w w' : Window} {k : TokenKind} (hk : k.isStop = false) (h : w.current.kind = k) :
    ¬ T.seam w w' := by
  intro hs
  have := (T.stop hs).1
  simp_all

/-- A move for which there is room on the stack keeps windows near. -/
theorem advance {w w' : Window} (h : T.near w w') (hs : ¬ T.seam w w') :
    T.near w.advance w'.advance := by
  have hm := T.move h hs none
  rw [Window.move_none, Window.move_none] at hm
  cases hm with
  | ok _ hn => exact hn

section
variable {w w' : Window} (hw : T.near w w')
include hw

theorem need_meets (n : Nat) {f : Unit → Reading α} {f' : Unit → Reading β}
    (h : T.Meets same ((f ()).on stack w) ((f' ()).on stack w')) :
    T.Meets same ((need n >>= f).on stack w) ((need n >>= f').on stack w') := by
  rw [on_bind, on_bind, on_need, on_need]
  cases stack.holds n with
  | true => exact h
  | false => exact .failed rfl rfl rfl hw

theorem call_meets {R : Reading α} {R' : Reading β}
    (h : ∀ stack, T.Meets same (R.on stack w) (R'.on stack w')) :
    T.Meets same ((call R).on stack w) ((call R').on stack w') := by
  rw [on_call, on_call]
  split
  · exact h _
  · exact .failed rfl rfl rfl hw

theorem advance_meets (hs : ¬ T.seam w w') :
    T.Meets (fun _ _ : Unit => True) (Reading.advance.on stack w) (Reading.advance.on stack w') :=
  call_meets hw (T.move hw hs)

end

/-- Expressions at a depth of nesting do the same at near windows. -/
def Lockstep (T : Twin) (depth : Nat) : Prop :=
  ∀ p, p ≠ .none → ∀ (stack : Stack) (w w' : Window), T.near w w' →
    T.Meets (fun e e' : Expr => e.bare = e'.bare) ((expression depth p).on stack w)
      ((expression depth p).on stack w')

/-- The forms in brackets do the same behind their opening brackets. -/
def Brackets (T : Twin) : Prop :=
  ∀ depth, T.Lockstep depth → ∀ form, form = .group ∨ form = .list ∨ form = .function →
    ∀ (stack : Stack) (w w' : Window), T.near w w' → ¬ T.seam w w' →
      (Binding.of w.current.kind).operand = some form →
      T.Meets (fun e e' : Expr => e.bare = e'.bare)
        ((operand (expression depth) form).on stack w.advance)
        ((operand (expression depth) form).on stack w'.advance)

end Twin

/-- A number means the same wherever it stands. -/
theorem number_bare (t : Token) : number t.bare = (number t).mapError Failure.bare := by
  unfold number
  rw [Token.lexeme_bare]
  rcases splitPoint t.lexeme.toList with ⟨whole, _ | fraction⟩
  · dsimp only
    split
    · rfl
    · split
      · rfl
      · split <;> rfl
  · dsimp only
    split <;> rfl

namespace Twin

variable {T : Twin} {depth : Nat} {stack : Stack}

theorem Lockstep.rightSide (h : T.Lockstep depth) {p : Precedence} (hp : p ≠ .none)
    {operator operator' : Token} (ho : operator.bare = operator'.bare) {left left' : Expr}
    (hl : left.bare = left'.bare) {w w' : Window} (hw : T.near w w') :
    T.Meets (fun e e' : Expr => e.bare = e'.bare)
      ((rightSide (expression depth) p operator left).on stack w)
      ((rightSide (expression depth) p operator' left').on stack w') := by
  refine call_meets hw fun stack => meets_bind (h p hp stack w w' hw) fun e e' v v' _ _ he hv => ?_
  exact .ok (by rw [join_bare, join_bare, ho, hl, he]) hv

theorem length_rest_rightSide {p : Precedence} {operator : Token} {left e : Expr} {w v : Window}
    (hr : (rightSide (expression depth) p operator left).on stack w = (.ok e, v)) :
    v.rest.length ≤ w.rest.length :=
  ((moves.rightSide (moves_expression depth) _ _ _).reaches_of_ok hr).length_rest_le

theorem Lockstep.operators (h : T.Lockstep depth) {p : Precedence} (hp : p ≠ .none) {n n' : Nat}
    {left left' : Expr} {w w' : Window} (hw : T.near w w') (hl : left.bare = left'.bare)
    (hn : w.rest.length < n) (hn' : w'.rest.length < n') :
    T.Meets (fun e e' : Expr => e.bare = e'.bare) ((operators (expression depth) p n left).on stack w)
      ((operators (expression depth) p n' left').on stack w') := by
  induction n generalizing n' left left' w w' with
  | zero => omega
  | succ n ih =>
    obtain ⟨n', rfl⟩ : ∃ k, n' = k + 1 := ⟨n' - 1, by omega⟩
    rw [Reading.operators, Reading.operators, on_bind_ok (on_current w), on_bind_ok (on_current w')]
    dsimp only
    rw [on_ite, on_ite]
    have hp' := one_le_level hp
    by_cases hs : T.seam w w'
    · obtain ⟨hk, hk'⟩ := T.stop hs
      rw [if_neg (by rw [Binding.level_of_isStop hk]; omega),
        if_neg (by rw [Binding.level_of_isStop hk']; omega)]
      exact .ok hl hw
    · have hb := T.bare hw hs
      rw [← Token.kind_eq_of_bare hb]
      split
      · next hle =>
        have hc : w.current.kind ≠ .endOfText := by
          intro hc
          rw [hc, Binding.level_of_isStop rfl] at hle
          omega
        have hc' : w'.current.kind ≠ .endOfText := by rwa [← Token.kind_eq_of_bare hb]
        refine meets_bind (advance_meets hw hs) fun _ _ v v' hr hr' _ hv => ?_
        have hl₁ := Window.length_rest_advance hc
        have hl₁' := Window.length_rest_advance hc'
        rw [← advance_of_on hr] at hl₁
        rw [← advance_of_on hr'] at hl₁'
        cases (Binding.of w.current.kind).associativity with
        | none => exact .failed rfl rfl rfl hv
        | some a =>
          refine meets_bind (h.rightSide (rightPrecedence_ne_none (by omega) a) hb hl hv)
            fun e e' u u' hr hr' he hu => ?_
          have hl₂ := length_rest_rightSide hr
          have hl₂' := length_rest_rightSide hr'
          exact ih hu he (by omega) (by omega)
      · exact .ok hl hw

/-- The operand that the current token begins, with nothing asked of brackets. -/
theorem Lockstep.operand (h : T.Lockstep depth) (hB : T.Brackets) {w w' : Window}
    (hw : T.near w w') (hs : ¬ T.seam w w') {form : Operand}
    (hf : (Binding.of w.current.kind).operand = some form) :
    T.Meets (fun e e' : Expr => e.bare = e'.bare)
      ((Reading.operand (expression depth) form).on stack w.advance)
      ((Reading.operand (expression depth) form).on stack w'.advance) := by
  have hb := T.bare hw hs
  have ha := T.advance hw hs
  cases form with
  | group => exact hB depth h _ (.inl rfl) stack w w' hw hs hf
  | list => exact hB depth h _ (.inr (.inl rfl)) stack w w' hw hs hf
  | function => exact hB depth h _ (.inr (.inr rfl)) stack w w' hw hs hf
  | number =>
    refine call_meets ha fun stack => ?_
    rw [on_bind_ok (on_previous w.advance), on_bind_ok (on_previous w'.advance),
      Window.previous_advance, Window.previous_advance]
    have hn := number_bare w.current
    have hn' := number_bare w'.current
    rw [hb, hn'] at hn
    cases hc : number w.current <;> cases hc' : number w'.current <;> rw [hc, hc'] at hn <;>
      simp only [Except.mapError, Except.error.injEq, Except.ok.injEq, reduceCtorEq] at hn
    · exact .error hn.symm (fun o ho => absurd (.inl ⟨_, ho⟩) (not_isDeep_of_number hc))
        (fun o ho => absurd (.inl ⟨_, ho⟩) (not_isDeep_of_number hc')) ha
    · exact .ok (by rw [hn]) ha
  | text =>
    refine call_meets ha fun stack => ?_
    rw [on_bind_ok (on_previous w.advance), on_bind_ok (on_previous w'.advance)]
    exact .ok (by simp [(Token.bare_eq_iff.mp hb).2]) ha
  | boolean =>
    refine call_meets ha fun stack => ?_
    rw [on_bind_ok (on_previous w.advance), on_bind_ok (on_previous w'.advance)]
    exact .ok (by simp [Token.kind_eq_of_bare hb]) ha
  | name =>
    refine call_meets ha fun stack => ?_
    rw [on_bind_ok (on_previous w.advance), on_bind_ok (on_previous w'.advance)]
    exact .ok (by simp [hb]) ha
  | unary =>
    refine call_meets ha fun stack => ?_
    rw [on_bind_ok (on_previous w.advance), on_bind_ok (on_previous w'.advance)]
    exact meets_bind (h .unary (by decide) stack _ _ ha) fun e e' v v' _ _ he hv =>
      .ok (by simp [hb, he]) hv

/-- Every expression does the same at near windows if the forms in brackets do. -/
theorem lockstep (hB : T.Brackets) (depth : Nat) : T.Lockstep depth := by
  induction depth with
  | zero => exact fun p _ stack w w' hw => .failed rfl rfl rfl hw
  | succ depth ih =>
    intro p hp stack w w' hw
    by_cases hs : T.seam w w'
    · rw [expression_of_isStop (T.stop hs).1, expression_of_isStop (T.stop hs).2]
      exact call_meets hw (T.dangle hw hs)
    · have hb := T.bare hw hs
      refine call_meets hw fun stack => meets_bind (advance_meets hw hs)
        fun _ _ v v' hr hr' _ hv => ?_
      obtain rfl := advance_of_on hr
      obtain rfl := advance_of_on hr'
      rw [on_bind_ok (on_previous _), on_bind_ok (on_previous _), Window.previous_advance,
        Window.previous_advance]
      refine need_meets hv _ ?_
      rw [← Token.kind_eq_of_bare hb]
      cases hf : (Binding.of w.current.kind).operand with
      | none => exact .failed (by simp [Failure.bare, hb]) rfl rfl hv
      | some form =>
        refine meets_bind (ih.operand hB hw hs hf) fun left left' x x' _ _ hl hx => ?_
        rw [on_bind_ok (on_bound x), on_bind_ok (on_bound x')]
        exact ih.operators hp hx hl (Nat.lt_succ_of_le x.length_rest_le)
          (Nat.lt_succ_of_le x'.length_rest_le)

theorem Lockstep.constant (h : T.Lockstep depth) {e e' : Expr} (he : e.bare = e'.bare)
    {w w' : Window} (hw : T.near w w') (hs : ¬ T.seam w w') :
    T.Meets (fun d d' : Decl => d.bare = d'.bare) ((constant (expression depth) e).on stack w)
      ((constant (expression depth) e').on stack w') := by
  have ht := target?_retoken (g := Token.bare) Token.kind_bare e
  have ht' := target?_retoken (g := Token.bare) Token.kind_bare e'
  simp only [Expr.bare] at he
  rw [he, ht'] at ht
  refine call_meets hw fun stack => ?_
  cases hc : target? e <;> cases hc' : target? e' <;> rw [hc, hc'] at ht <;>
    simp only [Option.map_none, Option.map_some, Option.some.injEq, Prod.mk.injEq, reduceCtorEq] at ht
  · exact .failed (by simp [Failure.bare, T.bare hw hs]) rfl rfl hw
  · rename_i c c'
    refine meets_bind (advance_meets hw hs) fun _ _ u u' _ _ _ hu => ?_
    exact meets_bind (h .or (by decide) stack u u' hu) fun v v' _ _ _ _ hv hn =>
      .ok (by simp [ht.1, ht.2, hv]) hn

theorem ended_meets {d d' : Decl} (hd : d.bare = d'.bare) {w w' : Window} (hw : T.near w w') :
    T.Meets (fun d d' : Decl => d.bare = d'.bare) ((ended d).on stack w)
      ((ended d').on stack w') := by
  have he : ∀ (d : Decl) (w : Window), (ended d).on stack w =
      if w.current.kind.isStop then (.ok d, w)
      else (.error (.fault (.expectedToken .newline "Expected newline after expression.")
        w.current), w) := by
    intro d w
    unfold ended
    rw [on_bind_ok (on_check _ w), on_bind_ok (on_check _ w), on_ite]
    rfl
  rw [he, he, ← isStop_eq hw]
  split
  · exact .ok hd hw
  · next hk =>
    have hs : ¬ T.seam w w' := fun hs => hk (T.stop hs).1
    exact .failed (by simp [Failure.bare, T.bare hw hs]) rfl rfl hw

/-- A declaration does the same at near windows. -/
theorem Lockstep.declaration (h : T.Lockstep depth) {w w' : Window} (hw : T.near w w') :
    T.Meets (fun d d' : Decl => d.bare = d'.bare) ((declaration (expression depth)).on stack w)
      ((declaration (expression depth)).on stack w') := by
  refine call_meets hw fun stack => ?_
  refine meets_bind (h .or (by decide) stack _ _ hw) fun e e' v v' _ _ he hv => ?_
  rw [on_bind_ok (on_check _ v), on_bind_ok (on_check _ v')]
  by_cases hk : v.current.kind = .equal
  · have hk' := (kind_eq_iff hv rfl).mp hk
    have hs : ¬ T.seam v v' := not_seam rfl hk
    simp only [hk, hk', beq_self_eq_true, if_true]
    exact meets_bind (h.constant he hv hs) fun d d' v v' _ _ hd hn => ended_meets hd hn
  · have hk' := fun hk' => hk ((kind_eq_iff hv rfl).mpr hk')
    simp only [beq_eq_false_iff_ne.mpr hk, beq_eq_false_iff_ne.mpr hk', Bool.false_eq_true, if_false]
    exact ended_meets (by simp [he]) hv

/-- Behind the same newlines the windows are near, or they came to a seam on the way. -/
theorem near_skipNewlines {w w' : Window} (hw : T.near w w') :
    (T.near w.skipNewlines w'.skipNewlines ∧ ¬ T.seam w.skipNewlines w'.skipNewlines) ∨
      ∃ u u', T.near u u' ∧ T.seam u u' ∧ w.skipNewlines = u.skipNewlines ∧
        w'.skipNewlines = u'.skipNewlines := by
  induction w using Window.newlines_induction generalizing w' with
  | newline w hc ih =>
    by_cases hs : T.seam w w'
    · exact .inr ⟨w, w', hw, hs, rfl, rfl⟩
    · have hk := Token.kind_eq_of_bare (T.bare hw hs)
      rw [Window.skipNewlines_of_newline hc, Window.skipNewlines_of_newline (w := w') (hk ▸ hc)]
      exact ih (T.advance hw hs)
  | last w hc =>
    by_cases hs : T.seam w w'
    · exact .inr ⟨w, w', hw, hs, rfl, rfl⟩
    · have hk := Token.kind_eq_of_bare (T.bare hw hs)
      rw [Window.skipNewlines_of_ne hc, Window.skipNewlines_of_ne (hk ▸ hc)]
      exact .inl ⟨hw, hs⟩

theorem near_skipLine {w w' : Window} (hw : T.near w w') : T.near w.skipLine w'.skipLine := by
  generalize hn : w.rest.length = n
  induction n using Nat.strongRecOn generalizing w w' with
  | _ n ih =>
    have he := isStop_eq hw
    by_cases hc : w.current.kind.isStop
    · have hc' : w'.current.kind.isStop := he ▸ hc
      rw [Window.skipLine_of_stop (by simpa [TokenKind.isStop] using hc),
        Window.skipLine_of_stop (by simpa [TokenKind.isStop] using hc')]
      exact hw
    · have hc' : ¬ w'.current.kind.isStop := he ▸ hc
      have hs : ¬ T.seam w w' := fun hs => hc (T.stop hs).1
      simp only [TokenKind.isStop, Bool.or_eq_true, beq_iff_eq, not_or] at hc hc'
      rw [Window.skipLine_of_ne hc.1 hc.2, Window.skipLine_of_ne hc'.1 hc'.2]
      exact ih _ (hn ▸ Window.length_rest_advance hc.2) (T.advance hw hs) rfl

/-- Both turns go on to windows that are related as given, or both end the reading for the same
cause, or the first run goes off, or the second one loses what it is not to lose. -/
inductive TurnMeets (T : Twin) (stack : Stack) (depth : Nat) (Q : Window → Window → Prop)
    (w w' : Window) : Prop where
  | goes {d d' v v'} : w.turn stack depth = (.ok d, v) → w'.turn stack depth = (.ok d', v') →
      d.map Decl.bare = d'.map Decl.bare → Q v v' →
      (∀ o, Loss ((declaration (expression depth)).on stack w).1 o → T.misses o) →
      (∀ o, Loss ((declaration (expression depth)).on stack w').1 o → T.misses o) →
      TurnMeets T stack depth Q w w'
  | aborts {cause v v'} : w.turn stack depth = (.error cause, v) →
      w'.turn stack depth = (.error cause, v') → TurnMeets T stack depth Q w w'
  | off {f v r v'} : (declaration (expression depth)).on stack w = (.error f, v) →
      (declaration (expression depth)).on stack w' = (r, v') → T.off f v (failure? r) v' →
      TurnMeets T stack depth Q w w'
  | dropped {o} : Loss ((declaration (expression depth)).on stack w').1 o → T.drops o →
      TurnMeets T stack depth Q w w'

theorem turn_meets (h : T.Lockstep depth) {Q : Window → Window → Prop}
    (ok : ∀ {v v'}, T.near v v' → Q v.skipNewlines v'.skipNewlines)
    (fault : ∀ {v v' t t'} (g : GrammarFault), T.near v v' → t.bare = t'.bare →
      Q (v.report (.grammar g t)).advance.skipNewlines
        (v'.report (.grammar g t')).advance.skipNewlines)
    (deep : ∀ {v v'}, T.near v v' →
      Q (v.report (.grammar .nestingTooDeep v.current)).skipLine.skipNewlines
        (v'.report (.grammar .nestingTooDeep v'.current)).skipLine.skipNewlines)
    {w w' : Window} (hw : T.near w w') : T.TurnMeets stack depth Q w w' := by
  have hm : T.Meets _ ((declaration (expression depth)).on stack w) _ := h.declaration hw
  generalize hd : (declaration (expression depth)).on stack w = a at hm
  generalize hd' : (declaration (expression depth)).on stack w' = b at hm
  cases hm with
  | @ok x y v v' hs hn =>
    have ht : w.turn stack depth = (.ok (some x), v.skipNewlines) := by rw [Window.turn, hd]
    have ht' : w'.turn stack depth = (.ok (some y), v'.skipNewlines) := by rw [Window.turn, hd']
    exact .goes ht ht' (congrArg some hs) (ok hn) (by simp [Loss, hd]) (by simp [Loss, hd'])
  | off ho => exact .off hd hd' ho
  | dropped hd => exact .dropped (congrArg Prod.fst hd') hd
  | @error f f' v v' hb hm hm' hn =>
    have hl : ∀ o, Loss ((declaration (expression depth)).on stack w).1 o → T.misses o :=
      fun o ho => hm o (by simpa [Loss, hd] using ho)
    have hl' : ∀ o, Loss ((declaration (expression depth)).on stack w').1 o → T.misses o :=
      fun o ho => hm' o (by simpa [Loss, hd'] using ho)
    cases f with
    | fault g t =>
      cases f' with
      | fault g' t' =>
        obtain ⟨rfl, ht⟩ := by simpa [Failure.bare] using hb
        exact .goes (by rw [Window.turn, hd]) (by rw [Window.turn, hd']) rfl (fault g hn ht) hl hl'
      | _ => simp [Failure.bare] at hb
    | tooDeep =>
      cases f' with
      | tooDeep => exact .goes (by rw [Window.turn, hd]) (by rw [Window.turn, hd']) rfl (deep hn) hl hl'
      | _ => simp [Failure.bare] at hb
    | abort cause =>
      cases f' with
      | abort cause' =>
        obtain rfl := by simpa [Failure.bare] using hb
        exact .aborts (by rw [Window.turn, hd]) (by rw [Window.turn, hd'])
      | _ => simp [Failure.bare] at hb

end Twin
end ArrowLang
