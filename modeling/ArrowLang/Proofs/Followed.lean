import ArrowLang.Proofs.Conversion
import ArrowLang.Proofs.Pursuit
import ArrowLang.Proofs.Twin

/-!
# Readings that follow each other

Where the reading of a text succeeds, a reading of the same tokens with newlines added at loose places
does, with the same result as far as a function on tokens tells. A failing run is not followed: with a
newline added it can fail elsewhere.
-/
namespace ArrowLang

open Reading

namespace Pursuit

variable {f : Token → Token} {w w' : Window}

section
variable (hf : Keeps f) {sub : Sub} (hsub : Pursues f sub)
include hf hsub

theorem item_follows {k : TokenKind} (h : Near f k w w') :
    Follows (item sub) (item sub) w w' (SameExpr f) (InStep f) := by
  refine .call ?_
  refine .congr (on_bind_ok (on_skipNewlines w)) (on_bind_ok (on_skipNewlines w')) ?_
  refine (hsub .or (by decide) _ _ (h.skipNewlines hf).behind).bind fun e e' v v' _ _ he hv => ?_
  obtain ⟨k, -, hv⟩ := hv
  refine .congr (on_bind_ok (on_skipNewlines v)) (on_bind_ok (on_skipNewlines v')) ?_
  exact .pure he (hv.skipNewlines hf)

variable (hmoves : ∀ p, Moves (sub p))
include hmoves

theorem moreItems_follows {n n' : Nat} (hn : w.rest.length < n) (hn' : w'.rest.length < n')
    (h : InStep f w w') :
    Follows (moreItems sub n) (moreItems sub n') w w' (SameExprs f) (InStep f) := by
  induction n generalizing n' w w' with
  | zero => omega
  | succ n ih =>
    obtain ⟨n', rfl⟩ : ∃ k, n' = k + 1 := ⟨n' - 1, by omega⟩
    by_cases hc : w.current.kind = .comma
    · have hc' : w'.current.kind = .comma := (h.kind_eq hf).trans hc
      have hend : w.current.kind ≠ .endOfText := by simp [hc]
      have hend' : w'.current.kind ≠ .endOfText := by simp [hc']
      refine .congr ((on_moreItems sub n w).trans (if_pos hc))
        ((on_moreItems sub n' w').trans (if_pos hc')) ?_
      refine (item_follows hf hsub (h.advance hf hend)).bind fun e e' v v' hv hv' he hin => ?_
      have hl := length_rest_lt hend ((moves.item hmoves).reaches hv)
      have hl' := length_rest_lt hend' ((moves.item hmoves).reaches hv')
      refine (ih (by omega) (by omega) hin).bind fun es es' u u' _ _ hes hu => ?_
      exact .pure (by simp [SameExprs, he, hes]) hu
    · have hc' : w'.current.kind ≠ .comma := h.kind_eq hf ▸ hc
      exact .ok ((on_moreItems sub n w).trans (if_neg hc))
        ((on_moreItems sub n' w').trans (if_neg hc')) rfl h

theorem group_follows {k : TokenKind} (h : Near f k w w') :
    Follows (group sub) (group sub) w w' (SameExpr f) (Behind f) := by
  refine (item_follows hf hsub h).bind fun e e' v v' _ _ he hv => ?_
  refine .congr (on_check_bind _ _ v) (on_check_bind _ _ v') ?_
  rw [hv.kind_eq hf]
  cases v.current.kind == .comma with
  | true =>
    refine .congr (on_bind_ok (on_bound v)) (on_bind_ok (on_bound v')) ?_
    refine (moreItems_follows hf hsub hmoves (Nat.lt_succ_of_le (Window.length_rest_le _)) (Nat.lt_succ_of_le (Window.length_rest_le _)) hv).bind
      fun es es' u u' _ _ hes hu => ?_
    exact close_follows hf rfl _ (by simp [SameExpr, Node.retoken, he, hes]) hu
  | false => exact close_follows hf rfl _ he hv

theorem list_follows {k : TokenKind} (h : Near f k w w') :
    Follows (list sub) (list sub) w w' (SameExpr f) (Behind f) := by
  have hs := h.skipNewlines hf
  refine .congr (on_bind_ok (on_skipNewlines w)) (on_bind_ok (on_skipNewlines w')) ?_
  refine .congr (on_check_bind _ _ _) (on_check_bind _ _ _) ?_
  rw [hs.kind_eq hf]
  cases w.skipNewlines.current.kind == .rightSquare with
  | true => exact close_follows hf rfl _ rfl hs
  | false =>
    refine (item_follows hf hsub (hs.near .leftSquare)).bind fun e e' v v' _ _ he hv => ?_
    refine .congr (on_bind_ok (on_bound v)) (on_bind_ok (on_bound v')) ?_
    refine (moreItems_follows hf hsub hmoves (Nat.lt_succ_of_le (Window.length_rest_le _)) (Nat.lt_succ_of_le (Window.length_rest_le _)) hv).bind
      fun es es' u u' _ _ hes hu => ?_
    exact close_follows hf rfl _ (by simp [SameExpr, Node.retoken, he, hes]) hu

omit hmoves in
theorem guard_follows {e e' : Expr} (he : SameExpr f e e') (h : InStep f w w') :
    Follows (guard sub e) (guard sub e') w w' (SameGuard f) (InStep f) := by
  by_cases hc : w.current.kind = .question
  · have hc' : w'.current.kind = .question := (h.kind_eq hf).trans hc
    refine .congr ((on_guard sub e w).trans (if_pos hc)) ((on_guard sub e' w').trans (if_pos hc')) ?_
    refine (item_follows hf hsub (h.advance hf (by simp [hc]))).bind fun x x' v v' _ _ hx hv => ?_
    exact .pure (by simp [SameGuard, Guard.retoken, he, hx]) hv
  · have hc' : w'.current.kind ≠ .question := h.kind_eq hf ▸ hc
    exact .ok ((on_guard sub e w).trans (if_neg hc)) ((on_guard sub e' w').trans (if_neg hc'))
      (by simp [SameGuard, Guard.retoken, he]) h

theorem guards_follows {n n' : Nat} (hn : w.rest.length < n) (hn' : w'.rest.length < n')
    {e e' : Expr} (he : SameExpr f e e') (h : InStep f w w') :
    Follows (guards sub n e) (guards sub n' e') w w' (SameGuards f) (InStep f) := by
  induction n generalizing n' e e' w w' with
  | zero => omega
  | succ n ih =>
    obtain ⟨n', rfl⟩ : ∃ k, n' = k + 1 := ⟨n' - 1, by omega⟩
    refine .congr (on_guards sub n e w) (on_guards sub n' e' w') ?_
    refine (guard_follows hf hsub he h).bind fun g g' v v' hv hv' hg hin => ?_
    by_cases hc : v.current.kind = .comma
    · have hc' : v'.current.kind = .comma := (hin.kind_eq hf).trans hc
      have hend : v.current.kind ≠ .endOfText := by simp [hc]
      have hend' : v'.current.kind ≠ .endOfText := by simp [hc']
      have hs := (hin.advance hf hend).skipNewlines hf
      refine .congr (on_accept_of_eq hc _) (on_accept_of_eq hc' _) ?_
      refine .congr (on_bind_ok (on_skipNewlines _)) (on_bind_ok (on_skipNewlines _)) ?_
      refine .congr (on_bind_ok (on_current _)) (on_bind_ok (on_current _)) ?_
      refine (item_follows hf hsub (hs.near .comma)).bind fun x x' u u' hu hu' hx hin' => ?_
      refine .congr (on_check_bind _ _ u) (on_check_bind _ _ u') ?_
      rw [hin'.kind_eq hf]
      cases u.current.kind == .pipe with
      | true => exact .pure ⟨by simp [hg], .some hx⟩ hin'
      | false =>
        have hg₁ := ((moves.guard hmoves e).reaches hv).length_rest_le
        have hg₂ := ((moves.guard hmoves e').reaches hv').length_rest_le
        have hl := length_rest_lt hend
          ((Window.reaches_skipNewlines _).trans ((moves.item hmoves).reaches hu))
        have hl' := length_rest_lt hend'
          ((Window.reaches_skipNewlines _).trans ((moves.item hmoves).reaches hu'))
        refine (ih (by omega) (by omega) hx hin').bind fun r r' t t' _ _ hr ht => ?_
        exact .pure ⟨by simp [hg, hr.1], hr.2⟩ ht
    · have hc' : v'.current.kind ≠ .comma := hin.kind_eq hf ▸ hc
      exact .congr (on_accept_of_ne hc _) (on_accept_of_ne hc' _)
        (.pure ⟨by simp [hg], .none⟩ hin)

omit hsub hmoves in
theorem pattern_follows {e e' : Expr} (he : SameExpr f e e') (start start' : Token)
    {P : Window → Window → Prop} (hP : P w w') :
    Follows (pattern e start) (pattern e' start') w w' (fun p p' => p.retoken f = p'.retoken f)
      P := by
  intro p v h
  have hp := pattern?_retoken (g := f) (fun t => (hf t).1) e
  have hp' := pattern?_retoken (g := f) (fun t => (hf t).1) e'
  unfold pattern at h
  split at h
  · next q hq =>
    cases h
    rw [he, hp', hq] at hp
    obtain ⟨p', hp', hs⟩ := Option.map_eq_some_iff.mp hp
    refine ⟨p', w', ?_, hs.symm, hP⟩
    unfold pattern
    rw [hp']
    rfl
  · cases h

theorem cases_follows {n n' : Nat} (hn : w.rest.length < n) (hn' : w'.rest.length < n')
    {head head' : CaseHead} (he : SameExpr f head.expr head'.expr) (h : InStep f w w') :
    Follows (cases sub n head) (cases sub n' head') w w' (SameCases f) (InStep f) := by
  induction n generalizing n' head head' w w' with
  | zero => omega
  | succ n ih =>
    obtain ⟨n', rfl⟩ : ∃ k, n' = k + 1 := ⟨n' - 1, by omega⟩
    refine .congr (on_cases sub n head w) (on_cases sub n' head' w') ?_
    refine (expect_follows hf (by decide) _ h).bind fun _ _ v v' hv hv' _ hnear => ?_
    obtain ⟨hc, -, rfl⟩ := on_expect_eq_ok.mp hv
    obtain ⟨hc', -, rfl⟩ := on_expect_eq_ok.mp hv'
    refine (pattern_follows hf he _ _ hnear).bind fun p p' v v' hv hv' hp hnear => ?_
    refine (item_follows hf hsub hnear).bind fun x x' t t' ht ht' hx hin => ?_
    refine .congr (on_bind_ok (on_bound t)) (on_bind_ok (on_bound t')) ?_
    refine (guards_follows hf hsub hmoves (Nat.lt_succ_of_le (Window.length_rest_le _)) (Nat.lt_succ_of_le (Window.length_rest_le _)) hx hin).bind
      fun r r' u u' hu hu' hr hin' => ?_
    have hl := length_rest_lt (by rw [hc]; decide)
      (((moves.pattern _ _).reaches hv).trans (((moves.item hmoves).reaches ht).trans
        ((moves.guards hmoves _ x).reaches hu)))
    have hl' := length_rest_lt (by rw [hc']; decide)
      (((moves.pattern _ _).reaches hv').trans (((moves.item hmoves).reaches ht').trans
        ((moves.guards hmoves _ x').reaches hu')))
    obtain ⟨gs, next⟩ := r
    obtain ⟨gs', next'⟩ := r'
    obtain ⟨hgs, hnext⟩ := hr
    dsimp only at hgs hnext
    cases hnext with
    | none => exact .pure (by simp [SameCases, Case.retoken, hp, hgs]) hin'
    | some hnext =>
      refine (ih (by omega) (by omega) hnext hin').bind fun cs cs' _ _ _ _ hcs hend => ?_
      exact .pure (by simp [SameCases, Case.retoken, hp, hgs, hcs]) hend

theorem function_follows {k : TokenKind} (h : Near f k w w') :
    Follows (function sub) (function sub) w w' (SameExpr f) (Behind f) := by
  have hs := h.skipNewlines hf
  refine .congr (on_bind_ok (on_skipNewlines w)) (on_bind_ok (on_skipNewlines w')) ?_
  refine .congr (on_bind_ok (on_current _)) (on_bind_ok (on_current _)) ?_
  refine (item_follows hf hsub (hs.near .leftBrace)).bind fun e e' v v' _ _ he hv => ?_
  refine .congr (on_bind_ok (on_bound v)) (on_bind_ok (on_bound v')) ?_
  refine (cases_follows hf hsub hmoves (Nat.lt_succ_of_le (Window.length_rest_le _)) (Nat.lt_succ_of_le (Window.length_rest_le _)) he hv).bind
    fun cs cs' u u' _ _ hcs hu => ?_
  exact close_follows hf rfl _ (by simp [SameExpr, Node.retoken, hcs]) hu

omit hsub hmoves in
theorem number_eq {t u : Token} (h : f t = f u) {l : Literal} (hn : number t = .ok l) :
    number u = .ok l := by
  have ht := number_bare t
  rw [bare_eq hf h, number_bare u, hn] at ht
  cases hu : number u with
  | ok m => simpa [hu, Except.mapError] using ht
  | error e => simp [hu, Except.mapError] at ht

/-- The operand that the current token begins. -/
theorem operand_follows (h : InStep f w w') {form : Operand}
    (hform : (Binding.of w.current.kind).operand = some form) :
    Follows (operand sub form) (operand sub form) w.advance w'.advance (SameExpr f)
      (Behind f) := by
  have hend : w.current.kind ≠ .endOfText := by
    intro hk
    rw [hk] at hform
    cases hform
  have hnear := h.advance hf hend
  have hkind := h.kind_eq hf
  refine .call (.congr (on_bind_ok (on_previous _)) (on_bind_ok (on_previous _)) ?_)
  rw [Window.previous_advance, Window.previous_advance]
  -- only brackets are followed by a loose place
  have hbehind : form ≠ .group → form ≠ .list → form ≠ .function →
      Behind f w.advance w'.advance := by
    intro hg hl hc
    exact ⟨_, TokenKind.not_looseBehind_of_operand hform hg hl hc, hnear⟩
  cases form with
  | number =>
    cases hn : number w.current with
    | ok l =>
      dsimp only
      rw [number_eq hf h.current hn]
      exact .pure rfl (hbehind nofun nofun nofun)
    | error e =>
      intro x v hx
      cases hx
  | text =>
    have hl : w.current.lexeme = w'.current.lexeme := (Token.bare_eq_iff.mp (bare_eq hf h.current)).2
    exact .pure (by simp [SameExpr, hl]) (hbehind nofun nofun nofun)
  | boolean => exact .pure (by simp [SameExpr, hkind]) (hbehind nofun nofun nofun)
  | name => exact .pure (by simp [SameExpr, Node.retoken, h.current]) (hbehind nofun nofun nofun)
  | unary =>
    refine (hsub .unary (by decide) _ _ (hbehind nofun nofun nofun)).bind
      fun e e' v v' _ _ he hv => ?_
    exact .pure (by simp [SameExpr, Node.retoken, h.current, he]) hv
  | group => exact group_follows hf hsub hmoves hnear
  | list => exact list_follows hf hsub hmoves hnear
  | function => exact function_follows hf hsub hmoves hnear

theorem operators_follows {p : Precedence} (hp : p ≠ .none) {n n' : Nat} {l l' : Expr}
    (hn : w.rest.length < n) (hn' : w'.rest.length < n') (hl : SameExpr f l l')
    (h : Behind f w w') :
    Follows (operators sub p n l) (operators sub p n' l') w w' (SameExpr f) (Behind f) := by
  induction n generalizing n' l l' w w' with
  | zero => omega
  | succ n ih =>
    obtain ⟨n', rfl⟩ : ∃ k, n' = k + 1 := ⟨n' - 1, by omega⟩
    have hp' := one_le_level hp
    by_cases hle : p.level ≤ (Binding.of w.current.kind).precedence.level
    · have hin := h.inStep_of_level (.inl (by omega))
      have hkind := hin.kind_eq hf
      cases ha : (Binding.of w.current.kind).associativity with
      | none =>
        intro x v hx
        rw [on_operators, if_pos hle, ha] at hx
        cases hx
      | some a =>
        have hend := (Binding.of_infix ha).2.2.1
        have hon : (operators sub p (n + 1) l).on none w =
            (sub (rightPrecedence (Binding.of w.current.kind).precedence a) >>= fun right =>
              operators sub p n (join w.current l right)).on none w.advance := by
          rw [on_operators, if_pos hle, ha]
        have hon' : (operators sub p (n' + 1) l').on none w' =
            (sub (rightPrecedence (Binding.of w.current.kind).precedence a) >>= fun right =>
              operators sub p n' (join w'.current l' right)).on none w'.advance := by
          rw [on_operators, hkind, if_pos hle, ha]
        refine .congr hon hon' ?_
        refine (hsub _ (rightPrecedence_ne_none (by omega) a) _ _
          ⟨_, TokenKind.not_looseBehind_of_infix ha, hin.advance hf hend⟩).bind
            fun r r' v v' hv hv' hr hb => ?_
        have h₁ := length_rest_lt hend ((hmoves _).reaches hv)
        have h₂ := length_rest_lt (hkind ▸ hend) ((hmoves _).reaches hv')
        refine ih (by omega) (by omega) ?_ hb
        rw [SameExpr, join_retoken (fun t => (hf t).1), join_retoken (fun t => (hf t).1),
          hin.current, hl, hr]
    · have hle' : ¬ p.level ≤ (Binding.of w'.current.kind).precedence.level := by
        intro hle'
        rw [(h.inStep_of_level (.inr (by omega))).kind_eq hf] at hle'
        exact hle hle'
      exact .ok ((on_operators sub p n l w).trans (if_neg hle))
        ((on_operators sub p n' l' w').trans (if_neg hle')) hl h

end

theorem expression_follows (hf : Keeps f) (depth : Nat) : Pursues f (expression depth) := by
  induction depth with
  | zero =>
    intro p _ w w' _ x v hx
    cases hx
  | succ depth ih =>
    intro p hp w w' h
    cases hform : (Binding.of w.current.kind).operand with
    | none =>
      intro x v hx
      rw [on_expression, hform] at hx
      cases hx
    | some form =>
      have hin := h.inStep_of_operand (by simp [hform])
      have hon : ∀ u : Window, u.current.kind = w.current.kind →
          (expression (depth + 1) p).on none u = (operand (expression depth) form >>= fun left =>
            bound >>= fun n => operators (expression depth) p n left).on none u.advance := by
        intro u hu
        rw [on_expression, hu, hform]
      refine .congr (hon w rfl) (hon w' (hin.kind_eq hf)) ?_
      refine (operand_follows hf ih (moves_expression depth) hin hform).bind
        fun l l' v v' _ _ hl hv => ?_
      refine .congr (on_bind_ok (on_bound v)) (on_bind_ok (on_bound v')) ?_
      exact operators_follows hf ih (moves_expression depth) hp (Nat.lt_succ_of_le (Window.length_rest_le _))
        (Nat.lt_succ_of_le (Window.length_rest_le _)) hl hv

section
variable (hf : Keeps f) {sub : Sub} (hsub : Pursues f sub)
include hf hsub

theorem constant_follows {e e' : Expr} (he : SameExpr f e e') (h : InStep f w w')
    (hc : w.current.kind = .equal) :
    Follows (constant sub e) (constant sub e') w w' (SameDecl f) (Behind f) := by
  have ht := target?_retoken (g := f) (fun t => (hf t).1) e
  have ht' := target?_retoken (g := f) (fun t => (hf t).1) e'
  cases hn : target? e with
  | none =>
    intro d v hd
    rw [constant, on_call_none, hn] at hd
    cases hd
  | some target =>
    rw [he, ht', hn] at ht
    obtain ⟨target', hn', hsame⟩ := Option.map_eq_some_iff.mp ht
    obtain ⟨hname, htype⟩ := Prod.mk.inj hsame
    unfold constant
    rw [hn, hn']
    refine .call (.congr (on_bind_ok (on_advance w)) (on_bind_ok (on_advance w')) ?_)
    have hbehind : Behind f w.advance w'.advance :=
      ⟨_, by rw [hc]; decide, h.advance hf (by rw [hc]; decide)⟩
    refine (hsub .or (by decide) _ _ hbehind).bind fun x x' v v' _ _ hx hv => ?_
    exact .pure (by simp [SameDecl, Decl.retoken, hname, htype, hx]) hv

omit hf hsub in
theorem on_ended (d : Decl) (w : Window) : (ended d).on none w =
    if w.current.kind = .newline ∨ w.current.kind = .endOfText then (.ok d, w)
    else (.error (.fault (.expectedToken .newline "Expected newline after expression.") w.current), w) := by
  unfold ended
  rw [on_check_bind, on_check_bind]
  split
  · next hk =>
    rw [if_pos (by simpa using hk)]
    rfl
  · next hk =>
    rw [if_neg (by simpa using hk)]
    rfl

omit hsub in
theorem ended_follows {d d' : Decl} (hd : SameDecl f d d') (h : Behind f w w') :
    Follows (ended d) (ended d') w w' (SameDecl f) (Behind f) := by
  by_cases hc : w.current.kind.EndsForm
  · exact .ok ((on_ended d w).trans (if_pos hc)) ((on_ended d' w').trans (if_pos (h.endsForm hf hc)))
      hd h
  · intro x v hx
    rw [on_ended, if_neg (show ¬ (_ ∨ _) from hc)] at hx
    cases hx

theorem declaration_follows (h : InStep f w w') :
    Follows (declaration sub) (declaration sub) w w' (SameDecl f) (Behind f) := by
  refine .call ((hsub .or (by decide) _ _ h.behind).bind fun e e' v v' _ _ he hv => ?_)
  refine .congr (on_check_bind _ _ v) (on_check_bind _ _ v') ?_
  by_cases hc : v.current.kind = .equal
  · have hin := hv.inStep_of_equal (.inl hc)
    rw [hin.kind_eq hf, hc]
    exact (constant_follows hf hsub he hin hc).bind fun d d' u u' _ _ hd hu => ended_follows hf hd hu
  · have hc' : v'.current.kind ≠ .equal := fun hk =>
      hc ((hv.inStep_of_equal (.inr hk)).kind_eq hf ▸ hk)
    rw [beq_false_of_ne hc, beq_false_of_ne hc']
    exact ended_follows hf (by simpa [SameDecl, Decl.retoken] using he) hv

end

section
variable {depth : Nat}

/-- A turn that reads no declaration reports why. -/
theorem diagnostics_of_turn {w v : Window} (h : w.turn none depth = (.ok none, v)) :
    v.diagnostics.toList ≠ [] := by
  unfold Window.turn at h
  split at h
  · cases h
  · cases h
    exact diagnostics_ne_nil ((Window.reaches_advance _).trans (Window.reaches_skipNewlines _))
  · cases h
    exact diagnostics_ne_nil ((Window.reaches_skipLine _).trans (Window.reaches_skipNewlines _))
  · cases h

theorem turn_follows (hf : Keeps f) (h : InStep f w w') {d : Decl} {v : Window}
    (ht : w.turn none depth = (.ok (some d), v)) :
    ∃ d' v', w'.turn none depth = (.ok (some d'), v') ∧ SameDecl f d d' ∧ InStep f v v' ∧
      w'.Reaches v' := by
  unfold Window.turn at ht
  split at ht
  · next u hd =>
    cases ht
    obtain ⟨d', u', hd', hs, k, -, hu⟩ := declaration_follows hf (expression_follows hf depth) h d u hd
    refine ⟨d', u'.skipNewlines, by rw [Window.turn, hd'], hs, hu.skipNewlines hf, ?_⟩
    exact (Window.moves_declaration.reaches hd').trans (Window.reaches_skipNewlines u')
  · cases ht
  · cases ht
  · cases ht

theorem forms_follow (hf : Keeps f) {w w' : Window} (h : InStep f w w') {ds : List Decl}
    (hds : (w.forms none depth).1 = .ok ds) (hd : (w.forms none depth).2.diagnostics.toList = []) :
    ∃ ds', (w'.forms none depth).1 = .ok ds' ∧
      ds.map (Decl.retoken f f) = ds'.map (Decl.retoken f f) ∧ w'.Reaches (w'.forms none depth).2 := by
  induction w using Window.forms_induction none depth generalizing ds w' with
  | last w hc =>
    have hc' : w'.current.kind = .endOfText := (h.kind_eq hf).trans hc
    rw [Window.forms_of_end hc] at hds
    cases hds
    rw [Window.forms_of_end hc']
    exact ⟨[], rfl, rfl, .refl w'⟩
  | turn w hc ih =>
    have hc' : w'.current.kind ≠ .endOfText := h.kind_eq hf ▸ hc
    rw [Window.forms_of_turn hc] at hds hd
    rcases ht : w.turn none depth with ⟨cause | d, v⟩ <;> rw [ht] at hds hd ih
    · cases hds
    · obtain ⟨rest, hrest, hds⟩ := ok_of_map hds
      cases d with
      | none =>
        have hdv : v.diagnostics.toList = [] :=
          List.prefix_nil.mp (hd ▸ Window.diagnostics_forms none depth v)
        exact absurd hdv (diagnostics_of_turn ht)
      | some d =>
        obtain ⟨d', v', ht', hs, hin, hreach⟩ := turn_follows hf h ht
        obtain ⟨rest', hrest', hsame, hreach'⟩ := ih hin hrest hd
        rw [Window.forms_of_turn hc', ht']
        refine ⟨d' :: rest', by dsimp only; rw [hrest']; rfl, ?_, hreach.trans hreach'⟩
        subst hds
        simp [hs, hsame]

end

/-- Of each token among the second ones there is one that `f` does not tell apart among the first,
unless it is a newline. -/
theorem Spread.exists_same {k : TokenKind} {ts us : List Token} (h : Spread f k ts us) {u : Token}
    (hu : u ∈ us) (hk : u.kind ≠ .newline) : ∃ t ∈ ts, f t = f u := by
  induction h with
  | nil => cases hu
  | @cons k ns ms ts us t v _ hm _ _ _ htv _ ih =>
    rcases List.mem_append.mp hu with hu | hu
    · exact absurd (hm u hu) hk
    · rcases List.mem_cons.mp hu with rfl | hu
      · exact ⟨t, by simp, htv⟩
      · obtain ⟨t', ht', hf⟩ := ih hu
        exact ⟨t', by simp [ht'], hf⟩

end Pursuit

/-- A text that is read without a diagnostic, and a text with the same tokens but for newlines that
mean nothing: that is read too, without a diagnostic and as the same unless it nests too deep. -/
theorem Program.read_of_spread {f : Token → Token} (hf : Keeps f) {stack : Nat} {a b : String}
    {ts us : List Token} (ha : (Cursor.ofText a).outcomes = ts.map .ok)
    (hb : (Cursor.ofText b).outcomes = us.map .ok) (hs : Pursuit.Spread f .absent ts us)
    {p : Program} (hp : Program.read stack a = .ok p) (hd : p.diagnostics = []) :
    ∃ q, Program.read stack b = .ok q ∧ ((∀ t, .grammar .nestingTooDeep t ∉ q.diagnostics) →
      q.diagnostics = [] ∧ p.decls.map (Decl.retoken f f) = q.decls.map (Decl.retoken f f)) := by
  obtain ⟨ts', ha', -, hconverts⟩ := derives_of_read hp hd
  obtain rfl : ts = ts' := List.map_injective_iff.mpr (fun _ _ => Except.ok.inj) (ha.symm.trans ha')
  obtain ⟨q, hq⟩ : ∃ q, Program.read stack b = .ok q := by
    refine Program.exists_of_short (fun o ho => ?_) (fun u hu hk hlong => ?_) stack
    · rw [hb] at ho
      obtain ⟨u, -, rfl⟩ := List.mem_map.mp ho
      rfl
    · rw [hb] at hu
      obtain ⟨t, ht, htu⟩ := hs.exists_same (List.mem_map_of_injective
        (fun _ _ => Except.ok.inj) |>.mp hu) (by rw [hk]; decide)
      obtain ⟨l, hl⟩ := hconverts t ht ((Pursuit.kind_eq hf htu).symm.trans hk)
      have hconverted := Pursuit.number_eq hf htu hl
      rw [number_overlong hlong] at hconverted
      cases hconverted
  refine ⟨q, hq, fun hdeep => ?_⟩
  obtain ⟨hds, hdg⟩ := Program.read_free hp (by simp [hd])
  obtain ⟨hqs, hqg⟩ := Program.read_free hq hdeep
  obtain ⟨hsilent, hdiag, -⟩ := Window.start_of_outcomes hb
  have hnear : Pursuit.Near f .absent (Window.ofText a).advance (Window.ofText b).advance := by
    refine ⟨?_⟩
    rw [Window.ahead_first, Window.ahead_first, Window.tokens_of_outcomes ha,
      Window.tokens_of_outcomes hb]
    exact hs
  obtain ⟨ds, hds', hsame, hreach⟩ := Pursuit.forms_follow hf (hnear.skipNewlines hf) hds (hdg ▸ hd)
  change ((Window.start b).forms none _).1 = .ok ds at hds'
  change (Window.start b).Reaches ((Window.start b).forms none _).2 at hreach
  obtain rfl : q.decls = ds := Except.ok.inj (hqs.symm.trans hds')
  exact ⟨by rw [hqg, (hsilent.reaches hreach).2, hdiag], hsame⟩

end ArrowLang
