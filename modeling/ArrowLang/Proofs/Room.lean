import ArrowLang.Proofs.Moves

/-!
# The room that a reading takes

What a reading does depends on the stack only where it has no room: with more room it does the same,
as long as it did not nest too deep. An expression that nests only so deep takes a few frames for
each level.
-/
namespace ArrowLang
namespace Reading

variable {α β : Type} {n : Nat} {s s' : Stack}

/-- The second reading does what the first one does that did not nest too deep, on every stack that
has the same room up to `n` frames. -/
def Within (n : Nat) (R R' : Reading α) : Prop :=
  ∀ s s', Stack.Covers n s s' → ∀ w : Window,
    R'.on s' w = R.on s w ∨ ∃ lost, (R.on s w).1 = .error (.tooDeep lost)

namespace Within

theorem mono {m : Nat} {R R' : Reading α} (h : Within m R R') (hm : m ≤ n) : Within n R R' :=
  fun s s' hs => h s s' (hs.mono hm)

/-- A reading that does not depend on the stack. -/
theorem still {R : Reading α} (h : ∀ s s' w, R.on s' w = R.on s w) : Within n R R :=
  fun s s' _ w => .inl (h s s' w)

theorem pure (x : α) : Within n (pure x) (Pure.pure x) := still fun _ _ _ => rfl
theorem throw (f : Failure) : Within n (throw f : Reading α) (MonadExcept.throw f) :=
  still fun _ _ _ => rfl
theorem current : Within n current current := still fun _ _ _ => rfl
theorem previous : Within n previous previous := still fun _ _ _ => rfl
theorem bound : Within n bound bound := still fun _ _ _ => rfl
theorem check (kind : TokenKind) : Within n (check kind) (check kind) := still fun _ _ _ => rfl

theorem bind {R R' : Reading α} {f f' : α → Reading β} (hR : Within n R R')
    (hf : ∀ x, Within n (f x) (f' x)) : Within n (R >>= f) (R' >>= f') := by
  intro s s' hs w
  rw [on_bind, on_bind]
  rcases hR s s' hs w with h | ⟨lost, h⟩
  · rw [h]
    rcases R.on s w with ⟨e | x, v⟩
    · exact .inl rfl
    · exact hf x s s' hs v
  · rcases hr : R.on s w with ⟨e | x, v⟩ <;> rw [hr] at h
    · exact .inr ⟨lost, congrArg _ (Except.error.inj h)⟩
    · cases h

theorem need {m : Nat} (hm : m ≤ n) : Within n (need m) (need m) := by
  intro s s' hs w
  rw [on_need, on_need]
  cases hh : s.holds m with
  | true => exact .inl (by rw [hs m hm hh])
  | false => exact .inr ⟨none, rfl⟩

theorem call {R R' : Reading α} (hR : Within n R R') : Within (n + 1) (call R) (call R') := by
  intro s s' hs w
  rw [on_call, on_call]
  cases hh : s.holds 1 with
  | true =>
    rw [hs 1 (Nat.le_add_left 1 n) hh, if_pos rfl, if_pos rfl]
    exact hR _ _ (Stack.Covers.inside hs) w
  | false => exact .inr ⟨none, rfl⟩

theorem ite (c : Prop) [Decidable c] {R R' S S' : Reading α} (hR : Within n R R')
    (hS : Within n S S') : Within n (if c then R else S) (if c then R' else S') := by
  split
  · exact hR
  · exact hS

theorem advance : Within 6 advance advance :=
  call fun _ _ hs w => w.move_covers hs

theorem skipNewlines : Within 8 skipNewlines skipNewlines :=
  call fun _ _ hs w => w.passNewlines_covers hs

theorem accept (kind : TokenKind) : Within 7 (accept kind) (accept kind) :=
  call (bind (check kind) fun _ => ite _ (bind advance fun _ => pure _) (pure _))

theorem expect (kind : TokenKind) (message : String) :
    Within 8 (expect kind message) (expect kind message) :=
  call (bind (accept kind) fun _ => ite _ previous (bind current fun _ => throw _))

theorem closeList (elements : List Expr) : Within 8 (closeList elements) (closeList elements) :=
  bind (expect _ _) fun _ => pure _

theorem pattern (e : Expr) (start : Token) : Within n (pattern e start) (pattern e start) := by
  unfold Reading.pattern
  split
  · exact pure _
  · exact throw _

theorem ended (d : Decl) : Within n (ended d) (ended d) :=
  bind (check .newline) fun _ => bind (check .endOfText) fun _ =>
    ite _ (pure _) (bind current fun _ => throw _)

section
variable {sub sub' : Sub} (h : ∀ p, Within n (sub p) (sub' p)) (hn : 8 ≤ n)
include h hn

theorem item : Within (n + 1) (item sub) (item sub') :=
  call (bind (skipNewlines.mono hn) fun _ => bind (h .or) fun _ =>
    bind (skipNewlines.mono hn) fun _ => pure _)

theorem moreItems (m : Nat) : Within (n + 1) (moreItems sub m) (moreItems sub' m) := by
  induction m with
  | zero => exact pure _
  | succ m ih =>
    refine bind ((accept .comma).mono (by omega)) fun _ => ite _ ?_ (pure _)
    exact bind (item h hn) fun _ => bind ih fun _ => pure _

theorem group : Within (n + 1) (group sub) (group sub') := by
  refine bind (item h hn) fun _ => bind (check .comma) fun _ => ite _ ?_ ?_
  · exact bind bound fun m => bind (moreItems h hn m) fun _ =>
      bind ((expect _ _).mono (by omega)) fun _ => pure _
  · exact bind ((expect _ _).mono (by omega)) fun _ => pure _

theorem list : Within (n + 1) (list sub) (list sub') := by
  refine bind (skipNewlines.mono (by omega)) fun _ => bind (check .rightSquare) fun _ =>
    ite _ ((closeList _).mono (by omega)) ?_
  exact bind (item h hn) fun _ => bind bound fun m => bind (moreItems h hn m) fun _ =>
    (closeList _).mono (by omega)

theorem guard (first : Expr) : Within (n + 1) (guard sub first) (guard sub' first) :=
  bind ((accept .question).mono (by omega)) fun _ =>
    ite _ (bind (item h hn) fun _ => pure _) (pure _)

theorem guards (m : Nat) (first : Expr) :
    Within (n + 1) (guards sub m first) (guards sub' m first) := by
  induction m generalizing first with
  | zero => exact pure _
  | succ m ih =>
    refine bind (guard h hn first) fun _ => bind ((accept .comma).mono (by omega)) fun _ =>
      ite _ ?_ (pure _)
    refine bind (skipNewlines.mono (by omega)) fun _ => bind current fun _ =>
      bind (item h hn) fun next => bind (check .pipe) fun _ => ite _ (pure _) ?_
    exact bind (ih next) fun _ => pure _

theorem cases (m : Nat) (head : CaseHead) :
    Within (n + 1) (cases sub m head) (cases sub' m head) := by
  induction m generalizing head with
  | zero => exact pure _
  | succ m ih =>
    refine bind ((expect _ _).mono (by omega)) fun _ => bind (pattern _ _) fun _ =>
      bind (item h hn) fun first => bind bound fun k => bind (guards h hn k first) fun ⟨_, next⟩ => ?_
    cases next with
    | none => exact pure _
    | some next => exact bind (ih next) fun _ => pure _

theorem function : Within (n + 1) (function sub) (function sub') :=
  bind (skipNewlines.mono (by omega)) fun _ => bind current fun _ => bind (item h hn) fun _ =>
    bind bound fun m => bind (cases h hn m _) fun _ =>
      bind ((expect _ _).mono (by omega)) fun _ => pure _

theorem operand (form : Operand) : Within (n + 2) (operand sub form) (operand sub' form) := by
  refine call (bind previous fun t => ?_)
  cases form with
  | number =>
    dsimp only
    split
    · exact pure _
    · exact throw _
  | text => exact pure _
  | boolean => exact pure _
  | name => exact pure _
  | unary => exact bind ((h .unary).mono (by omega)) fun _ => pure _
  | group => exact group h hn
  | list => exact list h hn
  | function => exact function h hn

theorem operators (p : Precedence) (m : Nat) (left : Expr) :
    Within (n + 1) (operators sub p m left) (operators sub' p m left) := by
  induction m generalizing left with
  | zero => exact pure _
  | succ m ih =>
    refine bind current fun o => ite _ (bind (advance.mono (by omega)) fun _ => ?_) (pure _)
    cases (Binding.of o.kind).associativity with
    | none => exact throw _
    | some a => exact bind (call (bind (h _) fun _ => pure _)) fun _ => ih _

theorem constant (e : Expr) : Within (n + 1) (constant sub e) (constant sub' e) := by
  refine call ?_
  split
  · exact bind current fun _ => throw _
  · exact bind (advance.mono (by omega)) fun _ => bind (h .or) fun _ => pure _

theorem declaration : Within (n + 2) (declaration sub) (declaration sub') :=
  call (bind ((h .or).mono (by omega)) fun e => bind (check .equal) fun _ =>
    ite _ (bind (constant h hn e) fun _ => ended _) (ended _))

end

/-- Each level of nesting takes three frames at most. -/
theorem expression {depth depth' : Nat} (hd : depth ≤ depth') (p : Precedence) :
    Within (3 * depth + 8) (expression depth p) (expression depth' p) := by
  induction depth generalizing depth' p with
  | zero => exact fun s s' _ w => .inr ⟨none, rfl⟩
  | succ depth ih =>
    obtain ⟨depth', rfl⟩ : ∃ d, depth' = d + 1 := ⟨depth' - 1, by omega⟩
    have h := fun p => ih (Nat.le_of_succ_le_succ hd) p
    have hn : 8 ≤ 3 * depth + 8 := Nat.le_add_left _ _
    refine (call (n := 3 * depth + 10) ?_).mono (by omega)
    refine bind (advance.mono (by omega)) fun _ => bind previous fun start =>
      bind (need (by rw [lookupFrames]; omega)) fun _ => ?_
    cases (Binding.of start.kind).operand with
    | none => exact throw _
    | some form => exact bind (operand h hn form) fun left => bind bound fun m =>
        (operators h hn p m left).mono (by omega)

/-- What is read somewhere is read where the stack never runs out. -/
theorem on_none {R : Reading α} (h : Within n R R) {w v : Window} {x : α}
    (hr : R.on s w = (.ok x, v)) : R.on none w = (.ok x, v) := by
  rcases h s none (Stack.covers_none n s) w with ha | ⟨lost, ha⟩
  · rw [ha, hr]
  · rw [hr] at ha
    cases ha

end Within

theorem advance_of_on {w v : Window} {x : Unit} (h : advance.on s w = (.ok x, v)) :
    v = w.advance := by
  have hn := Within.advance.on_none h
  rw [on_advance] at hn
  exact (Prod.mk.inj hn).2.symm

theorem skipNewlines_of_on {w v : Window} {x : Unit} (h : skipNewlines.on s w = (.ok x, v)) :
    v = w.skipNewlines := by
  have hn := Within.skipNewlines.on_none h
  rw [on_skipNewlines] at hn
  exact (Prod.mk.inj hn).2.symm

theorem accept_of_on {kind : TokenKind} {w v : Window} {b : Bool}
    (h : (accept kind).on s w = (.ok b, v)) :
    w.current.kind = kind ∧ b = true ∧ v = w.advance ∨ w.current.kind ≠ kind ∧ b = false ∧ v = w := by
  have hn := (Within.accept kind).on_none h
  rw [on_accept] at hn
  split at hn
  · next hk =>
    obtain ⟨hb, hv⟩ := Prod.mk.inj hn
    exact .inl ⟨hk, (Except.ok.inj hb).symm, hv.symm⟩
  · next hk =>
    obtain ⟨hb, hv⟩ := Prod.mk.inj hn
    exact .inr ⟨hk, (Except.ok.inj hb).symm, hv.symm⟩

theorem expect_of_on {kind : TokenKind} {message : String} {w v : Window} {t : Token}
    (h : (expect kind message).on s w = (.ok t, v)) :
    w.current.kind = kind ∧ w.current = t ∧ w.advance = v :=
  on_expect_eq_ok.mp ((Within.expect kind message).on_none h)

end Reading
end ArrowLang
