import ArrowLang.Grammar.Program
import ArrowLang.Proofs.Advance

/-!
# Readings at a window

A reading, run at a window, gives a result and leaves a window. Every reading of the grammar leaves
a window that some moves lead to: nothing but moves changes a window.
-/
namespace ArrowLang

/-- A token with an associativity joins something and is not the end of the text. -/
theorem Binding.of_infix {k : TokenKind} {a : Associativity} (h : (Binding.of k).associativity = some a) :
    1 ≤ (Binding.of k).precedence.level ∧ (Binding.of k).precedence.level ≤ 8 ∧
      k ≠ .endOfText ∧ k ≠ .newline := by
  revert h
  cases k <;> simp [Binding.of, Binding.none, Binding.begins, Binding.left, Binding.right,
    Precedence.level]

/-- A report of nesting too deep. -/
def Failure.IsDeep (f : Failure) : Prop :=
  (∃ lost, f = .tooDeep lost) ∨ ∃ t, f = .fault .nestingTooDeep t

namespace Reading

variable {α β : Type} {stack : Stack}

/-- What a reading gives at a window, and the window that it leaves. -/
def on (R : Reading α) (stack : Stack) (w : Window) : Except Failure α × Window :=
  (R.run stack).run w

@[simp] theorem on_pure (x : α) (w : Window) : (pure x : Reading α).on stack w = (.ok x, w) := rfl
@[simp] theorem on_throw (f : Failure) (w : Window) :
    (throw f : Reading α).on stack w = (.error f, w) := rfl
@[simp] theorem on_previous (w : Window) : previous.on stack w = (.ok w.previous, w) := rfl
@[simp] theorem on_current (w : Window) : current.on stack w = (.ok w.current, w) := rfl
@[simp] theorem on_check (kind : TokenKind) (w : Window) :
    (check kind).on stack w = (.ok (w.current.kind == kind), w) := rfl
@[simp] theorem on_bound (w : Window) : bound.on stack w = (.ok (w.remaining + 1), w) := rfl
@[simp] theorem on_step (f : Stack → Window → Except Failure Unit × Window) (w : Window) :
    (step f).on stack w = f stack w := rfl

/-- The second reading goes on at the window that the first one leaves, unless that one fails. -/
theorem on_bind (R : Reading α) (f : α → Reading β) (w : Window) :
    (R >>= f).on stack w = match R.on stack w with
      | (.ok x, v) => (f x).on stack v
      | (.error e, v) => (.error e, v) := by
  change ExceptT.bindCont (fun x => (f x).run stack) (R.on stack w).1 (R.on stack w).2 = _
  rcases R.on stack w with ⟨_ | _, v⟩ <;> rfl

theorem on_bind_ok {R : Reading α} {f : α → Reading β} {w v : Window} {x : α}
    (h : R.on stack w = (.ok x, v)) : (R >>= f).on stack w = (f x).on stack v := by
  rw [on_bind, h]

theorem on_bind_error {R : Reading α} {f : α → Reading β} {w v : Window} {e : Failure}
    (h : R.on stack w = (.error e, v)) : (R >>= f).on stack w = (.error e, v) := by
  rw [on_bind, h]

/-- A sequence of two readings succeeds only through a success of each. -/
theorem on_bind_eq_ok {R : Reading α} {f : α → Reading β} {w v : Window} {y : β} :
    (R >>= f).on stack w = (.ok y, v) ↔ ∃ x u, R.on stack w = (.ok x, u) ∧ (f x).on stack u = (.ok y, v) := by
  rw [on_bind]
  constructor
  · intro h
    rcases hR : R.on stack w with ⟨e | x, u⟩ <;> rw [hR] at h
    · simp at h
    · exact ⟨x, u, rfl, h⟩
  · rintro ⟨x, u, hR, h⟩
    rw [hR]
    exact h

/-- A sequence of two readings fails through a failure of either. -/
theorem on_bind_eq_error {R : Reading α} {f : α → Reading β} {w v : Window} {e : Failure} :
    (R >>= f).on stack w = (.error e, v) ↔
      R.on stack w = (.error e, v) ∨ ∃ x u, R.on stack w = (.ok x, u) ∧ (f x).on stack u = (.error e, v) := by
  rw [on_bind]
  constructor
  · intro h
    rcases hR : R.on stack w with ⟨_ | x, u⟩ <;> rw [hR] at h
    · exact .inl (by simpa using h)
    · exact .inr ⟨x, u, rfl, h⟩
  · rintro (hR | ⟨x, u, hR, h⟩) <;> rw [hR]
    exact h

theorem on_ite (c : Prop) [Decidable c] (R S : Reading α) (w : Window) :
    (if c then R else S).on stack w = if c then R.on stack w else S.on stack w := by
  split <;> rfl

theorem on_need (n : Nat) (w : Window) :
    (need n).on stack w = if stack.holds n = true then (.ok (), w) else (.error (.tooDeep none), w) :=
  on_ite ..

theorem on_call (R : Reading α) (w : Window) :
    (call R).on stack w =
      if stack.holds 1 = true then R.on (stack.inside 1) w else (.error (.tooDeep none), w) := by
  rw [call, on_bind, on_need]
  cases stack.holds 1 <;> rfl

theorem advance_on (w : Window) : advance.on stack w =
    if stack.holds 1 = true then w.move (stack.inside 1) else (.error (.tooDeep none), w) :=
  on_call ..

theorem skipNewlines_on (w : Window) : skipNewlines.on stack w =
    if stack.holds 1 = true then w.passNewlines (stack.inside 1)
    else (.error (.tooDeep none), w) :=
  on_call ..

/-- Nothing is too deep for a stack that never runs out. -/
@[simp] theorem on_call_none (R : Reading α) (w : Window) : (call R).on none w = R.on none w :=
  on_call ..

@[simp] theorem on_need_none (n : Nat) (w : Window) : (need n).on none w = (.ok (), w) :=
  on_need ..

@[simp] theorem on_advance (w : Window) : advance.on none w = (.ok (), w.advance) :=
  (advance_on w).trans (Window.move_none w)

@[simp] theorem on_skipNewlines (w : Window) : skipNewlines.on none w = (.ok (), w.skipNewlines) :=
  (skipNewlines_on w).trans (Window.passNewlines_none w)

@[simp] theorem on_accept (kind : TokenKind) (w : Window) :
    (accept kind).on none w =
      if w.current.kind = kind then (.ok true, w.advance) else (.ok false, w) := by
  simp only [accept, on_call_none, on_bind, on_check, on_ite, on_advance, on_pure, beq_iff_eq]

@[simp] theorem on_expect (kind : TokenKind) (message : String) (w : Window) :
    (expect kind message).on none w =
      if w.current.kind = kind then (.ok w.current, w.advance)
      else (.error (.fault (.expectedToken kind message) w.current), w) := by
  by_cases h : w.current.kind = kind <;> simp [expect, on_bind, h]

theorem on_expect_eq_ok {kind : TokenKind} {message : String} {w v : Window} {t : Token} :
    (expect kind message).on none w = (.ok t, v) ↔
      w.current.kind = kind ∧ w.current = t ∧ w.advance = v := by
  by_cases h : w.current.kind = kind <;> simp [h]

theorem on_accept_bind (kind : TokenKind) (f : Bool → Reading α) (w : Window) :
    (accept kind >>= f).on none w =
      if w.current.kind = kind then (f true).on none w.advance else (f false).on none w := by
  by_cases h : w.current.kind = kind <;> simp [on_bind, h]

theorem on_accept_of_eq {kind : TokenKind} {w : Window} (h : w.current.kind = kind)
    (f : Bool → Reading α) : (accept kind >>= f).on none w = (f true).on none w.advance := by
  rw [on_accept_bind, if_pos h]

theorem on_accept_of_ne {kind : TokenKind} {w : Window} (h : w.current.kind ≠ kind)
    (f : Bool → Reading α) : (accept kind >>= f).on none w = (f false).on none w := by
  rw [on_accept_bind, if_neg h]

theorem on_check_bind (kind : TokenKind) (f : Bool → Reading α) (w : Window) :
    (check kind >>= f).on none w = (f (w.current.kind == kind)).on none w := rfl

theorem on_moreItems (sub : Sub) (n : Nat) (w : Window) :
    (moreItems sub (n + 1)).on none w =
      if w.current.kind = .comma then
        (item sub >>= fun e => moreItems sub n >>= fun es => pure (e :: es)).on none w.advance
      else (.ok [], w) := by
  rw [moreItems, on_accept_bind]
  rfl

theorem on_guard (sub : Sub) (first : Expr) (w : Window) :
    (guard sub first).on none w =
      if w.current.kind = .question then
        (item sub >>= fun value => pure (Guard.mk first value)).on none w.advance
      else (.ok (.mk .always first), w) := by
  rw [guard, on_accept_bind]
  rfl

/-- What follows the comma behind a guard. -/
def afterGuard (sub : Sub) (n : Nat) (g : Guard) : Reading (List Guard × Option CaseHead) := do
  skipNewlines
  let start ← current
  let next ← item sub
  if ← check .pipe then return ([g], some ⟨next, start⟩)
  else
    let (gs, head) ← guards sub n next
    return (g :: gs, head)

theorem on_guards (sub : Sub) (n : Nat) (first : Expr) (w : Window) :
    (guards sub (n + 1) first).on stack w = (guard sub first >>= fun g => accept .comma >>= fun b =>
      if b then afterGuard sub n g else pure ([g], none)).on stack w := rfl

/-- What follows the guards of a case: the next case, if its head is read. -/
def afterGuards (sub : Sub) (n : Nat) (p : Pattern) (r : List Guard × Option CaseHead) :
    Reading (List Case) :=
  match r.2 with
  | none => return [.mk p r.1]
  | some head => do
    let cs ← cases sub n head
    return .mk p r.1 :: cs

theorem on_cases (sub : Sub) (n : Nat) (head : CaseHead) (w : Window) :
    (cases sub (n + 1) head).on stack w =
      (expect .pipe "Expected '|' after pattern." >>= fun _ =>
        pattern head.expr head.start >>= fun p => item sub >>= fun first => bound >>= fun m =>
          guards sub m first >>= afterGuards sub n p).on stack w := rfl

theorem one_le_level {p : Precedence} (h : p ≠ .none) : 1 ≤ p.level := by
  cases p <;> simp_all [Precedence.level]

theorem rightPrecedence_ne_none {p : Precedence} (h : 1 ≤ p.level) (a : Associativity) :
    rightPrecedence p a ≠ .none := by
  cases p <;> cases a <;> simp_all [Precedence.level, rightPrecedence, Precedence.next]

theorem level_le_rightPrecedence (p : Precedence) (a : Associativity) :
    p.level ≤ (rightPrecedence p a).level := by
  cases a with
  | left => cases p <;> decide
  | right => exact Nat.le_refl _

theorem on_rightSide_bind (sub : Sub) (p : Precedence) (operator : Token) (left : Expr)
    (f : Expr → Reading α) (w : Window) : (rightSide sub p operator left >>= f).on none w =
      (sub p >>= fun right => f (join operator left right)).on none w := by
  rw [on_bind, rightSide, on_call_none, on_bind, on_bind]
  rcases (sub p).on none w with ⟨_ | _, v⟩ <;> rfl

/-- The token at a window, where an operator may stand. -/
theorem on_operators (sub : Sub) (p : Precedence) (n : Nat) (left : Expr) (w : Window) :
    (operators sub p (n + 1) left).on none w =
      if p.level ≤ (Binding.of w.current.kind).precedence.level then
        match (Binding.of w.current.kind).associativity with
        | none => (.error (.abort .notAnOperator), w.advance)
        | some a =>
          (sub (rightPrecedence (Binding.of w.current.kind).precedence a) >>= fun right =>
            operators sub p n (join w.current left right)).on none w.advance
      else (.ok left, w) := by
  rw [operators, on_bind_ok (on_current w)]
  dsimp only
  split
  · rw [on_bind_ok (on_advance w)]
    cases (Binding.of w.current.kind).associativity with
    | none => rfl
    | some a => exact on_rightSide_bind ..
  · rfl

/-- A number is faulty or ends the reading, it nests nothing. -/
theorem not_isDeep_of_number {t : Token} {f : Failure} (h : number t = .error f) : ¬ f.IsDeep := by
  unfold number at h
  split at h
  · dsimp only at h
    split at h <;> cases h
    simp [Failure.IsDeep]
  · dsimp only at h
    split at h
    · cases h
      simp [Failure.IsDeep]
    · split at h
      · cases h
        simp [Failure.IsDeep]
      · split at h <;> cases h
        simp [Failure.IsDeep]

/-- A property that the single steps have and that goes over to sequences of readings. A fault is
blamed on the current token. -/
structure Composed (K : (α : Type) → Reading α → Prop) : Prop where
  pure : ∀ {α : Type} (x : α), K α (pure x)
  advance : K Unit advance
  skipNewlines : K Unit skipNewlines
  previous : K Token previous
  current : K Token current
  check : ∀ kind : TokenKind, K Bool (check kind)
  bound : K Nat bound
  bind : ∀ {α β : Type} {R : Reading α} {f : α → Reading β}, K α R → (∀ x, K β (f x)) →
    K β (R >>= f)
  need : ∀ n : Nat, K Unit (need n)
  call : ∀ {α : Type} {R : Reading α}, K α R → K α (call R)
  blame : ∀ {α : Type} (g : GrammarFault), g ≠ .nestingTooDeep →
    K α (Reading.current >>= fun t => throw (.fault g t))
  abort : ∀ {α : Type} (cause : Abort), K α (throw (.abort cause))

/-- Such a property that every failure of a single step has, whatever token is blamed. Nesting too
deep is no step of its own: the readings of parts report it only if an expression does. -/
structure Hereditary (K : (α : Type) → Reading α → Prop) : Prop extends Composed K where
  throw : ∀ {α : Type} {f : Failure}, ¬ f.IsDeep → K α (throw f)
  blame := fun _ hg => bind current fun _ => throw (by simp [Failure.IsDeep, hg])
  abort := fun _ => throw (by simp [Failure.IsDeep])

section
variable {K : (α : Type) → Reading α → Prop}

theorem ite_of_both {R S : Reading α} (c : Prop) [Decidable c] (hR : K α R) (hS : K α S) :
    K α (if c then R else S) := by
  split
  · exact hR
  · exact hS

section
variable (h : Composed K)
include h

theorem Composed.accept (kind : TokenKind) : K Bool (accept kind) :=
  h.call <| h.bind (h.check kind) fun _ =>
    ite_of_both _ (h.bind h.advance fun _ => h.pure _) (h.pure _)

theorem Composed.expect (kind : TokenKind) (message : String) : K Token (expect kind message) :=
  h.call <| h.bind (h.accept kind) fun _ => ite_of_both _ h.previous (h.blame _ nofun)

theorem Composed.closeList (elements : List Expr) : K Expr (closeList elements) :=
  h.bind (h.expect _ _) fun _ => h.pure _

theorem Composed.ended (d : Decl) : K Decl (ended d) :=
  h.bind (h.check .newline) fun _ => h.bind (h.check .endOfText) fun _ =>
    ite_of_both _ (h.pure _) (h.blame _ nofun)

variable {sub : Sub} (hsub : ∀ p, K Expr (sub p))
include hsub

theorem Composed.item : K Expr (item sub) :=
  h.call <| h.bind h.skipNewlines fun _ => h.bind (hsub .or) fun _ =>
    h.bind h.skipNewlines fun _ => h.pure _

theorem Composed.moreItems (n : Nat) : K (List Expr) (moreItems sub n) := by
  induction n with
  | zero => exact h.pure _
  | succ n ih =>
    refine h.bind (h.accept .comma) fun _ => ite_of_both _ ?_ (h.pure _)
    exact h.bind (h.item hsub) fun _ => h.bind ih fun _ => h.pure _

theorem Composed.group : K Expr (group sub) := by
  refine h.bind (h.item hsub) fun _ => h.bind (h.check .comma) fun _ => ite_of_both _ ?_ ?_
  · exact h.bind h.bound fun n => h.bind (h.moreItems hsub n) fun _ =>
      h.bind (h.expect _ _) fun _ => h.pure _
  · exact h.bind (h.expect _ _) fun _ => h.pure _

theorem Composed.list : K Expr (list sub) := by
  refine h.bind h.skipNewlines fun _ => h.bind (h.check .rightSquare) fun _ =>
    ite_of_both _ (h.closeList _) ?_
  exact h.bind (h.item hsub) fun _ => h.bind h.bound fun n =>
    h.bind (h.moreItems hsub n) fun _ => h.closeList _

theorem Composed.guard (first : Expr) : K Guard (guard sub first) :=
  h.bind (h.accept .question) fun _ =>
    ite_of_both _ (h.bind (h.item hsub) fun _ => h.pure _) (h.pure _)

theorem Composed.guards (n : Nat) (first : Expr) :
    K (List Guard × Option CaseHead) (guards sub n first) := by
  induction n generalizing first with
  | zero => exact h.pure _
  | succ n ih =>
    refine h.bind (h.guard hsub first) fun _ => h.bind (h.accept .comma) fun _ =>
      ite_of_both _ ?_ (h.pure _)
    refine h.bind h.skipNewlines fun _ => h.bind h.current fun _ =>
      h.bind (h.item hsub) fun next => h.bind (h.check .pipe) fun _ =>
        ite_of_both _ (h.pure _) ?_
    exact h.bind (ih next) fun _ => h.pure _

theorem Composed.rightSide (p : Precedence) (operator : Token) (left : Expr) :
    K Expr (rightSide sub p operator left) :=
  h.call <| h.bind (hsub p) fun _ => h.pure _

theorem Composed.operators (p : Precedence) (n : Nat) (left : Expr) :
    K Expr (operators sub p n left) := by
  induction n generalizing left with
  | zero => exact h.pure _
  | succ n ih =>
    refine h.bind h.current fun o => ite_of_both _ (h.bind h.advance fun _ => ?_) (h.pure _)
    cases (Binding.of o.kind).associativity with
    | none => exact h.abort _
    | some a => exact h.bind (h.rightSide hsub _ _ _) fun _ => ih _

theorem Composed.constant (e : Expr) : K Decl (constant sub e) := by
  refine h.call ?_
  split
  · exact h.blame _ nofun
  · exact h.bind h.advance fun _ => h.bind (hsub .or) fun _ => h.pure _

/-- What may follow the expression that a declaration begins with. -/
theorem Composed.declared (e : Expr) :
    K Decl (Reading.check .equal >>= fun b =>
      if b then Reading.constant sub e >>= Reading.ended else Reading.ended (.evaluated e)) :=
  h.bind (h.check .equal) fun _ =>
    ite_of_both _ (h.bind (h.constant hsub e) fun _ => h.ended _) (h.ended _)

theorem Composed.declaration : K Decl (declaration sub) :=
  h.call <| h.bind (hsub .or) fun e => h.declared hsub e

end

section
variable (h : Hereditary K)
include h

theorem Hereditary.pattern (e : Expr) (start : Token) : K Pattern (pattern e start) := by
  unfold Reading.pattern
  split
  · exact h.pure _
  · exact h.throw (by simp [Failure.IsDeep])

variable {sub : Sub} (hsub : ∀ p, K Expr (sub p))
include hsub

theorem Hereditary.cases (n : Nat) (head : CaseHead) : K (List Case) (cases sub n head) := by
  induction n generalizing head with
  | zero => exact h.pure _
  | succ n ih =>
    refine h.bind (h.expect _ _) fun _ => h.bind (h.pattern _ _) fun _ =>
      h.bind (h.item hsub) fun first => h.bind h.bound fun m =>
        h.bind (h.guards hsub m first) fun ⟨_, next⟩ => ?_
    cases next with
    | none => exact h.pure _
    | some next => exact h.bind (ih next) fun _ => h.pure _

theorem Hereditary.function : K Expr (function sub) :=
  h.bind h.skipNewlines fun _ => h.bind h.current fun _ => h.bind (h.item hsub) fun _ =>
    h.bind h.bound fun n => h.bind (h.cases hsub n _) fun _ =>
      h.bind (h.expect _ _) fun _ => h.pure _

theorem Hereditary.operand (form : Operand) : K Expr (operand sub form) := by
  refine h.call <| h.bind h.previous fun t => ?_
  cases form with
  | number =>
    dsimp only
    split
    · exact h.pure _
    · next e he => exact h.throw (not_isDeep_of_number he)
  | text => exact h.pure _
  | boolean => exact h.pure _
  | name => exact h.pure _
  | unary => exact h.bind (hsub .unary) fun _ => h.pure _
  | group => exact h.group hsub
  | list => exact h.list hsub
  | function => exact h.function hsub

/-- An operand and the operators behind it. -/
theorem Hereditary.operation (form : Operand) (p : Precedence) :
    K Expr (Reading.operand sub form >>= fun left =>
      Reading.bound >>= fun n => Reading.operators sub p n left) :=
  h.bind (h.operand hsub form) fun left => h.bind h.bound fun n => h.operators hsub p n left

end
end

/-- Nothing but steps changes a window, and only a stack that runs out loses anything. -/
structure Moves (R : Reading α) : Prop where
  leads : ∀ (stack : Stack) (w : Window), w.Leads (R.on stack w)
  lossless : ∀ (w : Window) (o : Outcome), ¬ Loss (R.on none w).1 o

section
variable {R : Reading α} {w v : Window}

theorem Moves.strays (h : Moves R) {r : Except Failure α} (hr : R.on stack w = (r, v)) :
    w.Strays (Loss r) v := by
  have hw := (h.leads stack w).strays
  rwa [hr] at hw

theorem Moves.reaches_of_ok (h : Moves R) {x : α} (hr : R.on stack w = (.ok x, v)) : w.Reaches v :=
  (hr ▸ h.leads stack w).reaches

theorem Moves.reaches (h : Moves R) {r : Except Failure α} (hr : R.on none w = (r, v)) :
    w.Reaches v := by
  have hl := h.lossless w
  rw [hr] at hl
  exact (h.strays hr).reaches hl

/-- A reading that leaves the window as it is. -/
theorem Moves.still (h : ∀ (stack : Stack) (w : Window), (R.on stack w).2 = w)
    (hl : ∀ (stack : Stack) (w : Window) (o : Outcome), ¬ Loss (R.on stack w).1 o) : Moves R where
  leads stack w := by
    have hw := (Window.Reaches.refl w).leads (hl stack w)
    rwa [show ((R.on stack w).1, w) = R.on stack w from Prod.ext rfl (h stack w).symm] at hw
  lossless := hl none

end

theorem Moves.bind {R : Reading α} {f : α → Reading β} (hR : Moves R) (hf : ∀ x, Moves (f x)) :
    Moves (R >>= f) where
  leads stack w := by
    have hw := hR.leads stack w
    rw [on_bind]
    rcases h : R.on stack w with ⟨e | x, v⟩ <;> rw [h] at hw
    · exact ⟨hw.strays.mono fun o ho => congrArg _ (Except.error.inj ho),
        fun o ho => hw.mem o (congrArg _ (Except.error.inj ho))⟩
    · exact hw.reaches.andLeads ((hf x).leads stack v)
  lossless w := by
    have hw := hR.lossless w
    rw [on_bind]
    rcases h : R.on none w with ⟨e | x, v⟩ <;> rw [h] at hw
    · exact fun o ho => hw o (congrArg _ (Except.error.inj ho))
    · exact (hf x).lossless v

theorem Moves.call {R : Reading α} (hR : Moves R) : Moves (call R) where
  leads stack w := by
    rw [on_call]
    split
    · exact hR.leads _ w
    · exact (Window.Reaches.refl w).leads not_loss_none
  lossless w := on_call_none R w ▸ hR.lossless w

theorem moves : Hereditary @Moves where
  pure _ := .still (fun _ _ => rfl) fun _ _ => not_loss_ok _
  throw hf := .still (fun _ _ => rfl) fun _ _ o ho => hf (.inl ⟨some o, Except.error.inj ho⟩)
  advance := Moves.call
    ⟨fun stack w => w.leads_move stack, fun w => by simp [Window.move_none, Loss]⟩
  skipNewlines := Moves.call ⟨fun stack w => w.leads_passNewlines stack,
    fun w => by simp [Window.passNewlines_none, Loss]⟩
  previous := .still (fun _ _ => rfl) fun _ _ => not_loss_ok _
  current := .still (fun _ _ => rfl) fun _ _ => not_loss_ok _
  check _ := .still (fun _ _ => rfl) fun _ _ => not_loss_ok _
  bound := .still (fun _ _ => rfl) fun _ _ => not_loss_ok _
  bind := Moves.bind
  need n := .still (fun stack w => by rw [on_need]; split <;> rfl)
    fun stack w o => by rw [on_need]; split <;> simp [Loss]
  call := Moves.call

/-- An expression is an operand, which its first token begins, with the operators behind it. -/
theorem on_expression (depth : Nat) (p : Precedence) (w : Window) :
    (expression (depth + 1) p).on none w = match (Binding.of w.current.kind).operand with
      | none => (.error (.fault .expectedExpression w.current), w.advance)
      | some form => (operand (expression depth) form >>= fun left =>
          bound >>= fun n => operators (expression depth) p n left).on none w.advance := by
  rw [expression, on_call_none, on_bind_ok (on_advance w), on_bind_ok (on_previous w.advance),
    on_bind_ok (on_need_none _ _), Window.previous_advance]
  cases (Binding.of w.current.kind).operand <;> rfl

/-- A property of readings goes over to expressions if it holds where no level is left. -/
theorem Hereditary.expression {K : (α : Type) → Reading α → Prop} (h : Hereditary K)
    (h₀ : ∀ p, K Expr (Reading.expression 0 p)) (depth : Nat) (p : Precedence) :
    K Expr (Reading.expression depth p) := by
  induction depth generalizing p with
  | zero => exact h₀ p
  | succ depth ih =>
    refine h.call <| h.bind h.advance fun _ => h.bind h.previous fun start =>
      h.bind (h.need _) fun _ => ?_
    cases (Binding.of start.kind).operand with
    | none => exact h.throw (by simp [Failure.IsDeep])
    | some form => exact h.operation ih form p

theorem moves_expression (depth : Nat) (p : Precedence) : Moves (expression depth p) :=
  moves.expression (fun _ => .still (fun _ _ => rfl) fun _ _ _ ho => by cases ho) depth p

end Reading
end ArrowLang
