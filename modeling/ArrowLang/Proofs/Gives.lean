import ArrowLang.Proofs.Chains
import ArrowLang.Proofs.Derivation
import ArrowLang.Proofs.Moves

/-!
# Readings of given tokens

What the readings give where the right tokens are ahead. A reading of the right tokens can still
fail for reasons of its own, as when they nest too deep; which failures count as such is left open.
-/
namespace ArrowLang

open Reading

theorem Window.advance_of_ahead {w : Window} {t : Token} {ts : List Token} (ha : w.ahead = t :: ts)
    (ht : t.kind ≠ .endOfText) : w.current = t ∧ w.advance.ahead = ts := by
  obtain rfl : w.current = t := (List.cons.inj ha).1
  rw [Window.ahead_eq ht] at ha
  exact ⟨rfl, (List.cons.inj ha).2⟩

theorem Window.current_of_ahead {w : Window} {t : Token} {ts : List Token} (h : w.ahead = t :: ts) :
    w.current = t :=
  (List.cons.inj h).1

theorem Window.length_ahead_le (w : Window) : w.ahead.length ≤ w.remaining + 1 :=
  Nat.succ_le_succ (Nat.le_trans (List.length_filterMap_le _ _) w.length_rest_le)

/-- Tokens that end an expression. -/
def Ends (ts : List Token) : Prop :=
  ∃ t r, ts = t :: r ∧ (Binding.of t.kind).precedence.level = 0

/-- Tokens that end an item. -/
def Stops (ts : List Token) : Prop :=
  ∃ t r, ts = t :: r ∧ (Binding.of t.kind).precedence.level = 0 ∧ t.kind ≠ .newline

theorem dropNewlines_append {ns : List Token} (h : Newlines ns) (ts : List Token) :
    dropNewlines (ns ++ ts) = dropNewlines ts :=
  List.dropWhile_append_of_pos fun t ht => by simpa using h t ht

theorem dropNewlines_cons {t : Token} (h : t.kind ≠ .newline) (ts : List Token) :
    dropNewlines (t :: ts) = t :: ts := by
  simp [dropNewlines, h]

theorem Stops.cons {t : Token} (h : (Binding.of t.kind).precedence.level = 0) (hn : t.kind ≠ .newline)
    (ts : List Token) : Stops (t :: ts) :=
  ⟨t, ts, rfl, h, hn⟩

theorem Stops.dropNewlines_eq {ts : List Token} (h : Stops ts) : dropNewlines ts = ts := by
  obtain ⟨t, r, rfl, -, hn⟩ := h
  exact dropNewlines_cons hn r

theorem Stops.ends_append {ns ts : List Token} (hn : Newlines ns) (h : Stops ts) :
    Ends (ns ++ ts) := by
  cases ns with
  | nil =>
    obtain ⟨t, r, rfl, hl, -⟩ := h
    exact ⟨t, r, rfl, hl⟩
  | cons n ns =>
    refine ⟨n, ns ++ ts, rfl, ?_⟩
    rw [hn n (by simp)]
    rfl

section
variable (excuse : Failure → Prop) {α β : Type}

/-- The reading gives a result and leaves tokens as described, or it has an excuse. -/
def Gives (R : Reading α) (w : Window) (P : α → List Token → Prop) : Prop :=
  (∃ x v, R.on none w = (.ok x, v) ∧ P x v.ahead) ∨ ∃ f v, R.on none w = (.error f, v) ∧ excuse f

variable {excuse} {R : Reading α} {w : Window} {P : α → List Token → Prop}

theorem Gives.ok {x : α} {v : Window} (h : R.on none w = (.ok x, v)) (hP : P x v.ahead) :
    Gives excuse R w P :=
  .inl ⟨x, v, h, hP⟩

theorem Gives.excused {f : Failure} {v : Window} (h : R.on none w = (.error f, v)) (hf : excuse f) :
    Gives excuse R w P :=
  .inr ⟨f, v, h, hf⟩

theorem Gives.pure {x : α} (h : P x w.ahead) : Gives excuse (Pure.pure x : Reading α) w P :=
  .ok (on_pure x w) h

theorem Gives.congr {R' : Reading α} {w' : Window} (h : R.on none w = R'.on none w')
    (h' : Gives excuse R' w' P) : Gives excuse R w P := by
  unfold Gives
  rwa [h]

theorem Gives.call (h : Gives excuse R w P) : Gives excuse (Reading.call R) w P :=
  .congr (on_call_none R w) h

theorem Gives.bind {f : α → Reading β} {P' : β → List Token → Prop} (h : Gives excuse R w P)
    (hf : ∀ x v, P x v.ahead → Gives excuse (f x) v P') :
    Gives excuse (R >>= f) w P' := by
  rcases h with ⟨x, v, hR, hP⟩ | ⟨e, v, hR, he⟩
  · exact .congr (on_bind_ok hR) (hf x v hP)
  · exact .excused (on_bind_error hR) he

theorem Gives.imp {P' : α → List Token → Prop} (h : Gives excuse R w P)
    (hP : ∀ x ts, P x ts → P' x ts) : Gives excuse R w P' := by
  rcases h with ⟨x, v, hR, hx⟩ | h
  · exact .ok hR (hP _ _ hx)
  · exact .inr h

/-- A token that is asked for and stands there. -/
theorem gives_expect {t : Token} {ts : List Token} {k : TokenKind} {message : String}
    (ha : w.ahead = t :: ts) (hk : t.kind = k) (he : k ≠ .endOfText) :
    Gives excuse (expect k message) w fun _ out => out = ts := by
  obtain ⟨rfl, hr⟩ := Window.advance_of_ahead ha (hk ▸ he)
  refine .ok (x := w.current) (v := w.advance) ?_ hr
  rw [on_expect, if_pos hk]

theorem gives_skipNewlines : Gives excuse skipNewlines w fun _ out => out = dropNewlines w.ahead :=
  .ok (on_skipNewlines w) w.ahead_skipNewlines

end

section
variable (excuse : Failure → Prop)

/-- The first part of every expression: the operand that the next token begins. -/
def operandAt (depth : Nat) : Reading Expr := do
  advance
  let start ← previous
  match (Binding.of start.kind).operand with
  | none => throw (.fault .expectedExpression start)
  | some form => operand (expression depth) form

theorem on_operandAt (depth : Nat) {w : Window} {form : Operand}
    (h : (Binding.of w.current.kind).operand = some form) :
    (operandAt depth).on none w = (operand (expression depth) form).on none w.advance := by
  rw [operandAt, on_bind_ok (on_advance w), on_bind_ok (on_previous w.advance),
    Window.previous_advance, h]

theorem expression_succ (depth : Nat) (p : Precedence) (w : Window) :
    (expression (depth + 1) p).on none w = (operandAt depth >>= fun left =>
      bound >>= fun n => operators (expression depth) p n left).on none w := by
  rw [on_expression]
  cases h : (Binding.of w.current.kind).operand with
  | none =>
    rw [on_bind_error (e := .fault .expectedExpression w.current) (v := w.advance)]
    rw [operandAt, on_bind_ok (on_advance w), on_bind_ok (on_previous w.advance),
      Window.previous_advance, h]
    rfl
  | some form =>
    dsimp only
    rw [on_bind, on_bind, on_operandAt depth h]

/-- Tokens that begin with what can begin an operand. -/
def Begins (ts : List Token) : Prop := ∃ t r, ts = t :: r ∧ (Binding.of t.kind).operand.isSome

theorem Begins.dropNewlines_append {ts : List Token} (h : Begins ts) (us : List Token) :
    dropNewlines (ts ++ us) = ts ++ us := by
  obtain ⟨t, r, rfl, ht⟩ := h
  refine dropNewlines_cons (fun hk => ?_) _
  rw [hk] at ht
  exact absurd ht (by decide)

/-- Wherever the tokens stand, they are read as an operand. -/
structure OperandYields (ts : List Token) (Q : Expr → Prop) : Prop where
  begins : Begins ts
  gives : ∀ depth {w : Window} {out : List Token}, w.ahead = ts ++ out →
    Gives excuse (operandAt depth) w fun e rest => Q e ∧ rest = out

/-- Wherever an expression may end behind the tokens, they are read as one. -/
structure ExprYields (ts : List Token) (Q : Expr → Prop) : Prop where
  begins : Begins ts
  gives : ∀ depth {w : Window} {out : List Token}, w.ahead = ts ++ out → Ends out →
    Gives excuse (expression depth .or) w fun e rest => Q e ∧ rest = out

/-- The same for an item. How many newlines stand in front of it does not matter. -/
structure ItemYields (ts : List Token) (Q : Expr → Prop) : Prop where
  begins : Begins (dropNewlines ts)
  skipped : ∀ depth {w : Window} {out : List Token},
    dropNewlines w.ahead = dropNewlines ts ++ out → Stops out →
    Gives excuse (item (expression depth)) w fun e rest => Q e ∧ rest = out

variable {excuse}

theorem OperandYields.imp {ts : List Token} {Q Q' : Expr → Prop} (h : OperandYields excuse ts Q)
    (hQ : ∀ e, Q e → Q' e) : OperandYields excuse ts Q' :=
  ⟨h.begins, fun depth _ _ ha => (h.gives depth ha).imp fun e _ ⟨he, hr⟩ => ⟨hQ e he, hr⟩⟩

theorem ExprYields.imp {ts : List Token} {Q Q' : Expr → Prop} (h : ExprYields excuse ts Q)
    (hQ : ∀ e, Q e → Q' e) : ExprYields excuse ts Q' :=
  ⟨h.begins, fun depth _ _ ha ho =>
    (h.gives depth ha ho).imp fun e _ ⟨he, hr⟩ => ⟨hQ e he, hr⟩⟩

theorem ExprYields.item {ns ts ms : List Token} {Q : Expr → Prop} (hn : Newlines ns)
    (h : ExprYields excuse ts Q) (hm : Newlines ms) : ItemYields excuse (ns ++ ts ++ ms) Q := by
  have hd : ∀ us, dropNewlines (ns ++ ts ++ us) = ts ++ us := fun us => by
    rw [List.append_assoc, dropNewlines_append hn, h.begins.dropNewlines_append]
  refine ⟨?_, fun depth w out ha hs => ?_⟩
  · rw [hd]
    obtain ⟨t, r, rfl, ht⟩ := h.begins
    exact ⟨t, r ++ ms, rfl, ht⟩
  · refine .call (gives_skipNewlines.bind fun _ v hr => ?_)
    have hv' : v.ahead = ts ++ (ms ++ out) := by rw [hr, ha, hd, List.append_assoc]
    refine (h.gives depth hv' (hs.ends_append hm)).bind fun e v ⟨hQ, hr⟩ => ?_
    refine gives_skipNewlines.bind fun _ v' hr' => .pure ⟨hQ, ?_⟩
    rw [hr', hr, dropNewlines_append hm, hs.dropNewlines_eq]

theorem ItemYields.dropNewlines_append {ts : List Token} {Q : Expr → Prop}
    (h : ItemYields excuse ts Q) (out : List Token) :
    dropNewlines (ts ++ out) = dropNewlines ts ++ out := by
  obtain ⟨t, r, hd, -⟩ := h.begins
  unfold dropNewlines at hd ⊢
  rw [List.dropWhile_append, hd]
  rfl

theorem ItemYields.gives {ts : List Token} {Q : Expr → Prop} (h : ItemYields excuse ts Q)
    (depth : Nat) {w : Window} {out : List Token} (ha : w.ahead = ts ++ out)
    (hs : Stops out) :
    Gives excuse (item (expression depth)) w fun e rest => Q e ∧ rest = out :=
  h.skipped depth (by rw [ha, h.dropNewlines_append]) hs

/-- The tokens at which an item can begin, behind its newlines. -/
theorem ItemYields.ahead_skipNewlines {ts : List Token} {Q : Expr → Prop}
    (h : ItemYields excuse ts Q) {w : Window} {out : List Token}
    (ha : w.ahead = ts ++ out) : w.skipNewlines.ahead = dropNewlines ts ++ out ∧
      dropNewlines w.skipNewlines.ahead = dropNewlines ts ++ out := by
  have hr : w.skipNewlines.ahead = dropNewlines ts ++ out := by
    rw [w.ahead_skipNewlines, ha, h.dropNewlines_append]
  exact ⟨hr, by rw [hr, h.begins.dropNewlines_append]⟩

/-- Operators with their right operands. -/
inductive Operators (excuse : Failure → Prop) :
    List (Token × (Expr → Prop)) → List Token → Prop where
  | nil : Operators excuse [] []
  | cons {o : Token} {ts us : List Token} {Q : Expr → Prop} {ss : List (Token × (Expr → Prop))} :
      (Binding.of o.kind).associativity.isSome → OperandYields excuse ts Q →
      Operators excuse ss us → Operators excuse ((o, Q) :: ss) (o :: ts ++ us)

/-- A chain of operators with brackets set, the outermost at its root. -/
inductive Bracketed : (Expr → Prop) → List (Token × (Expr → Prop)) → Expr → Prop where
  | single {Q : Expr → Prop} {e : Expr} : Q e → Bracketed Q [] e
  | join {Q Q' : Expr → Prop} {ss ss' : List (Token × (Expr → Prop))} {o : Token} {l r : Expr} :
      IsRoot (kindsOf ss) o.kind (kindsOf ss') → Bracketed Q ss l → Bracketed Q' ss' r →
      Bracketed Q (ss ++ (o, Q') :: ss') (join o l r)

theorem Operators.length_le {ss : List (Token × (Expr → Prop))} {us : List Token}
    (h : Operators excuse ss us) : ss.length ≤ us.length := by
  induction h with
  | nil => simp
  | cons _ _ _ ih =>
    simp only [List.length_cons, List.length_append]
    omega

variable (excuse) in
/-- What is read of a chain of operators at a precedence: a first part of it in which all operators
bind that tightly, up to one that does not. -/
def ChainRead (ss₀ ss : List (Token × (Expr → Prop))) (Q : Expr → Prop) (p : Precedence)
    (out : List Token) (e : Expr) (rest : List Token) : Prop :=
  ∃ ss₁ ss₂ us, ss = ss₁ ++ ss₂ ∧ Operators excuse ss₂ us ∧ rest = us ++ out ∧
    Bracketed Q (ss₀ ++ ss₁) e ∧ (∀ k ∈ kindsOf ss₁, p.level ≤ k.level) ∧
    ∀ k ∈ (kindsOf ss₂).head?, k.level < p.level

variable (excuse) in
/-- Nesting too deep is an excuse, or it cannot come to that: no operator groups to the right, so what
each of them takes on its right binds more tightly, and there are only so many precedences. -/
def Roomy (depth : Nat) (p : Precedence) (ks : List TokenKind) : Prop :=
  excuse (.tooDeep none) ∨ 10 ≤ depth + p.level ∧ p.level < 10 ∧ ∀ k ∈ ks, ¬ k.GroupsRight

theorem Roomy.subset {depth : Nat} {p : Precedence} {ks ks' : List TokenKind}
    (h : Roomy excuse depth p ks) (hk : ks' ⊆ ks) : Roomy excuse depth p ks' :=
  h.imp_right fun ⟨hd, hp, hks⟩ => ⟨hd, hp, fun k hm => hks k (hk hm)⟩

/-- There is room for the right side of an operator in the expression that holds it. -/
theorem Roomy.right {depth : Nat} {p : Precedence} {k : TokenKind} {ks : List TokenKind}
    {a : Associativity} (h : Roomy excuse (depth + 1) p (k :: ks))
    (ha : (Binding.of k).associativity = some a) (hle : p.level ≤ (Binding.of k).precedence.level) :
    Roomy excuse depth (rightPrecedence (Binding.of k).precedence a) ks := by
  refine h.imp_right fun ⟨hd, hp, hks⟩ => ?_
  have h8 := (Binding.of_infix ha).2.1
  obtain ⟨hk, hks⟩ := List.forall_mem_cons.mp hks
  cases a with
  | left =>
    rw [rightPrecedence, Precedence.level_next]
    exact ⟨by omega, by omega, hks⟩
  | right => exact absurd ha hk

/-- What the right side of an operator takes binds more tightly than the operator, or as tightly where
it associates to the right. -/
theorem level_of_rightPrecedence {k k' : TokenKind} {a : Associativity}
    (ha : (Binding.of k).associativity = some a)
    (hk : (rightPrecedence (Binding.of k).precedence a).level ≤ k'.level) :
    k.level ≤ k'.level ∧ (¬ k.GroupsRight → k.level < k'.level) := by
  have h := (Binding.of_infix ha).2.1
  cases a with
  | left =>
    rw [rightPrecedence, Precedence.level_next] at hk
    have hlt : k.level < k'.level := by
      unfold TokenKind.level at hk ⊢
      omega
    exact ⟨Nat.le_of_lt hlt, fun _ => hlt⟩
  | right => exact ⟨hk, fun hr => absurd ha hr⟩

/-- An operator that the right side of another one leaves can have that one on its left, and the
operators on the two sides of that one. -/
theorem IsRoot.next {ls rs : List TokenKind} {k k' : TokenKind} {a : Associativity}
    (h : IsRoot ls k rs) (ha : (Binding.of k).associativity = some a)
    (hk : k'.level < (rightPrecedence (Binding.of k).precedence a).level)
    (hrs : ∀ r ∈ rs, (rightPrecedence (Binding.of k).precedence a).level ≤ r.level) :
    IsRoot (ls ++ k :: rs) k' [] := by
  have hle : k'.level ≤ k.level ∧ (k.GroupsRight → k'.level < k.level) := by
    have h8 := (Binding.of_infix ha).2.1
    cases a with
    | left =>
      rw [rightPrecedence, Precedence.level_next] at hk
      have hle : k'.level ≤ k.level := by
        unfold TokenKind.level at hk ⊢
        omega
      refine ⟨hle, fun hr => ?_⟩
      cases hr.symm.trans ha
    | right => exact ⟨Nat.le_of_lt hk, fun _ => hk⟩
  refine ⟨fun l hl => ?_, by simp⟩
  rcases List.mem_append.mp hl with hl | hl
  · have hkl := h.left l hl
    exact ⟨hle.1.trans hkl.1, fun hr => Nat.lt_of_le_of_lt hle.1 (hkl.2 hr)⟩
  · rcases List.mem_cons.mp hl with rfl | hr
    · exact hle
    · have hlt := Nat.lt_of_lt_of_le hk (hrs l hr)
      exact ⟨Nat.le_of_lt hlt, fun _ => hlt⟩

/-- The loop ends in front of what binds more loosely. -/
theorem operators_stop {depth n : Nat} {p : Precedence} {ss₀ ss : List (Token × (Expr → Prop))}
    {us out : List Token} {Q : Expr → Prop} {left : Expr} {w : Window} (hl : Bracketed Q ss₀ left)
    (hs : Operators excuse ss us) (ha : w.ahead = us ++ out)
    (hstop : (Binding.of w.current.kind).precedence.level < p.level)
    (hloose : ∀ k ∈ (kindsOf ss).head?, k.level < p.level) :
    Gives excuse (operators (expression depth) p (n + 1) left) w (ChainRead excuse ss₀ ss Q p out) := by
  have hleft : (operators (expression depth) p (n + 1) left).on none w = (.ok left, w) := by
    rw [on_operators, if_neg (Nat.not_le_of_lt hstop)]
  exact .ok hleft ⟨[], ss, us, rfl, hs, ha, by simpa using hl, by simp [kindsOf], hloose⟩

/-- What the right side of an operator took of a chain and what the loop read behind it are a first part
of the chain. -/
theorem ChainRead.cons {p : Precedence} {a : Associativity} {o : Token} {Q Q' : Expr → Prop}
    {ss₀ ss₁ ss₂ : List (Token × (Expr → Prop))} {out rest : List Token} {e : Expr}
    (hle : p.level ≤ o.kind.level)
    (htight : ∀ k ∈ kindsOf ss₁, (rightPrecedence (Binding.of o.kind).precedence a).level ≤ k.level)
    (h : ChainRead excuse (ss₀ ++ (o, Q') :: ss₁) ss₂ Q p out e rest) :
    ChainRead excuse ss₀ ((o, Q') :: (ss₁ ++ ss₂)) Q p out e rest := by
  obtain ⟨r₁, r₂, us, rfl, hr₂, hrest, hb, htight', hloose⟩ := h
  refine ⟨(o, Q') :: ss₁ ++ r₁, r₂, us, by simp, hr₂, hrest, by simpa using hb, ?_, hloose⟩
  intro k hk
  simp only [kindsOf, List.map_append, List.map_cons, List.mem_append, List.mem_cons] at hk
  rcases hk with (rfl | hk) | hk
  · exact hle
  · exact hle.trans ((level_le_rightPrecedence _ a).trans (htight k hk))
  · exact htight' k hk

/-- The loop over operators reads a chain if the expressions on the right sides are read so. What it
has read before can stand on the left of the operator that is next. -/
theorem operators_gives {depth : Nat} {p : Precedence} (hp : p ≠ .none)
    (sub : ∀ {ts us : List Token} {Q : Expr → Prop} {ss : List (Token × (Expr → Prop))}
      {q : Precedence} {w : Window} {out : List Token}, q ≠ .none → Roomy excuse depth q (kindsOf ss) →
      OperandYields excuse ts Q → Operators excuse ss us → w.ahead = ts ++ us ++ out →
      Ends out → Gives excuse (expression depth q) w (ChainRead excuse [] ss Q q out))
    {us out : List Token} {Q : Expr → Prop} {ss₀ ss : List (Token × (Expr → Prop))} {left : Expr}
    {w : Window} {n : Nat} (hn : ss.length < n) (hl : Bracketed Q ss₀ left)
    (hnext : ∀ k ∈ (kindsOf ss).head?, IsRoot (kindsOf ss₀) k [])
    (room : Roomy excuse (depth + 1) p (kindsOf ss)) (hs : Operators excuse ss us)
    (ha : w.ahead = us ++ out) (ho : Ends out) :
    Gives excuse (operators (expression depth) p n left) w (ChainRead excuse ss₀ ss Q p out) := by
  induction n generalizing ss₀ ss us left w with
  | zero => omega
  | succ n ih =>
    have hp' := one_le_level hp
    cases hs with
    | nil =>
      obtain ⟨t, r, rfl, ht⟩ := ho
      exact operators_stop hl .nil ha (by rw [Window.current_of_ahead ha]; omega) (by simp [kindsOf])
    | @cons o ts us' Q' ss' hi hy hs' =>
      have hc : w.current = o := Window.current_of_ahead ha
      obtain ⟨a, hassoc⟩ := Option.isSome_iff_exists.mp hi
      by_cases hle : p.level ≤ (Binding.of o.kind).precedence.level
      · obtain ⟨-, hv⟩ := Window.advance_of_ahead ha (Binding.of_infix hassoc).2.2.1
        have hturn : (operators (expression depth) p (n + 1) left).on none w =
            (expression depth (rightPrecedence (Binding.of o.kind).precedence a) >>= fun right =>
              operators (expression depth) p n (join o left right)).on none w.advance := by
          rw [on_operators, hc, if_pos hle, hassoc]
        have hne : rightPrecedence (Binding.of o.kind).precedence a ≠ .none :=
          rightPrecedence_ne_none (by omega) a
        simp only [List.length_cons] at hn
        refine .congr hturn ((sub hne (room.right hassoc hle) hy hs' hv ho).bind
          fun right v hread => ?_)
        obtain ⟨s₁, s₂, vs, rfl, hs₂, hr, hb, htight, hloose⟩ := hread
        simp only [List.length_append] at hn
        have hroot : IsRoot (kindsOf ss₀) o.kind (kindsOf s₁) :=
          ⟨(hnext o.kind rfl).left, fun k hk => level_of_rightPrecedence hassoc (htight k hk)⟩
        have hnext' : ∀ k ∈ (kindsOf s₂).head?, IsRoot (kindsOf (ss₀ ++ (o, Q') :: s₁)) k [] := by
          intro k hk
          simpa [kindsOf] using hroot.next hassoc (hloose k hk) htight
        have room' : Roomy excuse (depth + 1) p (kindsOf s₂) :=
          room.subset fun k hk => by simp_all [kindsOf]
        -- the right side took the first part of the chain, and the loop goes on with the others
        exact (ih (by omega) (.join hroot hl hb) hnext' room' hs₂ hr).imp fun e rest h =>
          h.cons hle htight
      · refine operators_stop hl (.cons hi hy hs') ha (by rw [hc]; omega) ?_
        rintro k ⟨⟩
        exact Nat.lt_of_not_le hle

/-- An operand with a chain of operators behind it. -/
theorem expression_gives (depth : Nat) {p : Precedence} (hp : p ≠ .none) {ts us : List Token}
    {Q : Expr → Prop} {ss : List (Token × (Expr → Prop))} {w : Window} {out : List Token}
    (room : Roomy excuse depth p (kindsOf ss)) (hy : OperandYields excuse ts Q)
    (hs : Operators excuse ss us) (ha : w.ahead = ts ++ us ++ out) (ho : Ends out) :
    Gives excuse (expression depth p) w (ChainRead excuse [] ss Q p out) := by
  induction depth generalizing p ts us Q ss w out with
  | zero => exact .excused rfl (room.resolve_right fun ⟨hd, hp, _⟩ => by omega)
  | succ depth ih =>
    refine .congr (expression_succ depth p w) ?_
    rw [List.append_assoc] at ha
    refine (hy.gives depth ha).bind fun left v ⟨hQ, hr⟩ => ?_
    refine .congr (on_bind_ok (on_bound v)) ?_
    have hlen : ss.length < v.remaining + 1 := by
      have h₁ := hs.length_le
      have h₂ := v.length_ahead_le
      obtain ⟨t, r, rfl, -⟩ := ho
      rw [hr, List.length_append, List.length_cons] at h₂
      omega
    have hnext : ∀ k ∈ (kindsOf ss).head?, IsRoot [] k [] := fun k _ => ⟨by simp, by simp⟩
    exact operators_gives hp (fun hq room hy hs ha ho => ih hq room hy hs ha ho) hlen
      (.single hQ) hnext room hs hr ho

/-- No operator binds more loosely than a whole expression. -/
theorem ChainRead.whole {ss : List (Token × (Expr → Prop))} {Q : Expr → Prop} {out rest : List Token}
    {e : Expr} (h : ChainRead excuse [] ss Q .or out e rest) : Bracketed Q ss e ∧ rest = out := by
  obtain ⟨ss₁, ss₂, vs, hss, hs₂, hr, hb, -, hlt⟩ := h
  cases hs₂ with
  | nil => exact ⟨by simpa [hss] using hb, hr⟩
  | @cons o _ _ _ _ hi _ _ =>
    obtain ⟨a, ha⟩ := Option.isSome_iff_exists.mp hi
    have h₁ := (Binding.of_infix ha).1
    have h₂ : (Binding.of o.kind).precedence.level < 1 := hlt o.kind rfl
    omega

/-- An operand and the chain behind it, with nothing that binds on, are an expression. -/
theorem ExprYields.of_chain {ts us : List Token} {Q : Expr → Prop}
    {ss : List (Token × (Expr → Prop))} (deep : excuse (.tooDeep none)) (hy : OperandYields excuse ts Q)
    (hs : Operators excuse ss us) : ExprYields excuse (ts ++ us) (Bracketed Q ss) where
  begins := by
    obtain ⟨t, r, rfl, ht⟩ := hy.begins
    exact ⟨t, r ++ us, rfl, ht⟩
  gives depth w out ha ho :=
    (expression_gives depth (by decide) (.inl deep) hy hs ha ho).imp fun _ _ h => h.whole

/-- The operand of a unary operator is not followed by what binds as tightly. -/
theorem expression_unary (depth : Nat) {ts : List Token} {Q : Expr → Prop} {w : Window}
    {out : List Token} (deep : excuse (.tooDeep none)) (hy : OperandYields excuse ts Q)
    (ha : w.ahead = ts ++ out) :
    Gives excuse (expression depth .unary) w fun e rest => Q e ∧ rest = out := by
  cases depth with
  | zero => exact .excused rfl deep
  | succ depth =>
    refine .congr (expression_succ depth .unary w) ?_
    refine (hy.gives depth ha).bind fun left v hQ => ?_
    refine .congr (on_bind_ok (on_bound v)) ?_
    have hstop : (operators (expression depth) .unary (v.remaining + 1) left).on none v =
        (.ok left, v) := by
      rw [on_operators, if_neg]
      cases v.current.kind <;> decide
    exact .ok hstop hQ

end
end ArrowLang
