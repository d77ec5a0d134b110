import ArrowLang.Proofs.Derivation
import ArrowLang.Proofs.Turns
import Mathlib.Data.List.TakeWhile

/-!
# What is read is derivable

A reading that succeeds has passed tokens that the grammar derives, and its tree has the shape that
the grammar says.
-/
namespace ArrowLang

/-- A number has a value. -/
def Token.Converts (t : Token) : Prop := t.kind = .number → ∃ l, Reading.number t = .ok l

namespace Window

/-- The tokens that stand between two windows, and whose numbers have values. -/
structure Passes (w : Window) (us : List Token) (v : Window) : Prop where
  ahead : w.ahead = us ++ v.ahead
  converts : ∀ t ∈ us, t.Converts

variable {u v w : Window} {us vs : List Token}

theorem passes_nil (w : Window) : w.Passes [] w := ⟨rfl, nofun⟩

theorem Passes.trans (h : w.Passes us v) (h' : v.Passes vs u) : w.Passes (us ++ vs) u :=
  ⟨by rw [h.ahead, h'.ahead, List.append_assoc],
    List.forall_mem_append.mpr ⟨h.converts, h'.converts⟩⟩

theorem passes_current (hc : w.current.kind ≠ .endOfText) (hn : w.current.Converts) :
    w.Passes [w.current] w.advance :=
  ⟨ahead_eq hc, by simpa using hn⟩

theorem passes_advance (h : w.current.kind ≠ .endOfText ∧ w.current.kind ≠ .number) :
    w.Passes [w.current] w.advance :=
  passes_current h.1 fun hk => absurd hk h.2

theorem passes_newlines (w : Window) : ∃ ns, Newlines ns ∧ w.Passes ns w.skipNewlines := by
  have hn : Newlines (w.ahead.takeWhile (·.kind = .newline)) := by
    intro t ht
    simpa using List.mem_takeWhile_imp ht
  refine ⟨_, hn, ?_, fun t ht hk => ?_⟩
  · rw [w.ahead_skipNewlines, dropNewlines, List.takeWhile_append_dropWhile]
  · rw [hn t ht] at hk
    cases hk

theorem Passes.expect {k : TokenKind} {message : String} {t : Token}
    (h : (Reading.expect k message).on none w = (.ok t, v)) (hk : k ≠ .endOfText ∧ k ≠ .number) :
    t.kind = k ∧ w.Passes [t] v := by
  obtain ⟨rfl, rfl, rfl⟩ := Reading.on_expect_eq_ok.mp h
  exact ⟨rfl, passes_advance hk⟩

end Window

open Reading Window

theorem Derives.operators_append {ss ss' : List (TokenKind × Shape)} {us us' : List Token}
    (h : Derives (.operators ss) us) (h' : Derives (.operators ss') us') :
    Derives (.operators (ss ++ ss')) (us ++ us') := by
  induction ss generalizing us with
  | nil =>
    cases h
    exact h'
  | cons x ss ih =>
    cases h with
    | operators hi ho hs =>
      rw [List.append_assoc]
      exact .operators hi ho (ih hs)

/-- The kinds of token that begin an operand of a form. -/
def Operand.kinds : Operand → List TokenKind
  | .number => [.number]
  | .text => [.string]
  | .boolean => [.trueWord, .falseWord]
  | .name => [.identifier]
  | .group => [.leftParen]
  | .list => [.leftSquare]
  | .function => [.leftBrace]
  | .unary => [.minus, .notWord]

theorem Binding.mem_kinds {k : TokenKind} {form : Operand}
    (h : (Binding.of k).operand = some form) : k ∈ form.kinds := by
  cases k <;> cases h <;> decide

/-- More newlines may stand in front of an item. -/
theorem Derives.item_newlines {ns ts : List Token} {s : Shape} (hn : Newlines ns)
    (h : Derives (.item s) ts) : Derives (.item s) (ns ++ ts) := by
  cases h with
  | item hn' he hm =>
    rw [← List.append_assoc, ← List.append_assoc]
    exact .item (newlines_append.mpr ⟨hn, hn'⟩) he hm

/-- The tokens of an operand with operators that bind at least as tightly as the precedence. -/
def Chained (p : Precedence) (e : Expr) (us : List Token) : Prop :=
  ∃ s ss ts vs, us = ts ++ vs ∧ Derives (.operand s) ts ∧ Derives (.operators ss) vs ∧
    e.shape = s.chain ss ∧ ∀ x ∈ ss, p.level ≤ (Binding.of x.1).precedence.level

theorem Chained.expr {p : Precedence} {e : Expr} {us : List Token} (h : Chained p e us) :
    Derives (.expr e.shape) us := by
  obtain ⟨s, ss, ts, vs, rfl, ho, hs, he, -⟩ := h
  rw [he]
  exact .expr ho hs

/-- Nothing that joins two sides binds as tightly as a unary operator. -/
theorem Chained.operand {e : Expr} {us : List Token} (h : Chained .unary e us) :
    Derives (.operand e.shape) us := by
  obtain ⟨s, ss, ts, vs, rfl, ho, hs, he, hle⟩ := h
  cases hs with
  | noOperators =>
    rw [he, List.append_nil]
    exact ho
  | @operators o _ _ _ _ hi _ _ =>
    obtain ⟨a, ha⟩ := Option.isSome_iff_exists.mp hi
    have h₁ := (Binding.of_infix ha).2.1
    have h₂ : 9 ≤ (Binding.of o.kind).precedence.level := hle _ List.mem_cons_self
    omega

/-- Readings of expressions that pass only what the grammar derives. -/
def SoundSub (sub : Sub) : Prop :=
  ∀ ⦃p : Precedence⦄ ⦃w v : Window⦄ ⦃e : Expr⦄, p ≠ .none →
    (sub p).on none w = (.ok e, v) → ∃ us, w.Passes us v ∧ Chained p e us

section
variable {sub : Sub} (hsub : SoundSub sub)
include hsub

theorem operators_sound {p : Precedence} {n : Nat} {left e : Expr} {w v : Window} {s : Shape}
    {ss : List (TokenKind × Shape)} (hp : p ≠ .none)
    (hl : left.shape = s.chain ss) (h : (operators sub p n left).on none w = (.ok e, v)) :
    ∃ ss' us, w.Passes us v ∧ Derives (.operators ss') us ∧ e.shape = s.chain (ss ++ ss') ∧
      ∀ x ∈ ss', p.level ≤ (Binding.of x.1).precedence.level := by
  induction n generalizing left ss w with
  | zero =>
    cases h
    exact ⟨[], [], passes_nil _, .noOperators, by simpa using hl, by simp⟩
  | succ n ih =>
    rw [on_operators] at h
    split at h
    · next hle =>
      cases ha : (Binding.of w.current.kind).associativity with
      | none => simp [ha] at h
      | some a =>
        rw [ha] at h
        have hp' := one_le_level hp
        obtain ⟨right, w₁, hr, h⟩ := on_bind_eq_ok.mp h
        have hadv := passes_advance ⟨(Binding.of_infix ha).2.2.1, fun hk => by rw [hk] at ha; cases ha⟩
        obtain ⟨us₁, hpass, s₁, ss₁, ts, vs, rfl, ho, hs₁, hrs, hle₁⟩ :=
          hsub (rightPrecedence_ne_none (by omega) a) hr
        have hjoin : (join w.current left right).shape = s.chain (ss ++ (w.current.kind, s₁) :: ss₁) := by
          rw [Expr.shape_join, Shape.chain_joined, hl, hrs]
        obtain ⟨ss₂, us₂, hpass₂, hs₂, he, hle₂⟩ := ih hjoin h
        refine ⟨(w.current.kind, s₁) :: ss₁ ++ ss₂, _, (hadv.trans hpass).trans hpass₂, ?_, ?_, ?_⟩
        · exact (Derives.operators (o := w.current) (by simp [ha]) ho hs₁).operators_append hs₂
        · rw [he, List.append_assoc]
        · intro x hx
          rcases List.mem_append.mp hx with hx | hx
          · rcases List.mem_cons.mp hx with rfl | hx
            · exact hle
            · exact Nat.le_trans hle (Nat.le_trans (level_le_rightPrecedence _ a) (hle₁ x hx))
          · exact hle₂ x hx
    · cases h
      exact ⟨[], [], passes_nil _, .noOperators, by simpa using hl, by simp⟩

theorem item_sound {w v : Window} {e : Expr} (h : (item sub).on none w = (.ok e, v)) :
    ∃ us, w.Passes us v ∧ Derives (.item e.shape) us := by
  rw [item, on_call_none, on_bind_ok (on_skipNewlines w)] at h
  obtain ⟨x, u, hx, h⟩ := on_bind_eq_ok.mp h
  rw [on_bind_ok (on_skipNewlines u)] at h
  cases h
  obtain ⟨ns, hn, hpn⟩ := passes_newlines _
  obtain ⟨us, hpu, hc⟩ := hsub (by decide) hx
  obtain ⟨ms, hm, hpm⟩ := passes_newlines _
  exact ⟨ns ++ us ++ ms, (hpn.trans hpu).trans hpm, .item hn hc.expr hm⟩

theorem moreItems_sound {n : Nat} {w v : Window} {es : List Expr}
    (h : (moreItems sub n).on none w = (.ok es, v)) :
    ∃ us, w.Passes us v ∧ Derives .items us ∧
      (w.current.kind = .comma → n ≠ 0 → us ≠ []) := by
  induction n generalizing w es with
  | zero =>
    cases h
    exact ⟨[], passes_nil _, .noItems, by simp⟩
  | succ n ih =>
    rw [on_moreItems] at h
    split at h
    · next hk =>
      obtain ⟨e, w₁, h₁, h⟩ := on_bind_eq_ok.mp h
      obtain ⟨es', w₂, h₂, h⟩ := on_bind_eq_ok.mp h
      cases h
      have hadv := passes_advance (by rw [hk]; decide)
      obtain ⟨ts, hpt, ht⟩ := item_sound hsub h₁
      obtain ⟨us, hpu, hu, -⟩ := ih h₂
      exact ⟨_, (hadv.trans hpt).trans hpu, .items hk ht hu, by simp⟩
    · next hk =>
      cases h
      exact ⟨[], passes_nil _, .noItems, fun hk' => absurd hk' hk⟩

theorem group_sound {w v : Window} {e : Expr} {o : Token} (ho : o.kind = .leftParen)
    (h : (group sub).on none w = (.ok e, v)) :
    ∃ us, w.Passes us v ∧ Derives (.operand e.shape) (o :: us) := by
  obtain ⟨first, w₁, h₁, h⟩ := on_bind_eq_ok.mp h
  obtain ⟨ts, hpt, ht⟩ := item_sound hsub h₁
  rw [on_check_bind] at h
  by_cases hk : w₁.current.kind = .comma
  · rw [hk, beq_self_eq_true, if_pos rfl] at h
    rw [on_bind_ok (on_bound w₁)] at h
    obtain ⟨es, w₂, h₂, h⟩ := on_bind_eq_ok.mp h
    obtain ⟨c, w₃, h₃, h⟩ := on_bind_eq_ok.mp h
    cases h
    obtain ⟨us, hpu, hu, hne⟩ := moreItems_sound hsub h₂
    obtain ⟨hc, hpc⟩ := Passes.expect h₃ (by decide)
    exact ⟨_, (hpt.trans hpu).trans hpc, .tuple ho ht hu (hne hk (by simp)) hc⟩
  · have hk' : (w₁.current.kind == .comma) = false := by simpa using hk
    rw [hk', if_neg Bool.false_ne_true] at h
    obtain ⟨c, w₂, h₂, h⟩ := on_bind_eq_ok.mp h
    cases h
    obtain ⟨hc, hpc⟩ := Passes.expect h₂ (by decide)
    exact ⟨_, hpt.trans hpc, .group ho ht hc⟩

omit hsub in
theorem closeList_sound {es : List Expr} {w v : Window} {e : Expr}
    (h : (closeList es).on none w = (.ok e, v)) :
    ∃ c, c.kind = .rightSquare ∧ w.Passes [c] v ∧ e.shape = .other := by
  obtain ⟨c, w₁, h₁, h⟩ := on_bind_eq_ok.mp h
  cases h
  obtain ⟨hc, hpc⟩ := Passes.expect h₁ (by decide)
  exact ⟨c, hc, hpc, rfl⟩

theorem list_sound {w v : Window} {e : Expr} {o : Token} (ho : o.kind = .leftSquare)
    (h : (list sub).on none w = (.ok e, v)) :
    ∃ us, w.Passes us v ∧ Derives (.operand e.shape) (o :: us) := by
  obtain ⟨ns, hn, hpn⟩ := passes_newlines _
  rw [list, on_bind_ok (on_skipNewlines w), on_check_bind] at h
  by_cases hk : w.skipNewlines.current.kind = .rightSquare
  · rw [hk, beq_self_eq_true, if_pos rfl] at h
    obtain ⟨c, hc, hpc, he⟩ := closeList_sound h
    rw [he]
    exact ⟨_, hpn.trans hpc, .emptyList ho hn hc⟩
  · have hk' : (w.skipNewlines.current.kind == .rightSquare) = false := by simpa using hk
    rw [hk', if_neg Bool.false_ne_true] at h
    obtain ⟨first, w₁, h₁, h⟩ := on_bind_eq_ok.mp h
    rw [on_bind_ok (on_bound w₁)] at h
    obtain ⟨es, w₂, h₂, h⟩ := on_bind_eq_ok.mp h
    obtain ⟨ts, hpt, ht⟩ := item_sound hsub h₁
    obtain ⟨us, hpu, hu, -⟩ := moreItems_sound hsub h₂
    obtain ⟨c, hc, hpc, he⟩ := closeList_sound h
    rw [he]
    exact ⟨_, ((hpn.trans hpt).trans hpu).trans hpc, .list ho (ht.item_newlines hn) hu hc⟩

/-- A guard whose first item has been passed. -/
theorem guard_sound {w v : Window} {first : Expr} {g : Guard} {s : Shape} {ts : List Token}
    (hf : Derives (.item s) ts) (h : (guard sub first).on none w = (.ok g, v)) :
    ∃ us, w.Passes us v ∧ Derives .guard (ts ++ us) := by
  rw [on_guard] at h
  split at h
  · next hk =>
    obtain ⟨value, w₁, h₁, h⟩ := on_bind_eq_ok.mp h
    cases h
    have hadv := passes_advance (by rw [hk]; decide)
    obtain ⟨us, hpu, hu⟩ := item_sound hsub h₁
    exact ⟨_, hadv.trans hpu, .conditional hf hk hu⟩
  · cases h
    exact ⟨[], passes_nil _, by simpa using Derives.plain hf⟩

/-- What has been passed behind the guards of a case: the first item of the next case, if any. -/
def HeadPassed (head : Option CaseHead) (xs : List Token) : Prop :=
  match head with
  | none => xs = []
  | some h => ∃ c us, xs = c :: us ∧ c.kind = .comma ∧ Derives (.item h.expr.shape) us

theorem guards_sound {n : Nat} {w v : Window} {first : Expr} {s : Shape} {ts : List Token}
    {r : List Guard × Option CaseHead} (hf : Derives (.item s) ts)
    (h : (guards sub n first).on none w = (.ok r, v)) :
    ∃ us vs xs, w.Passes (us ++ vs ++ xs) v ∧ Derives .guard (ts ++ us) ∧ Derives .guards vs ∧
      HeadPassed r.2 xs := by
  induction n generalizing w first s ts r with
  | zero =>
    cases h
    exact ⟨[], [], [], passes_nil _, by simpa using Derives.plain hf, .noGuards, rfl⟩
  | succ n ih =>
    rw [on_guards] at h
    obtain ⟨g, w₁, h₁, h⟩ := on_bind_eq_ok.mp h
    obtain ⟨us, hpu, hu⟩ := guard_sound hsub hf h₁
    rw [on_accept_bind] at h
    split at h
    · next hk =>
      have hadv := passes_advance (by rw [hk]; decide)
      rw [if_pos rfl, afterGuard, on_bind_ok (on_skipNewlines _), on_bind_ok (on_current _)] at h
      obtain ⟨next, w₂, h₂, h⟩ := on_bind_eq_ok.mp h
      obtain ⟨ns, hn, hpn⟩ := passes_newlines _
      obtain ⟨xs, hpx, hx⟩ := item_sound hsub h₂
      have hx := hx.item_newlines hn
      have hpx := (hpu.trans hadv).trans (hpn.trans hpx)
      rw [on_check_bind] at h
      by_cases hp : w₂.current.kind = .pipe
      · rw [hp, beq_self_eq_true, if_pos rfl] at h
        cases h
        refine ⟨us, [], w₁.current :: (ns ++ xs), ?_, hu, .noGuards, _, _, rfl, hk, hx⟩
        simpa using hpx
      · have hp' : (w₂.current.kind == .pipe) = false := by simpa using hp
        rw [hp', if_neg Bool.false_ne_true] at h
        obtain ⟨⟨gs, head⟩, w₃, h₃, h⟩ := on_bind_eq_ok.mp h
        cases h
        obtain ⟨us', vs, ys, hpy, hg, hgs, hh⟩ := ih hx h₃
        refine ⟨us, w₁.current :: (ns ++ xs ++ us') ++ vs, ys, ?_, hu, .guards hk hg hgs, hh⟩
        simpa using hpx.trans hpy
    · cases h
      exact ⟨us, [], [], by simpa using hpu, hu, .noGuards, rfl⟩

/-- The cases of a function whose first item has been passed. -/
theorem cases_sound (hmoves : ∀ p, Moves (sub p)) {n : Nat} {w v : Window} {head : CaseHead}
    {ts : List Token} {cs : List Case} (hn : w.rest.length < n)
    (hf : Derives (.item head.expr.shape) ts) (h : (cases sub n head).on none w = (.ok cs, v)) :
    ∃ us vs, w.Passes (us ++ vs) v ∧ Derives .case (ts ++ us) ∧ Derives .cases vs := by
  induction n generalizing w head ts cs with
  | zero => omega
  | succ n ih =>
    rw [on_cases] at h
    obtain ⟨b, w₁, h₁, h⟩ := on_bind_eq_ok.mp h
    obtain ⟨p, w₂, h₂, h⟩ := on_bind_eq_ok.mp h
    obtain ⟨first, w₃, h₃, h⟩ := on_bind_eq_ok.mp h
    rw [on_bind_ok (on_bound w₃)] at h
    obtain ⟨⟨gs, next⟩, w₄, h₄, h⟩ := on_bind_eq_ok.mp h
    obtain ⟨hb, hpb⟩ := Passes.expect h₁ (by decide)
    have hlt : w₁.rest.length < n := by
      obtain ⟨hk, -, rfl⟩ := on_expect_eq_ok.mp h₁
      have := length_rest_advance (w := w) (by rw [hk]; decide)
      omega
    obtain ⟨hpat, rfl⟩ : head.expr.shape.IsPattern ∧ w₁ = w₂ := by
      unfold pattern at h₂
      split at h₂
      · next hp =>
        cases h₂
        exact ⟨(isSome_pattern? _).mp (by simp [hp]), rfl⟩
      · simp at h₂
    obtain ⟨us, hpu, hu⟩ := item_sound hsub h₃
    obtain ⟨us', vs, xs, hpx, hg, hgs, hx⟩ := guards_sound hsub hu h₄
    have hcase : Derives .case (ts ++ b :: (us ++ us') ++ vs) := .case hf hpat hb hg hgs
    have hpx := (hpb.trans hpu).trans hpx
    cases next with
    | none =>
      cases h
      obtain rfl : xs = [] := hx
      exact ⟨b :: (us ++ us') ++ vs, [], by simpa using hpx, by simpa using hcase, .noCases⟩
    | some next =>
      obtain ⟨c, ys, rfl, hc, hy⟩ := hx
      obtain ⟨cs', w₅, h₅, h⟩ := on_bind_eq_ok.mp h
      cases h
      have hlt₄ : w₄.rest.length < n := by
        have h₁ := ((moves.item hmoves).reaches h₃).length_rest_le
        have h₂ := ((moves.guards hmoves _ first).reaches h₄).length_rest_le
        omega
      obtain ⟨zs, vs', hpz, hz, hcs⟩ := ih hlt₄ hy h₅
      refine ⟨b :: (us ++ us') ++ vs, c :: (ys ++ zs) ++ vs', ?_, by simpa using hcase,
        .cases hc hz hcs⟩
      simpa using hpx.trans hpz

theorem function_sound (hmoves : ∀ p, Moves (sub p)) {w v : Window} {e : Expr} {o : Token}
    (ho : o.kind = .leftBrace) (h : (function sub).on none w = (.ok e, v)) :
    ∃ us, w.Passes us v ∧ Derives (.operand e.shape) (o :: us) := by
  rw [function, on_bind_ok (on_skipNewlines w), on_bind_ok (on_current _)] at h
  obtain ⟨head, w₁, h₁, h⟩ := on_bind_eq_ok.mp h
  rw [on_bind_ok (on_bound w₁)] at h
  obtain ⟨cs, w₂, h₂, h⟩ := on_bind_eq_ok.mp h
  obtain ⟨c, w₃, h₃, h⟩ := on_bind_eq_ok.mp h
  cases h
  obtain ⟨ns, hn, hpn⟩ := passes_newlines _
  obtain ⟨ts, hpt, ht⟩ := item_sound hsub h₁
  obtain ⟨us, vs, hpu, hc, hcs⟩ :=
    cases_sound hsub hmoves (Nat.lt_succ_of_le w₁.length_rest_le) (ht.item_newlines hn) h₂
  obtain ⟨hk, hpc⟩ := Passes.expect h₃ (by decide)
  refine ⟨(ns ++ ts ++ us) ++ vs ++ [c], ?_, .function ho hc hcs hk⟩
  simpa using ((hpn.trans hpt).trans hpu).trans hpc

theorem operand_sound (hmoves : ∀ p, Moves (sub p)) {form : Operand} {w v : Window} {e : Expr}
    (hf : (Binding.of w.previous.kind).operand = some form)
    (h : (operand sub form).on none w = (.ok e, v)) :
    ∃ us, w.Passes us v ∧ Derives (.operand e.shape) (w.previous :: us) := by
  have hk := Binding.mem_kinds hf
  rw [operand, on_call_none, on_bind_ok (on_previous w)] at h
  cases form with
  | number =>
    dsimp only at h
    split at h
    · next l hl =>
      cases h
      obtain ⟨hfits, hs⟩ := fits_of_number hl
      rw [hs]
      exact ⟨[], passes_nil _, .number (List.mem_singleton.mp hk) hfits⟩
    · simp at h
  | text =>
    cases h
    exact ⟨[], passes_nil _, .text (List.mem_singleton.mp hk)⟩
  | boolean =>
    cases h
    exact ⟨[], passes_nil _, .boolean (by simpa [Operand.kinds] using hk)⟩
  | name =>
    cases h
    exact ⟨[], passes_nil _, .name (List.mem_singleton.mp hk)⟩
  | unary =>
    obtain ⟨x, u, hx, h⟩ := on_bind_eq_ok.mp h
    cases h
    obtain ⟨us, hpu, hc⟩ := hsub (by decide) hx
    rw [Expr.shape_unary]
    exact ⟨us, hpu, .unary (by simpa [Operand.kinds] using hk) hc.operand⟩
  | group => exact group_sound hsub (List.mem_singleton.mp hk) h
  | list => exact list_sound hsub (List.mem_singleton.mp hk) h
  | function => exact function_sound hsub hmoves (List.mem_singleton.mp hk) h

end

/-- Where an operand is read that is a number, the number has a value. -/
theorem number_of_operand {sub : Sub} {w v : Window} {e : Expr}
    (h : (operand sub .number).on none w = (.ok e, v)) : ∃ l, number w.previous = .ok l := by
  rw [operand, on_call_none, on_bind_ok (on_previous w)] at h
  dsimp only at h
  split at h
  · next l hl => exact ⟨l, hl⟩
  · cases h

theorem expression_sound (depth : Nat) : SoundSub (expression depth) := by
  induction depth with
  | zero =>
    intro p w v e _ h
    cases h
  | succ depth ih =>
    intro p w v e hp h
    rw [on_expression] at h
    cases hf : (Binding.of w.current.kind).operand with
    | none => simp [hf] at h
    | some form =>
      rw [hf] at h
      obtain ⟨left, w₁, h₁, h⟩ := on_bind_eq_ok.mp h
      rw [on_bind_ok (on_bound w₁)] at h
      have hc : w.current.kind ≠ .endOfText := by
        intro hc
        simp [hc, Binding.of, Binding.none] at hf
      have hnumber : w.current.Converts := by
        intro hk
        rw [hk] at hf
        cases hf
        rw [← previous_advance w]
        exact number_of_operand h₁
      have hadv := passes_current hc hnumber
      obtain ⟨us, hpu, ho⟩ := operand_sound ih (moves_expression depth)
        (by rw [previous_advance, hf]) h₁
      rw [previous_advance] at ho
      have hl : left.shape = left.shape.chain [] := rfl
      obtain ⟨ss, vs, hpv, hs, he, hle⟩ := operators_sound ih hp hl h
      exact ⟨_, (hadv.trans hpu).trans hpv, left.shape, ss, _, vs, rfl, ho, hs, he, hle⟩

/-- The end of a line, or of the text. -/
def TokenKind.EndsForm (k : TokenKind) : Prop := k = .newline ∨ k = .endOfText

theorem ended_sound {d d' : Decl} {w v : Window} (h : (ended d).on none w = (.ok d', v)) :
    w = v ∧ v.current.kind.EndsForm := by
  rw [ended, on_check_bind, on_check_bind] at h
  split at h
  · next hk =>
    cases h
    exact ⟨rfl, by simpa [TokenKind.EndsForm] using hk⟩
  · simp [on_bind] at h

theorem declaration_sound {depth : Nat} {w v : Window} {d : Decl}
    (h : (declaration (expression depth)).on none w = (.ok d, v)) :
    ∃ us, w.Passes us v ∧ Derives .form us ∧ v.current.kind.EndsForm := by
  rw [declaration, on_call_none] at h
  obtain ⟨e, w₁, h₁, h⟩ := on_bind_eq_ok.mp h
  obtain ⟨ts, hpt, hc⟩ := expression_sound depth (by decide) h₁
  rw [on_check_bind] at h
  by_cases hk : w₁.current.kind = .equal
  · rw [hk, beq_self_eq_true, if_pos rfl] at h
    obtain ⟨d', w₂, h₂, h⟩ := on_bind_eq_ok.mp h
    obtain ⟨rfl, hends⟩ := ended_sound h
    rw [constant, on_call_none] at h₂
    split at h₂
    · simp [on_bind] at h₂
    · next n u ht =>
      rw [on_bind_ok (on_advance w₁)] at h₂
      obtain ⟨value, w₃, h₃, h₂⟩ := on_bind_eq_ok.mp h₂
      cases h₂
      have hadv := passes_advance (by rw [hk]; decide)
      obtain ⟨us, hpu, hu⟩ := expression_sound depth (by decide) h₃
      have htarget : e.shape.IsTarget := (isSome_target? e).mp (by simp [ht])
      refine ⟨ts ++ w₁.current :: us, ?_, .constant hc.expr htarget hk hu.expr, hends⟩
      simpa using (hpt.trans hadv).trans hpu
  · have hk' : (w₁.current.kind == .equal) = false := by simpa using hk
    rw [hk', if_neg Bool.false_ne_true] at h
    obtain ⟨rfl, hends⟩ := ended_sound h
    exact ⟨ts, hpt, .evaluated hc.expr, hends⟩

theorem diagnostics_ne_nil {w v : Window} {d : Diagnostic} (h : (w.report d).Reaches v) :
    v.diagnostics.toList ≠ [] :=
  List.ne_nil_of_mem (h.diagnostics.mem (a := d) (by simp [report]))

/-- A turn that reports nothing has read a form. -/
theorem turn_sound {w v : Window} {d : Option Decl} (h : w.turn none depth = (.ok d, v))
    (hd : v.diagnostics.toList = []) :
    ∃ ts ns, w.Passes (ts ++ ns) v ∧ Derives .form ts ∧ Newlines ns ∧
      (v.current.kind ≠ .endOfText → ns ≠ []) := by
  unfold turn at h
  split at h
  · next d u hu =>
    cases h
    obtain ⟨ts, hpt, ht, hends⟩ := declaration_sound hu
    obtain ⟨ns, hn, hpn⟩ := passes_newlines _
    refine ⟨ts, ns, hpt.trans hpn, ht, hn, ?_⟩
    rintro hne rfl
    -- no newline was skipped, so the line ended there with the text
    have hc : u.current = u.skipNewlines.current := (List.cons.inj hpn.ahead).1
    rcases hends with hk | hk
    · exact u.skipNewlines_current_ne (hc ▸ hk)
    · exact hne (hc ▸ hk)
  · cases h
    exact absurd hd (diagnostics_ne_nil ((reaches_advance _).trans (reaches_skipNewlines _)))
  · cases h
    exact absurd hd (diagnostics_ne_nil ((reaches_skipLine _).trans (reaches_skipNewlines _)))
  · cases h

/-- Turns that report nothing have read forms only. -/
theorem forms_sound {w : Window} {ds : List Decl} (hc : w.current.kind ≠ .endOfText)
    (h : (w.forms none depth).1 = .ok ds) (hd : (w.forms none depth).2.diagnostics.toList = []) :
    ∃ ts us ms e, w.ahead = ts ++ us ++ ms ++ [e] ∧ Derives .form ts ∧ Derives .forms us ∧
      Newlines ms ∧ e.kind = .endOfText ∧ ∀ t ∈ w.ahead, t.Converts := by
  induction w using forms_induction none depth generalizing ds with
  | last w he => exact absurd he hc
  | turn w hc' ih =>
    rw [forms_of_turn hc] at h hd
    rcases ht : w.turn none depth with ⟨cause | d, v⟩ <;> rw [ht] at h hd ih
    · cases h
    · obtain ⟨ds', hds, -⟩ := ok_of_map h
      have hdv : v.diagnostics.toList = [] := List.prefix_nil.mp (hd ▸ diagnostics_forms none depth v)
      obtain ⟨ts, ns, hpt, hform, hn, hne⟩ := turn_sound ht hdv
      by_cases hend : v.current.kind = .endOfText
      · refine ⟨ts, [], ns, v.current, ?_, hform, .noForms, hn, hend, ?_⟩ <;>
          rw [hpt.ahead, ahead_of_end hend]
        · simp
        · refine List.forall_mem_append.mpr ⟨hpt.converts, List.forall_mem_singleton.mpr fun hk => ?_⟩
          rw [hend] at hk
          cases hk
      · obtain ⟨ts', us, ms, e, ha, hf', hus, hm, he, hnum⟩ := ih hend hds hd
        refine ⟨ts, ns ++ ts' ++ us, ms, e, ?_, hform, .forms hn (hne hend) hf' hus, hm, he, ?_⟩
        · rw [hpt.ahead, ha]
          simp
        · rw [hpt.ahead]
          exact List.forall_mem_append.mpr ⟨hpt.converts, hnum⟩

end ArrowLang
