import ArrowLang.Proofs.Gives
import Mathlib.Data.List.Forall2

/-!
# What tokens yield as an operand

Single tokens, the operand behind a unary operator, and the forms in brackets. In a function the
item behind a comma begins a guard or the next case: which of them is seen at the bar behind it.
-/
namespace ArrowLang

open Reading

/-- Values that are as described, one by one. -/
abbrev Each {α : Type} (Qs : List (α → Prop)) (xs : List α) : Prop :=
  List.Forall₂ (fun Q x => Q x) Qs xs

section
variable (excuse : Failure → Prop)

/-- Items, each behind a comma. -/
inductive MoreItems : List (Expr → Prop) → List Token → Prop where
  | nil : MoreItems [] []
  | cons {c : Token} {ts us : List Token} {Q : Expr → Prop} {Qs : List (Expr → Prop)} :
      c.kind = .comma → ItemYields excuse ts Q → MoreItems Qs us →
      MoreItems (Q :: Qs) (c :: ts ++ us)

/-- What is left of a guard behind its first item. -/
inductive GuardRest (P : Expr → Prop) : List Token → (Guard → Prop) → Prop where
  | plain : GuardRest P [] fun g => ∃ e, P e ∧ g = .mk .always e
  | cond {q : Token} {ts : List Token} {P' : Expr → Prop} : q.kind = .question →
      ItemYields excuse ts P' → GuardRest P (q :: ts) fun g => ∃ c v, P c ∧ P' v ∧ g = .mk c v

/-- Guards, each behind a comma. -/
inductive MoreGuards : List (Guard → Prop) → List Token → Prop where
  | nil : MoreGuards [] []
  | cons {c : Token} {ts us vs : List Token} {P : Expr → Prop} {Q : Guard → Prop}
      {Qs : List (Guard → Prop)} : c.kind = .comma → ItemYields excuse ts P →
      GuardRest excuse P us Q → MoreGuards Qs vs → MoreGuards (Q :: Qs) (c :: ts ++ us ++ vs)

/-- What is left of a case behind its first item. -/
inductive CaseRest (P : Expr → Prop) : List Token → (Case → Prop) → Prop where
  | mk {b : Token} {ts us vs : List Token} {P' : Expr → Prop} {Q : Guard → Prop}
      {Qs : List (Guard → Prop)} : b.kind = .pipe → (∀ e, P e → (pattern? e).isSome) →
      ItemYields excuse ts P' → GuardRest excuse P' us Q → MoreGuards excuse Qs vs →
      CaseRest P (b :: ts ++ us ++ vs) fun c =>
        ∃ e p gs, P e ∧ pattern? e = some p ∧ Each (Q :: Qs) gs ∧ c = .mk p gs

/-- Cases, each behind a comma. -/
inductive MoreCases : List (Case → Prop) → List Token → Prop where
  | nil : MoreCases [] []
  | cons {c : Token} {ts us vs : List Token} {P : Expr → Prop} {Q : Case → Prop}
      {Qs : List (Case → Prop)} : c.kind = .comma → ItemYields excuse ts P →
      CaseRest excuse P us Q → MoreCases Qs vs → MoreCases (Q :: Qs) (c :: ts ++ us ++ vs)

end

section
variable {excuse : Failure → Prop}

/-- A token that is an operand by itself. -/
theorem single_yields {t : Token} {f : Operand} {Q : Expr → Prop}
    (hf : (Binding.of t.kind).operand = some f)
    (h : ∀ depth {w : Window}, w.previous = t →
      Gives excuse (operand (expression depth) f) w fun e rest => Q e ∧ rest = w.ahead) :
    OperandYields excuse [t] Q where
  begins := ⟨t, [], rfl, by simp [hf]⟩
  gives depth w out ha := by
    have he : t.kind ≠ .endOfText := fun he => by simp [he, Binding.of, Binding.none] at hf
    obtain ⟨rfl, rfl⟩ := Window.advance_of_ahead ha he
    exact .congr (on_operandAt depth hf) (h depth (Window.previous_advance w))

theorem number_yields {t : Token} (hk : t.kind = .number)
    (h : ∀ f, number t = .error f → excuse f) :
    OperandYields excuse [t] fun e => ∃ l, number t = .ok l ∧ e = .of (.literal l) := by
  refine single_yields (by rw [hk]; rfl) fun depth w hp => ?_
  refine .call <| .congr (on_bind_ok (on_previous w)) ?_
  rw [hp]
  cases hn : number t with
  | ok l => exact .pure ⟨⟨l, rfl, rfl⟩, rfl⟩
  | error f => exact .excused rfl (h f hn)

theorem text_yields {t : Token} (hk : t.kind = .string) :
    OperandYields excuse [t] fun e => e = .of (.literal (.text t.lexeme)) := by
  refine single_yields (by rw [hk]; rfl) fun depth w hp => ?_
  exact .call <| .congr (on_bind_ok (on_previous w)) (.pure ⟨by rw [hp], rfl⟩)

theorem boolean_yields {t : Token} (hk : t.kind = .trueWord ∨ t.kind = .falseWord) :
    OperandYields excuse [t] fun e => e = .of (.literal (.bool (t.kind == .trueWord))) := by
  refine single_yields (f := .boolean) (by rcases hk with hk | hk <;> rw [hk] <;> rfl)
    fun depth w hp => ?_
  exact .call <| .congr (on_bind_ok (on_previous w)) (.pure ⟨by rw [hp], rfl⟩)

theorem name_yields {t : Token} (hk : t.kind = .identifier) :
    OperandYields excuse [t] fun e => e = .of (.name t) := by
  refine single_yields (by rw [hk]; rfl) fun depth w hp => ?_
  exact .call <| .congr (on_bind_ok (on_previous w)) (.pure ⟨by rw [hp], rfl⟩)

theorem opened_yields {o : Token} {f : Operand} {ts : List Token} {Q : Expr → Prop}
    (hf : (Binding.of o.kind).operand = some f)
    (h : ∀ depth {w : Window} {out : List Token}, w.previous = o →
      w.ahead = ts ++ out →
      Gives excuse (operand (expression depth) f) w fun e rest => Q e ∧ rest = out) :
    OperandYields excuse (o :: ts) Q where
  begins := ⟨o, ts, rfl, by simp [hf]⟩
  gives depth w out ha := by
    have he : o.kind ≠ .endOfText := fun he => by simp [he, Binding.of, Binding.none] at hf
    obtain ⟨rfl, hr⟩ := Window.advance_of_ahead ha he
    exact .congr (on_operandAt depth hf) (h depth (Window.previous_advance w) hr)

theorem unary_yields {o : Token} {ts : List Token} {Q : Expr → Prop} (deep : excuse (.tooDeep none))
    (ho : o.kind = .minus ∨ o.kind = .notWord) (h : OperandYields excuse ts Q) :
    OperandYields excuse (o :: ts) fun e => ∃ x, Q x ∧ e = .of (.unary o x) := by
  refine opened_yields (f := .unary) (by rcases ho with ho | ho <;> rw [ho] <;> rfl)
    fun depth w out hp ha => ?_
  refine .call <| .congr (on_bind_ok (on_previous w)) ?_
  refine (expression_unary depth deep h ha).bind fun x v ⟨hQ, hr⟩ => .pure ⟨?_, hr⟩
  exact ⟨x, hQ, by rw [hp]⟩

theorem MoreItems.length_le {Qs : List (Expr → Prop)} {us : List Token}
    (h : MoreItems excuse Qs us) : Qs.length ≤ us.length := by
  induction h with
  | nil => simp
  | cons _ _ _ ih =>
    simp only [List.length_cons, List.length_append]
    omega

theorem MoreItems.stops {Qs : List (Expr → Prop)} {us : List Token} (h : MoreItems excuse Qs us)
    {out : List Token} (ho : Stops out) : Stops (us ++ out) := by
  cases h with
  | nil => exact ho
  | cons hc _ _ => exact .cons (by rw [hc]; rfl) (by rw [hc]; decide) _

theorem moreItems_gives {Qs : List (Expr → Prop)} {us : List Token} (h : MoreItems excuse Qs us)
    {depth n : Nat} {w : Window} {t : Token} {out : List Token}
    (ha : w.ahead = us ++ t :: out) (hs : Stops (t :: out)) (ht : t.kind ≠ .comma)
    (hn : Qs.length < n) :
    Gives excuse (moreItems (expression depth) n) w fun es rest => Each Qs es ∧ rest = t :: out := by
  induction h generalizing n w with
  | nil =>
    obtain ⟨n, rfl⟩ : ∃ k, n = k + 1 := ⟨n - 1, by omega⟩
    have hc := Window.current_of_ahead ha
    have he : (moreItems (expression depth) (n + 1)).on none w = (.ok [], w) := by
      rw [on_moreItems, if_neg (by rw [hc]; exact ht)]
    exact .ok he ⟨.nil, ha⟩
  | @cons c ts us Q Qs hk hi hm ih =>
    obtain ⟨n, rfl⟩ : ∃ k, n = k + 1 := ⟨n - 1, by omega⟩
    have ha : w.ahead = c :: (ts ++ (us ++ t :: out)) := by simpa using ha
    obtain ⟨rfl, hr⟩ := Window.advance_of_ahead ha (by rw [hk]; decide)
    have he : (moreItems (expression depth) (n + 1)).on none w = (item (expression depth) >>= fun e =>
        moreItems (expression depth) n >>= fun es => pure (e :: es)).on none w.advance := by
      rw [on_moreItems, if_pos hk]
    refine .congr he ((hi.gives depth hr (hm.stops hs)).bind fun e v ⟨hQ, hr⟩ => ?_)
    simp only [List.length_cons] at hn
    exact (ih hr (by omega)).bind fun es v ⟨hQs, hr⟩ => .pure ⟨.cons hQ hQs, hr⟩

theorem group_yields {o c : Token} {ts : List Token} {Q : Expr → Prop} (ho : o.kind = .leftParen)
    (hi : ItemYields excuse ts Q) (hc : c.kind = .rightParen) :
    OperandYields excuse (o :: (ts ++ [c])) Q := by
  refine opened_yields (f := .group) (by rw [ho]; rfl) fun depth w out hp ha => ?_
  have ha : w.ahead = ts ++ c :: out := by simpa using ha
  have hs : Stops (c :: out) := .cons (by rw [hc]; rfl) (by rw [hc]; decide) _
  refine .call <| .congr (on_bind_ok (on_previous w)) ((hi.gives depth ha hs).bind
    fun e v ⟨hQ, hr⟩ => ?_)
  have hk : (v.current.kind == .comma) = false := by
    rw [Window.current_of_ahead hr, hc]
    rfl
  refine .congr (on_check_bind _ _ v) ?_
  rw [hk]
  exact (gives_expect hr hc (by decide)).bind fun _ v hr => .pure ⟨hQ, hr⟩

theorem tuple_yields {o c : Token} {ts us : List Token} {Q : Expr → Prop}
    {Qs : List (Expr → Prop)} (ho : o.kind = .leftParen) (hi : ItemYields excuse ts Q)
    (hm : MoreItems excuse Qs us) (hne : Qs ≠ []) (hc : c.kind = .rightParen) :
    OperandYields excuse (o :: (ts ++ us ++ [c])) fun e =>
      ∃ es, Each (Q :: Qs) es ∧ e = .of (.tuple es) := by
  refine opened_yields (f := .group) (by rw [ho]; rfl) fun depth w out hp ha => ?_
  have ha : w.ahead = ts ++ (us ++ c :: out) := by simpa using ha
  have hs : Stops (c :: out) := .cons (by rw [hc]; rfl) (by rw [hc]; decide) _
  refine .call <| .congr (on_bind_ok (on_previous w)) ((hi.gives depth ha (hm.stops hs)).bind
    fun e v ⟨hQ, hr⟩ => ?_)
  have hk : (v.current.kind == .comma) = true := by
    cases hm with
    | nil => exact absurd rfl hne
    | cons hc _ _ =>
      rw [Window.current_of_ahead hr, hc]
      rfl
  refine .congr (on_check_bind _ _ v) ?_
  rw [hk]
  refine .congr (on_bind_ok (on_bound v)) ?_
  have hlen : Qs.length < v.remaining + 1 := by
    have h₁ := hm.length_le
    have h₂ := v.length_ahead_le
    rw [hr, List.length_append, List.length_cons] at h₂
    omega
  refine (moreItems_gives hm hr hs (by rw [hc]; decide) hlen).bind fun es v ⟨hQs, hr⟩ => ?_
  exact (gives_expect hr hc (by decide)).bind fun _ v hr =>
    .pure ⟨⟨e :: es, .cons hQ hQs, rfl⟩, hr⟩

theorem closeList_gives {w : Window} {c : Token} {out : List Token} {es : List Expr}
    (ha : w.ahead = c :: out) (hc : c.kind = .rightSquare) :
    Gives excuse (closeList es) w fun e rest => e = .of (.list es) ∧ rest = out :=
  (gives_expect ha hc (by decide)).bind fun _ _ hr => .pure ⟨rfl, hr⟩

theorem emptyList_yields {o c : Token} {ns : List Token} (ho : o.kind = .leftSquare)
    (hn : Newlines ns) (hc : c.kind = .rightSquare) :
    OperandYields excuse (o :: (ns ++ [c])) fun e => e = .of (.list []) := by
  refine opened_yields (f := .list) (by rw [ho]; rfl) fun depth w out hp ha => ?_
  have ha : dropNewlines w.ahead = c :: out := by
    rw [ha, List.append_assoc, dropNewlines_append hn]
    exact dropNewlines_cons (by rw [hc]; decide) out
  refine .call <| .congr (on_bind_ok (on_previous w)) (gives_skipNewlines.bind fun _ v hr => ?_)
  rw [ha] at hr
  have hk : (v.current.kind == .rightSquare) = true := by
    rw [Window.current_of_ahead hr, hc]
    rfl
  refine .congr (on_check_bind _ _ v) ?_
  rw [hk]
  exact closeList_gives hr hc

theorem list_yields {o c : Token} {ts us : List Token} {Q : Expr → Prop}
    {Qs : List (Expr → Prop)} (ho : o.kind = .leftSquare) (hi : ItemYields excuse ts Q)
    (hm : MoreItems excuse Qs us) (hc : c.kind = .rightSquare) :
    OperandYields excuse (o :: (ts ++ us ++ [c])) fun e =>
      ∃ es, Each (Q :: Qs) es ∧ e = .of (.list es) := by
  refine opened_yields (f := .list) (by rw [ho]; rfl) fun depth w out hp ha => ?_
  have ha : w.ahead = ts ++ (us ++ c :: out) := by simpa using ha
  have hs : Stops (c :: out) := .cons (by rw [hc]; rfl) (by rw [hc]; decide) _
  refine .call <| .congr (on_bind_ok (on_previous w)) (.congr (on_bind_ok (on_skipNewlines w)) ?_)
  obtain ⟨hr, hd⟩ := hi.ahead_skipNewlines ha
  have hk : (w.skipNewlines.current.kind == .rightSquare) = false := by
    obtain ⟨t, r, ht, hb⟩ := hi.begins
    rw [ht] at hr
    rw [Window.current_of_ahead hr, beq_eq_false_iff_ne]
    intro hk
    rw [hk] at hb
    exact absurd hb (by decide)
  refine .congr (on_check_bind _ _ _) ?_
  rw [hk]
  refine (hi.skipped depth hd (hm.stops hs)).bind fun e v ⟨hQ, hr⟩ => ?_
  refine .congr (on_bind_ok (on_bound v)) ?_
  have hlen : Qs.length < v.remaining + 1 := by
    have h₁ := hm.length_le
    have h₂ := v.length_ahead_le
    rw [hr, List.length_append, List.length_cons] at h₂
    omega
  refine (moreItems_gives hm hr hs (by rw [hc]; decide) hlen).bind fun es v ⟨hQs, hr⟩ => ?_
  exact (closeList_gives hr hc).imp fun x rest ⟨hx, hr⟩ =>
    ⟨⟨e :: es, .cons hQ hQs, hx⟩, hr⟩

/-- What follows the guards of a case: the closing brace, or a comma with the first item of the next
case and its bar. What is said of the head that is read then, and of the tokens left. -/
inductive GuardsEnd (excuse : Failure → Prop) :
    List Token → (Option CaseHead → List Token → Prop) → Prop where
  | close {b : Token} {out : List Token} : b.kind = .rightBrace →
      GuardsEnd excuse (b :: out) fun head rest => head = none ∧ rest = b :: out
  | next {c b : Token} {ts out : List Token} {P : Expr → Prop} : c.kind = .comma →
      ItemYields excuse ts P → b.kind = .pipe →
      GuardsEnd excuse (c :: ts ++ b :: out) fun head rest =>
        ∃ h, head = some h ∧ P h.expr ∧ rest = b :: out

/-- Tokens behind a guard. -/
def EndsGuard (ts : List Token) : Prop :=
  ∃ t r, ts = t :: r ∧ (t.kind = .comma ∨ t.kind = .rightBrace)

/-- Tokens behind the first item of a guard. -/
def EndsCondition (ts : List Token) : Prop :=
  ∃ t r, ts = t :: r ∧ (t.kind = .comma ∨ t.kind = .rightBrace ∨ t.kind = .question)

theorem EndsGuard.condition {ts : List Token} (h : EndsGuard ts) : EndsCondition ts := by
  obtain ⟨t, r, rfl, h⟩ := h
  exact ⟨t, r, rfl, h.imp_right .inl⟩

theorem EndsCondition.stops {ts : List Token} (h : EndsCondition ts) : Stops ts := by
  obtain ⟨t, r, rfl, h⟩ := h
  refine ⟨t, r, rfl, ?_⟩
  rcases h with h | h | h <;> rw [h] <;> decide

theorem GuardsEnd.ends {out : List Token} {R : Option CaseHead → List Token → Prop}
    (h : GuardsEnd excuse out R) : EndsGuard out := by
  cases h with
  | close hb => exact ⟨_, _, rfl, .inr hb⟩
  | next hc _ _ => exact ⟨_, _, rfl, .inl hc⟩

theorem MoreGuards.ends {Qs : List (Guard → Prop)} {vs out : List Token}
    (h : MoreGuards excuse Qs vs) (ho : EndsGuard out) : EndsGuard (vs ++ out) := by
  cases h with
  | nil => exact ho
  | cons hc _ _ _ => exact ⟨_, _, rfl, .inl hc⟩

theorem GuardRest.ends {P : Expr → Prop} {Q : Guard → Prop} {us out : List Token}
    (h : GuardRest excuse P us Q) (ho : EndsGuard out) : EndsCondition (us ++ out) := by
  cases h with
  | plain => exact ho.condition
  | cond hq _ => exact ⟨_, _, rfl, .inr (.inr hq)⟩

theorem MoreGuards.length_le {Qs : List (Guard → Prop)} {us : List Token}
    (h : MoreGuards excuse Qs us) : Qs.length ≤ us.length := by
  induction h with
  | nil => simp
  | cons _ _ _ _ ih =>
    simp only [List.length_cons, List.length_append]
    omega

theorem guard_gives {P : Expr → Prop} {Q : Guard → Prop} {us out : List Token}
    (h : GuardRest excuse P us Q) {e : Expr} (he : P e) {depth : Nat} {w : Window}
    (ha : w.ahead = us ++ out) (ho : EndsGuard out) :
    Gives excuse (guard (expression depth) e) w fun g rest => Q g ∧ rest = out := by
  cases h with
  | plain =>
    obtain ⟨t, r, rfl, ht⟩ := ho
    have hk : w.current.kind ≠ .question := by
      rw [Window.current_of_ahead ha]
      rcases ht with ht | ht <;> rw [ht] <;> decide
    have hg : (guard (expression depth) e).on none w = (.ok (.mk .always e), w) := by
      rw [on_guard, if_neg hk]
    exact .ok hg ⟨⟨e, he, rfl⟩, ha⟩
  | @cond q ts P' hq hi =>
    obtain ⟨rfl, hr⟩ := Window.advance_of_ahead ha (by rw [hq]; decide)
    have hg : (guard (expression depth) e).on none w = (item (expression depth) >>= fun value =>
        pure (Guard.mk e value)).on none w.advance := by rw [on_guard, if_pos hq]
    exact .congr hg ((hi.gives depth hr ho.condition.stops).bind fun v u ⟨hv, hr⟩ =>
      .pure ⟨⟨e, v, he, hv, rfl⟩, hr⟩)

/-- Behind a comma: the item there, and what is made of it at the token behind it. -/
theorem afterGuard_gives {P : Expr → Prop} {ts out : List Token} (hi : ItemYields excuse ts P)
    {depth n : Nat} {g : Guard} {w : Window} {S : List Guard × Option CaseHead → List Token → Prop}
    (ha : w.ahead = ts ++ out) (hs : Stops out)
    (h : ∀ start e v, P e → v.ahead = out →
      Gives excuse (if v.current.kind = .pipe then pure ([g], some (CaseHead.mk e start)) else
        guards (expression depth) n e >>= fun r => pure (g :: r.1, r.2)) v S) :
    Gives excuse (afterGuard (expression depth) n g) w S := by
  obtain ⟨-, hd⟩ := hi.ahead_skipNewlines ha
  refine .congr (on_bind_ok (on_skipNewlines w)) (.congr (on_bind_ok (on_current _)) ?_)
  refine (hi.skipped depth hd hs).bind fun e v ⟨hP, hr⟩ => ?_
  refine .congr (on_check_bind _ _ v) ?_
  have hk := h w.skipNewlines.current e v hP hr
  by_cases hp : v.current.kind = .pipe
  · rw [if_pos hp] at hk
    simpa [hp] using hk
  · rw [if_neg hp] at hk
    simpa [hp] using hk

/-- The guards of a case, from behind its first item on, and the head of the next case if there is
one. -/
theorem guards_gives {Qs : List (Guard → Prop)} {vs out : List Token}
    (hm : MoreGuards excuse Qs vs) {R : Option CaseHead → List Token → Prop}
    (ho : GuardsEnd excuse out R) {P : Expr → Prop} {Q : Guard → Prop} {us : List Token}
    (hg : GuardRest excuse P us Q) {e : Expr} (he : P e) {depth n : Nat} {w : Window}
    (ha : w.ahead = us ++ (vs ++ out)) (hn : Qs.length < n) :
    Gives excuse (guards (expression depth) n e) w fun r rest =>
      Each (Q :: Qs) r.1 ∧ R r.2 rest := by
  induction hm generalizing n P Q us e w with
  | nil =>
    obtain ⟨n, rfl⟩ : ∃ k, n = k + 1 := ⟨n - 1, by omega⟩
    refine .congr (on_guards _ n e w) ((guard_gives hg he ha ho.ends).bind
      fun g v ⟨hQ, hr⟩ => ?_)
    cases ho with
    | close hb =>
      have hk : v.current.kind ≠ .comma := by
        rw [Window.current_of_ahead hr, hb]
        decide
      exact .congr (on_accept_of_ne hk _) (.pure ⟨.cons hQ .nil, rfl, hr⟩)
    | @next c b ts out P' hc hi hb =>
      have hr : v.ahead = c :: (ts ++ b :: out) := hr
      obtain ⟨rfl, hr'⟩ := Window.advance_of_ahead hr (by rw [hc]; decide)
      have hs : Stops (b :: out) := .cons (by rw [hb]; rfl) (by rw [hb]; decide) _
      refine .congr (on_accept_of_eq hc _) (afterGuard_gives hi hr' hs fun start e v hP hr => ?_)
      rw [if_pos (by rw [Window.current_of_ahead hr]; exact hb)]
      exact .pure ⟨.cons hQ .nil, _, rfl, hP, hr⟩
  | @cons c ts us' vs P' Q' Qs hc hi hg' hm ih =>
    obtain ⟨n, rfl⟩ : ∃ k, n = k + 1 := ⟨n - 1, by omega⟩
    have ha : w.ahead = us ++ (c :: (ts ++ (us' ++ (vs ++ out)))) := by simpa using ha
    refine .congr (on_guards _ n e w) ((guard_gives hg he ha ⟨_, _, rfl, .inl hc⟩).bind
      fun g v ⟨hQ, hr⟩ => ?_)
    obtain ⟨rfl, hr'⟩ := Window.advance_of_ahead hr (by rw [hc]; decide)
    have hends := hg'.ends (hm.ends ho.ends)
    refine .congr (on_accept_of_eq hc _) (afterGuard_gives hi hr' hends.stops
      fun start e v hP hr => ?_)
    -- no bar stands behind the first item of a guard
    have hk : v.current.kind ≠ .pipe := by
      obtain ⟨t, r, ht, hk⟩ := hends
      rw [Window.current_of_ahead (hr.trans ht)]
      rcases hk with hk | hk | hk <;> rw [hk] <;> decide
    rw [if_neg hk]
    simp only [List.length_cons] at hn
    exact (ih hg' hP hr (by omega)).bind fun r v ⟨hQs, hR⟩ => .pure ⟨.cons hQ hQs, hR⟩

theorem MoreCases.length_le {Qs : List (Case → Prop)} {us : List Token}
    (h : MoreCases excuse Qs us) : Qs.length ≤ us.length := by
  induction h with
  | nil => simp
  | cons _ _ _ _ ih =>
    simp only [List.length_cons, List.length_append]
    omega

/-- One case from its bar on, and what is made of it and of what follows. -/
theorem case_gives {P : Expr → Prop} {Q : Case → Prop} {us out : List Token}
    (hc : CaseRest excuse P us Q) {R : Option CaseHead → List Token → Prop}
    (ho : GuardsEnd excuse out R) {head : CaseHead} (he : P head.expr) {depth n : Nat} {w : Window}
    {S : List Case → List Token → Prop} (ha : w.ahead = us ++ out)
    (h : ∀ p gs next v, Q (.mk p gs) → R next v.ahead →
      Gives excuse (afterGuards (expression depth) n p (gs, next)) v S) :
    Gives excuse (cases (expression depth) (n + 1) head) w S := by
  obtain @⟨b, ts, us, vs, P', Q', Qs, hb, hp, hi, hg, hm⟩ := hc
  have ha : w.ahead = b :: (ts ++ (us ++ (vs ++ out))) := by simpa using ha
  refine .congr (on_cases _ n head w) ((gives_expect ha hb (by decide)).bind fun _ v hr => ?_)
  obtain ⟨p, hp⟩ := Option.isSome_iff_exists.mp (hp _ he)
  have hpat : (pattern head.expr head.start).on none v = (.ok p, v) := by
    unfold pattern
    rw [hp]
    rfl
  refine .congr (on_bind_ok hpat) ?_
  have hends := hg.ends (hm.ends ho.ends)
  refine (hi.gives depth hr hends.stops).bind fun e v ⟨hP, hr⟩ => ?_
  refine .congr (on_bind_ok (on_bound v)) ?_
  have hlen : Qs.length < v.remaining + 1 := by
    have h₁ := hm.length_le
    have h₂ := v.length_ahead_le
    obtain ⟨t, r, rfl, -⟩ := ho.ends
    rw [hr, List.length_append, List.length_append, List.length_cons] at h₂
    omega
  refine (guards_gives hm ho hg hP hr hlen).bind fun r v ⟨hQs, hR⟩ => ?_
  exact h p r.1 r.2 v ⟨_, p, r.1, he, hp, hQs, rfl⟩ hR

/-- The cases of a function from the bar of the first one on. -/
theorem cases_gives {Qs : List (Case → Prop)} {vs : List Token} (hm : MoreCases excuse Qs vs)
    {P : Expr → Prop} {Q : Case → Prop} {us : List Token} (hc : CaseRest excuse P us Q)
    {head : CaseHead} (he : P head.expr) {depth n : Nat} {w : Window} {b : Token}
    {out : List Token} (hb : b.kind = .rightBrace)
    (ha : w.ahead = us ++ (vs ++ b :: out)) (hn : Qs.length < n) :
    Gives excuse (cases (expression depth) n head) w fun cs rest =>
      Each (Q :: Qs) cs ∧ rest = b :: out := by
  induction hm generalizing n P Q us head w with
  | nil =>
    obtain ⟨n, rfl⟩ : ∃ k, n = k + 1 := ⟨n - 1, by omega⟩
    refine case_gives hc (.close hb) he ha fun p gs next v hQ ⟨hnext, hr⟩ => ?_
    subst hnext
    exact .pure ⟨.cons hQ .nil, hr⟩
  | @cons c ts us' vs P' Q' Qs hk hi hc' hm ih =>
    obtain ⟨n, rfl⟩ : ∃ k, n = k + 1 := ⟨n - 1, by omega⟩
    obtain ⟨b', us', rfl, hb'⟩ : ∃ b' r, us' = b' :: r ∧ b'.kind = .pipe := by
      cases hc' with
      | mk hb' _ _ _ _ => exact ⟨_, _, rfl, hb'⟩
    have ha : w.ahead = us ++ (c :: ts ++ b' :: (us' ++ (vs ++ b :: out))) := by simpa using ha
    refine case_gives hc (.next hk hi hb') he ha fun p gs next v hQ hR => ?_
    obtain ⟨head, rfl, hP, hr⟩ := hR
    simp only [List.length_cons] at hn
    exact (ih hc' hP hr (by omega)).bind fun cs v ⟨hQs, hr⟩ => .pure ⟨.cons hQ hQs, hr⟩

theorem function_yields {o b : Token} {ts us vs : List Token} {P : Expr → Prop} {Q : Case → Prop}
    {Qs : List (Case → Prop)} (ho : o.kind = .leftBrace) (hi : ItemYields excuse ts P)
    (hc : CaseRest excuse P us Q) (hm : MoreCases excuse Qs vs) (hb : b.kind = .rightBrace) :
    OperandYields excuse (o :: (ts ++ us ++ vs ++ [b])) fun e =>
      ∃ cs, Each (Q :: Qs) cs ∧ e = .of (.function cs) := by
  refine opened_yields (f := .function) (by rw [ho]; rfl) fun depth w out hp ha => ?_
  have ha : w.ahead = ts ++ (us ++ (vs ++ b :: out)) := by simpa using ha
  have hs : Stops (us ++ (vs ++ b :: out)) := by
    cases hc with
    | mk hp _ _ _ _ => exact .cons (by rw [hp]; rfl) (by rw [hp]; decide) _
  obtain ⟨-, hd⟩ := hi.ahead_skipNewlines ha
  refine .call <| .congr (on_bind_ok (on_previous w)) (.congr (on_bind_ok (on_skipNewlines w)) ?_)
  refine .congr (on_bind_ok (on_current _)) ?_
  refine (hi.skipped depth hd hs).bind fun e v ⟨hP, hr⟩ => ?_
  refine .congr (on_bind_ok (on_bound v)) ?_
  have hlen : Qs.length < v.remaining + 1 := by
    have h₁ := hm.length_le
    have h₂ := v.length_ahead_le
    rw [hr, List.length_append, List.length_append, List.length_cons] at h₂
    omega
  refine (cases_gives hm hc hP hb hr hlen).bind fun cs v ⟨hQs, hr⟩ => ?_
  exact (gives_expect hr hb (by decide)).bind fun _ v hr => .pure ⟨⟨cs, hQs, rfl⟩, hr⟩

end
end ArrowLang
