import ArrowLang.Proofs.Bracketed
import ArrowLang.Proofs.Forms
import ArrowLang.Proofs.Lexed
import ArrowLang.Proofs.Twin

/-!
# What is derivable is read

Tokens that the grammar derives are read with the shape that it says, and as the same tree wherever
they stand. The only excuses are that they nest too deep, and that a number has too many digits to be
converted.
-/
namespace ArrowLang

open Reading

/-- Why derivable tokens may not be read. -/
def Hindered (f : Failure) : Prop := f = .tooDeep none ∨ ∃ cause, f = .abort cause

/-- The lexemes of the number tokens are numerals. -/
def Numerals (ts : List Token) : Prop := ∀ t ∈ ts, t.kind = .number → Numeral t.lexeme.toList

@[simp] theorem numerals_append {ts us : List Token} :
    Numerals (ts ++ us) ↔ Numerals ts ∧ Numerals us := by
  simp only [Numerals, List.mem_append, or_imp, forall_and]

@[simp] theorem numerals_cons {t : Token} {ts : List Token} :
    Numerals (t :: ts) ↔ (t.kind = .number → Numeral t.lexeme.toList) ∧ Numerals ts := by
  simp only [Numerals, List.mem_cons, forall_eq_or_imp]

theorem not_hindered {t : Token} {f : Failure} (hf : t.Fits) (ht : Numeral t.lexeme.toList)
    (h : number t = .error f) : Hindered f := by
  rcases number_of_fits ht hf with ⟨l, hl⟩ | ⟨cause, hl⟩ <;> rw [hl] at h <;> cases h
  exact .inr ⟨cause, rfl⟩

/-- The numbers among the tokens have values. -/
def Valued (ts : List Token) : Prop := ∀ t ∈ ts, t.kind = .number → ∃ l, number t = .ok l

@[simp] theorem valued_nil : Valued [] := by simp [Valued]

@[simp] theorem valued_append {ts us : List Token} : Valued (ts ++ us) ↔ Valued ts ∧ Valued us := by
  simp only [Valued, List.mem_append, or_imp, forall_and]

theorem valued_cons {t : Token} {ts : List Token} (h : t.kind ≠ .number) :
    Valued (t :: ts) ↔ Valued ts := by
  simp [Valued, h]

theorem valued_newlines {ns : List Token} (h : Newlines ns) : Valued ns := by
  intro t ht hk
  rw [h t ht] at hk
  cases hk

/-- What is as described is this but for positions, and then the numbers among the tokens have
values. -/
def Tells {α β : Type} (Q : α → Prop) (f : α → β) (y : β) (ts : List Token) : Prop :=
  ∀ x, Q x → f x = y ∧ Valued ts

/-- A tree as it is read from tokens. -/
def Reads (ts : List Token) (x e : Expr) : Prop := e.bare = x ∧ Valued ts

theorem tells_reads (ts : List Token) (x : Expr) : Tells (Reads ts x) Expr.bare x ts := fun _ => id

theorem tells_nil {α β : Type} (f : α → β) : Tells (Each []) (List.map f) [] [] := by
  rintro xs ⟨⟩
  exact ⟨rfl, valued_nil⟩

theorem Tells.cons {α β : Type} {Q : α → Prop} {Qs : List (α → Prop)} {f : α → β} {y : β}
    {ys : List β} {c : Token} {ts us : List Token} (hc : c.kind ≠ .number) (h : Tells Q f y ts)
    (hs : Tells (Each Qs) (List.map f) ys us) :
    Tells (Each (Q :: Qs)) (List.map f) (y :: ys) (c :: ts ++ us) := by
  intro xs hxs
  obtain ⟨x, xs, hx, hrest, rfl⟩ := List.forall₂_cons_left_iff.mp hxs
  obtain ⟨hy, ht⟩ := h x hx
  obtain ⟨hys, hu⟩ := hs xs hrest
  rw [List.map_cons, hy, hys, List.cons_append, valued_cons hc, valued_append]
  exact ⟨rfl, ht, hu⟩

/-- The elements between two brackets. -/
theorem Tells.enclosed {α β : Type} {Q : α → Prop} {Qs : List (α → Prop)} {f : α → β} {y : β}
    {ys : List β} {o c : Token} {ts us : List Token} (h : Tells Q f y ts)
    (hs : Tells (Each Qs) (List.map f) ys us) (ho : o.kind ≠ .number) (hc : c.kind ≠ .number) :
    Tells (Each (Q :: Qs)) (List.map f) (y :: ys) (o :: (ts ++ us ++ [c])) := by
  intro xs hxs
  obtain ⟨hy, hv⟩ := h.cons ho hs xs hxs
  refine ⟨hy, ?_⟩
  rw [← List.cons_append, valued_append, valued_cons hc]
  exact ⟨hv, valued_nil⟩

theorem Reads.shape {ts : List Token} {x e : Expr} (h : Reads ts x e) : e.shape = x.shape := by
  rw [← h.1, Expr.shape_bare]

theorem pattern_bare {e : Expr} {p : Pattern} (h : pattern? e = some p) :
    pattern? e.bare = some p.bare := by
  rw [Expr.bare, pattern?_retoken Token.kind_bare, h]
  rfl

/-- The tokens of a symbol are read as what it stands for, and so are they elsewhere. -/
def Phrase.Yields : Phrase → List Token → Prop
  | .operand s, ts => ∃ x, x.shape = s ∧
      ∀ g, Keeps g → OperandYields Hindered (ts.map g) (Reads ts x)
  | .operators ss, us => ∃ os : List (Token × List Token × Expr),
      shapes (os.map fun (o, _, x) => (o.bare, x)) = ss ∧
      ((∀ s ∈ os, Valued s.2.1) → Valued us) ∧
      ∀ g, Keeps g → Operators Hindered (os.map fun (o, ts, x) => (g o, Reads ts x)) (us.map g)
  | .expr s, ts => ∃ x, x.shape = s ∧
      ∀ g, Keeps g → ExprYields Hindered (ts.map g) (Reads ts x)
  | .item s, ts => ∃ x, x.shape = s ∧
      ∀ g, Keeps g → ItemYields Hindered (ts.map g) (Reads ts x)
  | .items, us => ∃ Qs ys, Tells (Each Qs) (List.map Expr.bare) ys us ∧
      ∀ g, Keeps g → MoreItems Hindered Qs (us.map g)
  | .guard, ts => ∃ P Q y ts₁ us, ts = ts₁ ++ us ∧ Tells Q Guard.bare y ts ∧
      ∀ g, Keeps g → ItemYields Hindered (ts₁.map g) P ∧ GuardRest Hindered P (us.map g) Q
  | .guards, us => ∃ Qs ys, Tells (Each Qs) (List.map Guard.bare) ys us ∧
      ∀ g, Keeps g → MoreGuards Hindered Qs (us.map g)
  | .case, ts => ∃ P Q y ts₁ us, ts = ts₁ ++ us ∧ Tells Q Case.bare y ts ∧
      ∀ g, Keeps g → ItemYields Hindered (ts₁.map g) P ∧ CaseRest Hindered P (us.map g) Q
  | .cases, us => ∃ Qs ys, Tells (Each Qs) (List.map Case.bare) ys us ∧
      ∀ g, Keeps g → MoreCases Hindered Qs (us.map g)
  | .form, ts => ∃ Q, FormYields Hindered ts Q
  | .forms, us => ∃ Qs, MoreForms Hindered Qs us
  | .program, _ => True

theorem keeps_id : Keeps id := fun _ => ⟨rfl, rfl⟩

theorem Keeps.kind {g : Token → Token} (hg : Keeps g) {t : Token} {k : TokenKind} (h : t.kind = k) :
    (g t).kind = k :=
  (hg t).1.trans h

theorem Keeps.bare {g : Token → Token} (hg : Keeps g) (t : Token) : (g t).bare = t.bare :=
  Token.bare_eq_iff.mpr (hg t)

theorem Keeps.newlines {g : Token → Token} (hg : Keeps g) {ns : List Token} (h : Newlines ns) :
    Newlines (ns.map g) := by
  intro t ht
  obtain ⟨n, hn, rfl⟩ := List.mem_map.mp ht
  exact hg.kind (h n hn)

theorem Keeps.number {g : Token → Token} (hg : Keeps g) {t : Token} {l : Literal}
    (h : number (g t) = .ok l) : number t = .ok l := by
  have ht := number_bare (g t)
  rw [hg.bare, number_bare t, h] at ht
  cases hn : Reading.number t with
  | ok m => simpa [hn, Except.mapError] using ht
  | error f => simp [hn, Except.mapError] at ht

theorem Phrase.Yields.expr {s : Shape} {ts : List Token} (h : (Phrase.expr s).Yields ts) :
    ∃ x, x.shape = s ∧ ExprYields Hindered ts (Reads ts x) := by
  obtain ⟨x, hx, h⟩ := h
  exact ⟨x, hx, by simpa using h id keeps_id⟩

/-- A token that is an operand by itself and no number. -/
theorem yields_single {t : Token} {x : Expr} {s : Shape} (hk : t.kind ≠ .number) (hs : x.shape = s)
    (h : ∀ g, Keeps g → OperandYields Hindered [g t] fun e => e.bare = x) :
    (Phrase.operand s).Yields [t] :=
  ⟨x, hs, fun g hg => (h g hg).imp fun _ he => ⟨he, (valued_cons hk).mpr valued_nil⟩⟩

theorem yields_number {t : Token} (hk : t.kind = .number) (hf : t.Fits)
    (ht : Numeral t.lexeme.toList) : (Phrase.operand .number).Yields [t] := by
  obtain ⟨l, hs, hl⟩ : ∃ l, (Expr.of (.literal l)).shape = .number ∧
      ∀ m, number t = .ok m → m = l := by
    cases hn : number t with
    | ok l => exact ⟨l, (fits_of_number hn).2, fun m hm => (Except.ok.inj hm).symm⟩
    | error f => exact ⟨.int 0, rfl, fun m hm => by cases hm⟩
  refine ⟨.of (.literal l), hs, fun g hg => ?_⟩
  have hf' : (g t).Fits := by
    unfold Token.Fits
    rw [(hg t).2]
    exact hf
  have ht' : Numeral (g t).lexeme.toList := by rwa [(hg t).2]
  refine (number_yields (hg.kind hk) fun _ => not_hindered hf' ht').imp ?_
  rintro _ ⟨m, hm, rfl⟩
  have hv : Valued [t] := by
    intro u hu _
    rw [List.mem_singleton.mp hu]
    exact ⟨m, hg.number hm⟩
  exact ⟨by rw [hl m (hg.number hm), Expr.bare_of_literal], hv⟩

theorem yields_text {t : Token} (hk : t.kind = .string) : (Phrase.operand .literal).Yields [t] := by
  refine yields_single (x := .of (.literal (.text t.lexeme))) (by rw [hk]; decide) rfl fun g hg => ?_
  refine (text_yields (hg.kind hk)).imp fun e he => ?_
  rw [he, (hg t).2, Expr.bare_of_literal]

theorem yields_boolean {t : Token} (hk : t.kind = .trueWord ∨ t.kind = .falseWord) :
    (Phrase.operand .literal).Yields [t] := by
  refine yields_single (x := .of (.literal (.bool (t.kind == .trueWord)))) ?_ rfl fun g hg => ?_
  · rcases hk with hk | hk <;> rw [hk] <;> decide
  · refine (boolean_yields (hk.imp hg.kind hg.kind)).imp fun e he => ?_
    rw [he, (hg t).1, Expr.bare_of_literal]

theorem yields_name {t : Token} (hk : t.kind = .identifier) : (Phrase.operand .name).Yields [t] := by
  refine yields_single (x := .of (.name t.bare)) (by rw [hk]; decide) rfl fun g hg => ?_
  refine (name_yields (hg.kind hk)).imp fun e he => ?_
  rw [he, Expr.bare_of_name, hg.bare]

section
variable {o c : Token} {s s' : Shape} {ts us : List Token}

theorem yields_unary (ho : o.kind = .minus ∨ o.kind = .notWord) (h : (Phrase.operand s).Yields ts) :
    (Phrase.operand (.unary o.kind s)).Yields (o :: ts) := by
  obtain ⟨x, rfl, h⟩ := h
  refine ⟨.of (.unary o.bare x), by rw [Expr.shape_unary, Token.kind_bare], fun g hg => ?_⟩
  refine (unary_yields (.inl rfl) (ho.imp hg.kind hg.kind) (h g hg)).imp ?_
  rintro _ ⟨e, ⟨he, hv⟩, rfl⟩
  have hk : o.kind ≠ .number := by rcases ho with ho | ho <;> rw [ho] <;> decide
  exact ⟨by rw [Expr.bare_of_unary, he, hg.bare], (valued_cons hk).mpr hv⟩

theorem yields_group (ho : o.kind = .leftParen) (h : (Phrase.item s).Yields ts)
    (hc : c.kind = .rightParen) : (Phrase.operand s).Yields (o :: (ts ++ [c])) := by
  obtain ⟨x, rfl, h⟩ := h
  refine ⟨x, rfl, fun g hg => ?_⟩
  rw [List.map_cons, List.map_append]
  refine (group_yields (hg.kind ho) (h g hg) (hg.kind hc)).imp fun e ⟨he, hv⟩ => ⟨he, ?_⟩
  simpa [valued_cons, ho, hc] using hv

theorem yields_tuple (ho : o.kind = .leftParen) (h : (Phrase.item s).Yields ts)
    (hm : Phrase.items.Yields us) (hne : us ≠ []) (hc : c.kind = .rightParen) :
    (Phrase.operand .other).Yields (o :: (ts ++ us ++ [c])) := by
  obtain ⟨x, rfl, h⟩ := h
  obtain ⟨Qs, ys, hQs, hm⟩ := hm
  have hne' : Qs ≠ [] := by
    rintro rfl
    have hnil := hm id keeps_id
    rw [List.map_id] at hnil
    cases hnil
    exact hne rfl
  refine ⟨.of (.tuple (x :: ys)), rfl, fun g hg => ?_⟩
  simp only [List.map_cons, List.map_append]
  refine (tuple_yields (hg.kind ho) (h g hg) (hm g hg) hne' (hg.kind hc)).imp ?_
  rintro _ ⟨es, hes, rfl⟩
  obtain ⟨hy, hv⟩ := (tells_reads ts x).enclosed hQs (by rw [ho]; decide) (by rw [hc]; decide) es hes
  exact ⟨by rw [Expr.bare_of_tuple, hy], hv⟩

theorem yields_emptyList {ns : List Token} (ho : o.kind = .leftSquare) (hns : Newlines ns)
    (hc : c.kind = .rightSquare) : (Phrase.operand .other).Yields (o :: (ns ++ [c])) := by
  refine ⟨.of (.list []), rfl, fun g hg => ?_⟩
  simp only [List.map_cons, List.map_append]
  refine (emptyList_yields (hg.kind ho) (hg.newlines hns) (hg.kind hc)).imp fun e he => ?_
  refine ⟨by rw [he]; rfl, ?_⟩
  simpa [valued_cons, ho, hc] using valued_newlines hns

theorem yields_list (ho : o.kind = .leftSquare) (h : (Phrase.item s).Yields ts)
    (hm : Phrase.items.Yields us) (hc : c.kind = .rightSquare) :
    (Phrase.operand .other).Yields (o :: (ts ++ us ++ [c])) := by
  obtain ⟨x, rfl, h⟩ := h
  obtain ⟨Qs, ys, hQs, hm⟩ := hm
  refine ⟨.of (.list (x :: ys)), rfl, fun g hg => ?_⟩
  simp only [List.map_cons, List.map_append]
  refine (list_yields (hg.kind ho) (h g hg) (hm g hg) (hg.kind hc)).imp ?_
  rintro _ ⟨es, hes, rfl⟩
  obtain ⟨hy, hv⟩ := (tells_reads ts x).enclosed hQs (by rw [ho]; decide) (by rw [hc]; decide) es hes
  exact ⟨by rw [Expr.bare_of_list, hy], hv⟩

theorem yields_function (ho : o.kind = .leftBrace) (h : Phrase.case.Yields ts)
    (hm : Phrase.cases.Yields us) (hc : c.kind = .rightBrace) :
    (Phrase.operand .other).Yields (o :: (ts ++ us ++ [c])) := by
  obtain ⟨P, Q, y, ts₁, us₁, rfl, hQ, h⟩ := h
  obtain ⟨Qs, ys, hQs, hm⟩ := hm
  refine ⟨.of (.function (y :: ys)), rfl, fun g hg => ?_⟩
  simp only [List.map_cons, List.map_append]
  refine (function_yields (hg.kind ho) (h g hg).1 (h g hg).2 (hm g hg) (hg.kind hc)).imp ?_
  rintro _ ⟨cs, hcs, rfl⟩
  obtain ⟨hy, hv⟩ := hQ.enclosed hQs (by rw [ho]; decide) (by rw [hc]; decide) cs hcs
  exact ⟨by rw [Expr.bare_of_function, hy], hv⟩

theorem yields_operators {ss : List (TokenKind × Shape)}
    (hi : (Binding.of o.kind).associativity.isSome) (h : (Phrase.operand s).Yields ts)
    (hs : (Phrase.operators ss).Yields us) :
    (Phrase.operators ((o.kind, s) :: ss)).Yields (o :: ts ++ us) := by
  obtain ⟨x, rfl, h⟩ := h
  obtain ⟨os, rfl, hv, hs⟩ := hs
  have hk : o.kind ≠ .number := by
    intro hk
    rw [hk] at hi
    exact absurd hi (by decide)
  refine ⟨(o, ts, x) :: os, rfl, fun hall => ?_, fun g hg => ?_⟩
  · rw [List.cons_append, valued_cons hk, valued_append]
    exact ⟨hall _ List.mem_cons_self, hv fun s hs => hall s (List.mem_cons_of_mem _ hs)⟩
  · have hi' : (Binding.of (g o).kind).associativity.isSome := by rwa [(hg o).1]
    simpa using Operators.cons hi' (h g hg) (hs g hg)

theorem yields_expr {s : Shape} {ss : List (TokenKind × Shape)} {ts us : List Token}
    (h : (Phrase.operand s).Yields ts) (hs : (Phrase.operators ss).Yields us) :
    (Phrase.expr (s.chain ss)).Yields (ts ++ us) := by
  obtain ⟨x, rfl, h⟩ := h
  obtain ⟨os, rfl, hv, hs⟩ := hs
  refine ⟨chainTree x (os.map fun (o, _, x) => (o.bare, x)), Expr.shape_chainTree .., ?_⟩
  intro g hg
  rw [List.map_append]
  refine (ExprYields.of_chain (.inl rfl) (h g hg) (hs g hg)).imp fun e he => ⟨?_, ?_⟩
  · exact he.bare_eq (fun e => And.left) fun a _ => ⟨hg.bare a.1, fun e => And.left⟩
  · obtain ⟨⟨_, hx⟩, hos⟩ := he.exists
    refine valued_append.mpr ⟨hx.2, hv fun s hs => ?_⟩
    obtain ⟨_, hx⟩ := hos _ (List.mem_map_of_mem hs)
    exact hx.2

theorem yields_item {ns ms : List Token} (hns : Newlines ns) (h : (Phrase.expr s).Yields ts)
    (hms : Newlines ms) : (Phrase.item s).Yields (ns ++ ts ++ ms) := by
  obtain ⟨x, rfl, h⟩ := h
  refine ⟨x, rfl, fun g hg => ?_⟩
  have hreads : ∀ e, Reads ts x e → Reads (ns ++ ts ++ ms) x e := by
    intro e ⟨he, hv⟩
    simp only [Reads, valued_append]
    exact ⟨he, ⟨valued_newlines hns, hv⟩, valued_newlines hms⟩
  simp only [List.map_append]
  exact ((h g hg).imp hreads).item (hg.newlines hns) (hg.newlines hms)

theorem yields_items (hc : c.kind = .comma) (h : (Phrase.item s).Yields ts)
    (hs : Phrase.items.Yields us) : Phrase.items.Yields (c :: ts ++ us) := by
  obtain ⟨x, rfl, h⟩ := h
  obtain ⟨Qs, ys, hQs, hm⟩ := hs
  refine ⟨_, _, (tells_reads ts x).cons (c := c) (by rw [hc]; decide) hQs, fun g hg => ?_⟩
  simpa using MoreItems.cons (hg.kind hc) (h g hg) (hm g hg)

theorem yields_plain (h : (Phrase.item s).Yields ts) : Phrase.guard.Yields ts := by
  obtain ⟨x, rfl, h⟩ := h
  refine ⟨Reads ts x, fun c => ∃ e, Reads ts x e ∧ c = .mk .always e, .mk .always x, ts, [],
    by simp, ?_, fun g hg => ⟨h g hg, .plain⟩⟩
  rintro _ ⟨e, ⟨he, hv⟩, rfl⟩
  exact ⟨by rw [Guard.bare_mk, Expr.bare_always, he], hv⟩

theorem yields_conditional {q : Token} (h : (Phrase.item s).Yields ts) (hq : q.kind = .question)
    (h' : (Phrase.item s').Yields us) : Phrase.guard.Yields (ts ++ q :: us) := by
  obtain ⟨x, rfl, h⟩ := h
  obtain ⟨x', rfl, h'⟩ := h'
  refine ⟨Reads ts x, fun c => ∃ e v, Reads ts x e ∧ Reads us x' v ∧ c = .mk e v, .mk x x', ts,
    q :: us, rfl, ?_, fun g hg => ⟨h g hg, .cond (hg.kind hq) (h' g hg)⟩⟩
  rintro _ ⟨e, v, ⟨he, hv⟩, ⟨he', hv'⟩, rfl⟩
  refine ⟨by rw [Guard.bare_mk, he, he'], valued_append.mpr ⟨hv, ?_⟩⟩
  exact (valued_cons (by rw [hq]; decide)).mpr hv'

theorem yields_guards (hc : c.kind = .comma) (h : Phrase.guard.Yields ts)
    (hs : Phrase.guards.Yields us) : Phrase.guards.Yields (c :: ts ++ us) := by
  obtain ⟨P, Q, y, ts₁, us₁, rfl, hQ, h⟩ := h
  obtain ⟨Qs, ys, hQs, hm⟩ := hs
  refine ⟨_, _, hQ.cons (c := c) (by rw [hc]; decide) hQs, fun g hg => ?_⟩
  simpa using MoreGuards.cons (hg.kind hc) (h g hg).1 (h g hg).2 (hm g hg)

theorem yields_case {b : Token} {s : Shape} {ts us vs : List Token}
    (h : (Phrase.item s).Yields ts) (hp : s.IsPattern) (hb : b.kind = .pipe)
    (hg : Phrase.guard.Yields us) (hgs : Phrase.guards.Yields vs) :
    Phrase.case.Yields (ts ++ b :: us ++ vs) := by
  obtain ⟨x, rfl, h⟩ := h
  obtain ⟨P, Q, y, us₁, us₂, rfl, hQ, hg⟩ := hg
  obtain ⟨Qs, ys, hQs, hgs⟩ := hgs
  obtain ⟨p, hp⟩ := Option.isSome_iff_exists.mp ((isSome_pattern? x).mpr hp)
  have hsome : ∀ e, Reads ts x e → (pattern? e).isSome := by
    intro e he
    rw [isSome_pattern?, he.shape, ← isSome_pattern?, hp]
    rfl
  refine ⟨Reads ts x, fun c => ∃ e q gs, Reads ts x e ∧ pattern? e = some q ∧ Each (Q :: Qs) gs ∧
    c = .mk q gs, .mk p (y :: ys), ts, b :: us₁ ++ us₂ ++ vs, by simp, ?_, fun g hk => ⟨h g hk, ?_⟩⟩
  · rintro _ ⟨e, q, gs, he, hq, hgs, rfl⟩
    obtain ⟨hy, hv⟩ := hQ.cons (c := b) (by rw [hb]; decide) hQs gs hgs
    have hpq := pattern_bare hq
    rw [he.1, hp] at hpq
    refine ⟨by rw [Case.bare_mk, hy, Option.some.inj hpq], ?_⟩
    rw [List.append_assoc]
    exact valued_append.mpr ⟨he.2, hv⟩
  · have hc := CaseRest.mk (hk.kind hb) hsome (hg g hk).1 (hg g hk).2 (hgs g hk)
    simpa using hc

theorem yields_cases (hc : c.kind = .comma) (h : Phrase.case.Yields ts)
    (hs : Phrase.cases.Yields us) : Phrase.cases.Yields (c :: ts ++ us) := by
  obtain ⟨P, Q, y, ts₁, us₁, rfl, hQ, h⟩ := h
  obtain ⟨Qs, ys, hQs, hm⟩ := hs
  refine ⟨_, _, hQ.cons (c := c) (by rw [hc]; decide) hQs, fun g hg => ?_⟩
  simpa using MoreCases.cons (hg.kind hc) (h g hg).1 (h g hg).2 (hm g hg)

theorem yields_evaluated (h : (Phrase.expr s).Yields ts) : Phrase.form.Yields ts := by
  obtain ⟨x, -, hx⟩ := h.expr
  exact ⟨_, evaluated_yields hx⟩

theorem yields_constant {q : Token} (h : (Phrase.expr s).Yields ts) (ht : s.IsTarget)
    (hq : q.kind = .equal) (h' : (Phrase.expr s').Yields us) :
    Phrase.form.Yields (ts ++ q :: us) := by
  obtain ⟨x, rfl, hx⟩ := h.expr
  obtain ⟨x', -, hx'⟩ := h'.expr
  refine ⟨_, constant_yields hx (fun e he => ?_) hq hx'⟩
  rw [isSome_target?, he.shape]
  exact ht

end

/-- By induction on the derivation: a symbol whose parts are read is read. -/
theorem Derives.yields {p : Phrase} {ts : List Token} (h : Derives p ts) (hn : Numerals ts) :
    p.Yields ts := by
  induction h with
  | number hk hf => exact yields_number hk hf ((numerals_cons.mp hn).1 hk)
  | text hk => exact yields_text hk
  | boolean hk => exact yields_boolean hk
  | name hk => exact yields_name hk
  | unary ho _ ih => exact yields_unary ho (ih (numerals_cons.mp hn).2)
  | group ho _ hc ih =>
    simp only [numerals_cons, numerals_append] at hn
    exact yields_group ho (ih hn.2.1) hc
  | tuple ho _ _ hne hc ih ihs =>
    simp only [numerals_cons, numerals_append] at hn
    exact yields_tuple ho (ih hn.2.1.1) (ihs hn.2.1.2) hne hc
  | emptyList ho hns hc => exact yields_emptyList ho hns hc
  | list ho _ _ hc ih ihs =>
    simp only [numerals_cons, numerals_append] at hn
    exact yields_list ho (ih hn.2.1.1) (ihs hn.2.1.2) hc
  | function ho _ _ hc ih ihs =>
    simp only [numerals_cons, numerals_append] at hn
    exact yields_function ho (ih hn.2.1.1) (ihs hn.2.1.2) hc
  | noOperators => exact ⟨[], rfl, fun _ => valued_nil, fun _ _ => .nil⟩
  | operators hi _ _ ih ihs =>
    simp only [numerals_cons, numerals_append, List.cons_append] at hn
    exact yields_operators hi (ih hn.2.1) (ihs hn.2.2)
  | expr _ _ ih ihs =>
    obtain ⟨ho, hs⟩ := numerals_append.mp hn
    exact yields_expr (ih ho) (ihs hs)
  | item hns _ hms ih =>
    simp only [numerals_append] at hn
    exact yields_item hns (ih hn.1.2) hms
  | noItems => exact ⟨[], [], tells_nil _, fun _ _ => .nil⟩
  | items hc _ _ ih ihs =>
    simp only [numerals_cons, numerals_append, List.cons_append] at hn
    exact yields_items hc (ih hn.2.1) (ihs hn.2.2)
  | plain _ ih => exact yields_plain (ih hn)
  | conditional _ hq _ ih ih' =>
    simp only [numerals_cons, numerals_append] at hn
    exact yields_conditional (ih hn.1) hq (ih' hn.2.2)
  | noGuards => exact ⟨[], [], tells_nil _, fun _ _ => .nil⟩
  | guards hc _ _ ih ihs =>
    simp only [numerals_cons, numerals_append, List.cons_append] at hn
    exact yields_guards hc (ih hn.2.1) (ihs hn.2.2)
  | case _ hp hb _ _ ih ihg ihs =>
    simp only [numerals_cons, numerals_append] at hn
    exact yields_case (ih hn.1.1) hp hb (ihg hn.1.2.2) (ihs hn.2)
  | noCases => exact ⟨[], [], tells_nil _, fun _ _ => .nil⟩
  | cases hc _ _ ih ihs =>
    simp only [numerals_cons, numerals_append, List.cons_append] at hn
    exact yields_cases hc (ih hn.2.1) (ihs hn.2.2)
  | evaluated _ ih => exact yields_evaluated (ih hn)
  | constant _ ht hq _ ih ih' =>
    simp only [numerals_cons, numerals_append] at hn
    exact yields_constant (ih hn.1) ht hq (ih' hn.2.2)
  | noForms => exact ⟨[], .nil⟩
  | forms hns hne _ _ ih ihs =>
    simp only [numerals_append] at hn
    obtain ⟨Q, hQ⟩ := ih hn.1.2
    obtain ⟨Qs, hQs⟩ := ihs hn.2
    exact ⟨_, .cons hns hne hQ hQs⟩
  | empty _ _ => trivial
  | program _ _ _ _ _ => trivial

end ArrowLang
