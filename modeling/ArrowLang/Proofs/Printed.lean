import ArrowLang.Proofs.Bracketed
import ArrowLang.Proofs.Rendered

/-!
# Canonical texts of trees

Every well-formed expression has a canonical text, and this text is read back as the expression, up
to positions and with every application written in its call form. Nesting too deep is the only
excuse.
-/
namespace ArrowLang

open Reading

def Expr.called : Expr → Expr := Expr.retoken Token.bare fun _ => mark .leftArrow
def Guard.called : Guard → Guard := Guard.retoken Token.bare fun _ => mark .leftArrow
def Case.called : Case → Case := Case.retoken Token.bare fun _ => mark .leftArrow

@[simp] theorem Guard.called_mk (c v : Expr) : (Guard.mk c v).called = .mk c.called v.called := rfl

@[simp] theorem Case.called_mk (p : Pattern) (gs : List Guard) :
    (Case.mk p gs).called = .mk p.bare (gs.map Guard.called) := by
  simp only [Case.called, Case.retoken, retokenGuards_eq_map]
  rfl

@[simp] theorem Expr.called_tuple (es : List Expr) :
    (Expr.of (.tuple es)).called = .of (.tuple (es.map Expr.called)) := by
  simp only [Expr.called, Expr.retoken_of, Node.retoken, retokenExprs_eq_map]

@[simp] theorem Expr.called_list (es : List Expr) :
    (Expr.of (.list es)).called = .of (.list (es.map Expr.called)) := by
  simp only [Expr.called, Expr.retoken_of, Node.retoken, retokenExprs_eq_map]

@[simp] theorem Expr.called_function (cs : List Case) :
    (Expr.of (.function cs)).called = .of (.function (cs.map Case.called)) := by
  simp only [Expr.called, Expr.retoken_of, Node.retoken, retokenCases_eq_map]
  rfl

/-- The only excuse: nesting too deep. -/
def Deep (f : Failure) : Prop := f = .tooDeep none

theorem deep_tooDeep : Deep (.tooDeep none) := rfl

def ReadsExpr (us : List Token) (e : Expr) : Prop := OperandYields Deep us fun x => x.bare = e

/-- Tokens that are read as an expression where no operator stands beside them. -/
def ReadsWhole (us : List Token) (e : Expr) : Prop := ExprYields Deep us fun x => x.bare = e

def ReadsPattern (us : List Token) (p : Pattern) : Prop :=
  ∃ P, OperandYields Deep us P ∧ ∀ e, P e → ∃ q, pattern? e = some q ∧ q.bare = p

def ReadsGuard (us : List Token) (g : Guard) : Prop :=
  ∃ us₁ us₂ P Q, us = us₁ ++ us₂ ∧ ItemYields Deep us₁ P ∧ GuardRest Deep P us₂ Q ∧
    ∀ x, Q x → x.bare = g

def ReadsCase (us : List Token) (c : Case) : Prop :=
  ∃ us₁ us₂ P Q, us = us₁ ++ us₂ ∧ ItemYields Deep us₁ P ∧ CaseRest Deep P us₂ Q ∧
    ∀ x, Q x → x.bare = c

theorem bracketed_singleton {Q Q' : Expr → Prop} {o : Token} {e : Expr}
    (h : Bracketed Q [(o, Q')] e) : ∃ l r, Q l ∧ Q' r ∧ e = join o l r := by
  generalize hs : [(o, Q')] = ss at h
  cases h with
  | single h => cases hs
  | @join _ P ss₁ ss₂ o' l r _ hl hr =>
    cases ss₁ with
    | nil =>
      obtain ⟨ho, rfl⟩ := List.cons.inj hs
      obtain ⟨rfl, rfl⟩ := Prod.mk.inj ho
      exact ⟨l, r, bracketed_nil hl, bracketed_nil hr, rfl⟩
    | cons s ss₁ => simp at hs

theorem OperandYields.expr {us : List Token} {Q : Expr → Prop} (h : OperandYields Deep us Q) :
    ExprYields Deep us Q :=
  .of_operand deep_tooDeep h

theorem ExprYields.alone {us : List Token} {Q : Expr → Prop} (h : ExprYields Deep us Q) :
    ItemYields Deep us Q := by
  have hn : Newlines [] := by simp [Newlines]
  have hi := h.item hn hn
  rwa [List.append_nil, List.nil_append] at hi

theorem OperandYields.item {us : List Token} {Q : Expr → Prop} (h : OperandYields Deep us Q) :
    ItemYields Deep us Q :=
  h.expr.alone

/-- Two operands and the operator between them. -/
theorem reads_join {us vs : List Token} {q : Token} {l r : Expr} (hl : ReadsExpr us l)
    (hq : (Binding.of q.kind).associativity.isSome) (hr : ReadsExpr vs r) :
    ReadsWhole (us ++ q :: vs) (join q.bare l r) := by
  have hs : Operators Deep [(q, fun x => x.bare = r)] (q :: vs) := by
    simpa using Operators.cons hq hr .nil
  refine (ExprYields.of_chain deep_tooDeep hl hs).imp fun e he => ?_
  obtain ⟨x, y, hx, hy, rfl⟩ := bracketed_singleton he
  rw [join_bare, hx, hy]

/-- Values as described are known but for what `f` forgets. -/
def Determines {α β : Type} (Qs : List (α → Prop)) (f : α → β) (ys : List β) : Prop :=
  ∀ xs, Each Qs xs → xs.map f = ys

theorem determines_nil {α β : Type} (f : α → β) : Determines [] f [] := by
  rintro xs ⟨⟩
  rfl

theorem Determines.cons {α β : Type} {Q : α → Prop} {Qs : List (α → Prop)} {f : α → β} {y : β}
    {ys : List β} (h : ∀ x, Q x → f x = y) (hs : Determines Qs f ys) :
    Determines (Q :: Qs) f (y :: ys) := by
  intro xs hxs
  obtain ⟨x, xs, hx, hrest, rfl⟩ := List.forall₂_cons_left_iff.mp hxs
  rw [List.map_cons, h x hx, hs xs hrest]

theorem Further.items {us : List Token} {es : List Expr} (h : Further ReadsExpr us es) :
    ∃ Qs, MoreItems Deep Qs us ∧ Determines Qs Expr.bare es := by
  induction h with
  | nil => exact ⟨[], .nil, determines_nil _⟩
  | cons hq hx _ ih =>
    obtain ⟨Qs, hm, hd⟩ := ih
    exact ⟨_, .cons hq hx.item hm, hd.cons fun _ => id⟩

theorem Further.guards {us : List Token} {gs : List Guard} (h : Further ReadsGuard us gs) :
    ∃ Qs, MoreGuards Deep Qs us ∧ Determines Qs Guard.bare gs := by
  induction h with
  | nil => exact ⟨[], .nil, determines_nil _⟩
  | cons hq hx _ ih =>
    obtain ⟨Qs, hm, hd⟩ := ih
    obtain ⟨us₁, us₂, P, Q, rfl, hi, hg, hQ⟩ := hx
    refine ⟨Q :: Qs, ?_, hd.cons hQ⟩
    simpa using MoreGuards.cons hq hi hg hm

theorem Further.cases {us : List Token} {cs : List Case} (h : Further ReadsCase us cs) :
    ∃ Qs, MoreCases Deep Qs us ∧ Determines Qs Case.bare cs := by
  induction h with
  | nil => exact ⟨[], .nil, determines_nil _⟩
  | cons hq hx _ ih =>
    obtain ⟨Qs, hm, hd⟩ := ih
    obtain ⟨us₁, us₂, P, Q, rfl, hi, hc, hQ⟩ := hx
    refine ⟨Q :: Qs, ?_, hd.cons hQ⟩
    simpa using MoreCases.cons hq hi hc hm

section
variable {cs ds : List Char} {e l r : Expr}

theorem Renders.whole (h : Renders ReadsExpr cs e) : Renders ReadsWhole cs e :=
  h.imp fun _ => OperandYields.expr

theorem Renders.group (h : Renders ReadsWhole cs e) : Renders ReadsExpr ('(' :: (cs ++ [')'])) e :=
  h.enclosed encloses_parens fun _ _ _ hp hw hq =>
    group_yields (kind_of_bare_mark hp) hw.alone (kind_of_bare_mark hq)

/-- Two operands and an operator, as it stands between blanks. -/
theorem Renders.join {o : Token} (hi : (Binding.of o.kind).associativity.isSome) (hs : o.Spelled)
    (hl : Renders ReadsExpr cs l) (hr : Renders ReadsExpr ds r) :
    Renders ReadsWhole (cs ++ ' ' :: (o.lexeme.toList ++ [' ']) ++ ds) (join o.bare l r) := by
  refine hl.link (link_operator hi hs) hr fun us q vs hus hq hvs => ?_
  have hj := reads_join hus (kind_of_bare_mark hq ▸ hi) hvs
  rwa [hq, ← bare_of_spelled hs] at hj

theorem reads_unary {q : Token} {us : List Token} {k : TokenKind} (hq : q.bare = mark k)
    (hu : k.IsUnary) (h : ReadsExpr us e) : ReadsExpr (q :: us) (.of (.unary (mark k) e)) := by
  refine (unary_yields deep_tooDeep (kind_of_bare_mark hq ▸ hu) h).imp ?_
  rintro _ ⟨x, hx, rfl⟩
  rw [Expr.bare_of_unary, hq, hx]

theorem Renders.minus (h : Renders ReadsExpr cs e) :
    Renders ReadsExpr ('-' :: cs) (.of (.unary (mark .minus) e)) :=
  h.before ['-'] (fun _ => word_minus) ⟨'-', [], rfl, by decide⟩ (by decide) (by decide)
    fun _ _ hq => reads_unary hq (.inl rfl)

theorem Renders.not (h : Renders ReadsExpr cs e) :
    Renders ReadsExpr (['n', 'o', 't', ' '] ++ cs) (.of (.unary (mark .notWord) e)) :=
  h.before _ (fun _ _ => piece_not.word_append) ⟨'n', _, rfl, by decide⟩ (by decide) (by decide)
    fun _ _ hq => reads_unary hq (.inr rfl)

theorem Renders.tuple {es : List Expr} (hlen : 2 ≤ es.length) (h : Renders (Row ReadsExpr) cs es) :
    Renders ReadsExpr ('(' :: (cs ++ [')'])) (.of (.tuple es)) := by
  refine h.enclosed encloses_parens ?_
  rintro p _ q hp @⟨us, vs, x, xs, hx, hxs⟩ hq
  obtain ⟨Qs, hm, hd⟩ := hxs.items
  have hne : Qs ≠ [] := by
    rintro rfl
    obtain rfl : [] = xs := hd [] .nil
    simp at hlen
  refine (tuple_yields (kind_of_bare_mark hp) hx.item hm hne (kind_of_bare_mark hq)).imp ?_
  rintro _ ⟨ys, hys, rfl⟩
  rw [Expr.bare_of_tuple, hd.cons (fun _ => id) ys hys]

theorem Renders.list {es : List Expr} (h : Renders (Row ReadsExpr) cs es) :
    Renders ReadsExpr ('[' :: (cs ++ [']'])) (.of (.list es)) := by
  refine h.enclosed encloses_squares ?_
  rintro p _ q hp @⟨us, vs, x, xs, hx, hxs⟩ hq
  obtain ⟨Qs, hm, hd⟩ := hxs.items
  refine (list_yields (kind_of_bare_mark hp) hx.item hm (kind_of_bare_mark hq)).imp ?_
  rintro _ ⟨ys, hys, rfl⟩
  rw [Expr.bare_of_list, hd.cons (fun _ => id) ys hys]

theorem renders_emptyList : Renders ReadsExpr ['[', ']'] (.of (.list [])) := by
  refine ⟨[mark .leftSquare, mark .rightSquare], ⟨?_, ⟨'[', _, rfl, by decide⟩, by decide, ?_⟩, ?_⟩
  · exact (piece_leftSquare.append piece_rightSquare).word
  · simp
  · intro us hus
    obtain ⟨p, us, rfl, hp, h⟩ := List.map_eq_cons_iff.mp hus
    obtain ⟨q, rfl, hq⟩ := List.map_eq_singleton_iff.mp h
    have hn : Newlines [] := by simp [Newlines]
    refine (emptyList_yields (kind_of_bare_mark hp) hn (kind_of_bare_mark hq)).imp ?_
    rintro _ rfl
    rfl

theorem Renders.function {fs : List Case} (h : Renders (Row ReadsCase) cs fs) :
    Renders ReadsExpr ('\x7b' :: (cs ++ ['\x7d'])) (.of (.function fs)) := by
  refine h.enclosed encloses_braces ?_
  rintro p _ q hp @⟨us, vs, x, xs, hx, hxs⟩ hq
  obtain ⟨us₁, us₂, P, Q, rfl, hi, hc, hQ⟩ := hx
  obtain ⟨Qs, hm, hd⟩ := hxs.cases
  refine (function_yields (kind_of_bare_mark hp) hi hc hm (kind_of_bare_mark hq)).imp ?_
  rintro _ ⟨ys, hys, rfl⟩
  rw [Expr.bare_of_function, hd.cons hQ ys hys]

theorem renders_numeral {l : Literal} (h : Numeral cs) (hs : ¬ Overlong cs)
    (hl : ∀ t : Token, t.lexeme.toList = cs → number t = .ok l) :
    Renders ReadsExpr cs (.of (.literal l)) := by
  have hp := h.plain
  have hne : ∃ c r, cs = c :: r ∧ c.isDigit := by
    cases h with
    | whole hd =>
      obtain ⟨c, r, rfl⟩ := List.exists_cons_of_ne_nil hd.1
      exact ⟨c, r, rfl, hd.2 c List.mem_cons_self⟩
    | pointed hd hf =>
      obtain ⟨c, r, rfl⟩ := List.exists_cons_of_ne_nil hd.1
      exact ⟨c, _, rfl, hd.2 c List.mem_cons_self⟩
  obtain ⟨c, r, hc, hdigit⟩ := hne
  have ho : Opens cs := by
    refine ⟨c, r, hc, ?_, ?_⟩ <;> rintro rfl <;> cases hdigit
  refine renders_word (word_numeral h) ho hp.1 (fun _ => by simpa [numeralToken] using hs) ?_
  intro u hu
  have hk : u.kind = .number := congrArg Token.kind hu
  have hlex : u.lexeme.toList = cs := by
    rw [show u.lexeme = String.ofList cs from congrArg Token.lexeme hu, String.toList_ofList]
  have hn := hl u hlex
  refine (number_yields hk fun f hf => ?_).imp ?_
  · rw [hn] at hf
    cases hf
  · rintro _ ⟨l', hl', rfl⟩
    obtain rfl : l = l' := Except.ok.inj (hn.symm.trans hl')
    rfl

/-- The digits of a number of 32 bits. -/
theorem renders_digits {n : Nat} (h : n ≤ 2147483647) :
    Renders ReadsExpr (Decimal.natDigits n) (.of (.literal (.int n))) := by
  have hd := Decimal.digits_natDigits n
  have hlen : (Decimal.natDigits n).length ≤ 10 :=
    (Nat.length_toDigits_le_iff (by decide) (by decide)).mpr (by omega)
  refine renders_numeral (.whole hd) (fun hs => ?_) fun t ht => ?_
  · have hmany := hs.many
    simp only [maxDigits] at hmany
    omega
  · have hv := Decimal.digitsValue_natDigits n
    have hdrop := length_dropZeros hd (by rw [hv]; exact h)
    have hsplit : splitPoint t.lexeme.toList = (Decimal.natDigits n, none) := by
      rw [ht]
      exact splitPoint_whole hd
    rw [number_whole hsplit, if_neg (by omega), if_neg (by simp only [maxDigits]; omega), hv,
      if_pos (by omega)]

theorem renders_pointed {whole fraction : List Char} {m : Nat} {e : Int}
    {hn : Decimal.IsNormalForm m e} (hw : Digits whole) (hf : Digits fraction)
    (hv : Decimal.ofParts false whole fraction 0 = .finite false m e hn) :
    Renders ReadsExpr (whole ++ '.' :: fraction) (.of (.literal (.float (.finite false m e hn)))) := by
  refine renders_numeral (.pointed hw hf) (fun hs => ?_) fun t ht => ?_
  · have hpoint := hs.digits.2 '.' (by simp)
    cases hpoint
  · rw [number_pointed (ht ▸ splitPoint_pointed hw fraction), hv]
    rfl

theorem renders_name {t : Token} (h : t.IsIdentifier) :
    Renders ReadsExpr t.lexeme.toList (.of (.name t.bare)) := by
  obtain ⟨hk, hname⟩ := h
  obtain ⟨⟨c, w, hc, hstart, -⟩, -⟩ := id hname
  have ho : Opens t.lexeme.toList := by
    refine ⟨c, w, hc, ?_, ?_⟩ <;> rintro rfl <;> cases hstart
  refine renders_word (word_identifier ⟨hk, hname⟩) ho hname.plain.1 (by simp [hk]) fun u hu => ?_
  have hku : u.kind = .identifier := (congrArg Token.kind hu).trans hk
  refine (name_yields hku).imp ?_
  rintro _ rfl
  rw [Expr.bare_of_name, hu]

theorem renders_text {s : String} (h : '\\' ∉ s.toList) :
    Renders ReadsExpr ('"' :: (s.toList.flatMap escapeChar ++ ['"'])) (.of (.literal (.text s))) := by
  refine renders_word (piece_text h).word ⟨'"', _, rfl, by decide⟩ ?_ (by simp) fun u hu => ?_
  · intro hm
    rcases List.mem_cons.mp hm with hm | hm
    · cases hm
    · rcases List.mem_append.mp hm with hm | hm
      · exact newline_not_mem_escaped _ hm
      · cases List.mem_singleton.mp hm
  · have hk : u.kind = .string := congrArg Token.kind hu
    refine (text_yields hk).imp ?_
    rintro _ rfl
    rw [show u.lexeme = s from congrArg Token.lexeme hu]
    rfl

theorem renders_boolean (b : Bool) :
    Renders ReadsExpr (if b then "true" else "false").toList (.of (.literal (.bool b))) := by
  cases b with
  | true =>
    refine renders_word word_true ⟨'t', _, rfl, by decide⟩ (by decide) (by simp) fun u hu => ?_
    have hk := kind_of_bare_mark hu
    refine (boolean_yields (.inl hk)).imp ?_
    rintro _ rfl
    rw [hk]
    rfl
  | false =>
    refine renders_word word_false ⟨'f', _, rfl, by decide⟩ (by decide) (by simp) fun u hu => ?_
    have hk := kind_of_bare_mark hu
    refine (boolean_yields (.inr hk)).imp ?_
    rintro _ rfl
    rw [hk]
    rfl

theorem Renders.guard (h : Renders ReadsExpr cs e) : Renders ReadsGuard cs (.mk .always e) := by
  refine h.imp fun us hus => ⟨us, [], _, _, by simp, hus.item, .plain, ?_⟩
  rintro _ ⟨x, hx, rfl⟩
  rw [Guard.bare_mk, Expr.bare_always, hx]

theorem Renders.condition (h : Renders ReadsExpr cs l) (h' : Renders ReadsExpr ds r) :
    Renders ReadsGuard (cs ++ [' ', '?', ' '] ++ ds) (.mk l r) := by
  refine h.link link_question h' fun us q vs hus hq hvs => ?_
  refine ⟨us, q :: vs, _, _, rfl, hus.item, .cond (kind_of_bare_mark hq) hvs.item, ?_⟩
  rintro _ ⟨c, v, hc, hv, rfl⟩
  rw [Guard.bare_mk, hc, hv]

theorem Renders.pattern {p : Pattern} (h : Renders ReadsExpr cs e) (hp : pattern? e = some p) :
    Renders ReadsPattern cs p := by
  refine h.imp fun us hus => ⟨_, hus, ?_⟩
  rintro x rfl
  have hx := pattern?_retoken (g := Token.bare) Token.kind_bare x
  rw [show x.retoken Token.bare Token.bare = x.bare from rfl, hp] at hx
  obtain ⟨q, hq, hqp⟩ := Option.map_eq_some_iff.mp hx.symm
  exact ⟨q, hq, hqp⟩

theorem Renders.case {p : Pattern} {gs : List Guard} (h : Renders ReadsPattern cs p)
    (h' : Renders (Row ReadsGuard) ds gs) :
    Renders ReadsCase (cs ++ [' ', '|', ' '] ++ ds) (.mk p gs) := by
  refine h.link link_pipe h' ?_
  rintro us q _ ⟨P, hus, hP⟩ hq @⟨vs, ws, x, xs, ⟨us₁, us₂, P', Q, rfl, hi, hg, hQ⟩, hxs⟩
  obtain ⟨Qs, hm, hd⟩ := hxs.guards
  have hsome : ∀ e, P e → (pattern? e).isSome := by
    intro e he
    obtain ⟨p, hp, -⟩ := hP e he
    rw [hp]
    rfl
  refine ⟨us, q :: us₁ ++ us₂ ++ ws, P, _, by simp, hus.item,
    .mk (kind_of_bare_mark hq) hsome hi hg hm, ?_⟩
  rintro _ ⟨e, p', gs, he, hp', hgs, rfl⟩
  obtain ⟨q', hq', rfl⟩ := hP e he
  obtain rfl : q' = p' := Option.some.inj (hq'.symm.trans hp')
  rw [Case.bare_mk, hd.cons hQ gs hgs]

end
end ArrowLang
