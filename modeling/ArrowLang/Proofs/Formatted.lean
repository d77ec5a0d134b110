import ArrowLang.Proofs.Printed

/-!
# Every well-formed tree is printed

By induction over well-formed trees: formatting gives a text, and the text is read back as the tree.
-/
namespace ArrowLang

open Reading

/-- The form gives the thing where calls can nest `n` deep, and nowhere else. -/
def Takes {α : Type} (n : Nat) (form : Stack → Except FormatError α) (x : α) : Prop :=
  ∀ stack, form stack = if stack.holds n then .ok x else .error .tooDeep

section
variable {α β : Type} {m n : Nat} {f : Stack → Except FormatError α}
  {g : α → Stack → Except FormatError β} {x : α} {y : β}

theorem takes_pure (x : α) : Takes 0 (fun _ => .ok x) x := by
  intro stack
  rw [if_pos (Stack.holds_zero stack)]

theorem Takes.nested (h : Takes n f x) (k : Nat) : Takes (n + k) (nested k f) x := by
  intro stack
  unfold ArrowLang.nested
  by_cases hk : stack.holds k = true
  · rw [if_pos hk, h, Stack.holds_add hk]
  · rw [if_neg hk, if_neg fun hn => hk (Stack.holds_of_le hn (Nat.le_add_left k n))]
    rfl

/-- Of two forms one after the other, the one that nests deeper counts. -/
theorem Takes.bind (hf : Takes m f x) (hg : Takes n (g x) y) :
    Takes (max m n) (fun stack => f stack >>= fun x => g x stack) y := by
  intro stack
  dsimp only
  rw [hf, Stack.holds_max]
  by_cases hm : stack.holds m = true
  · rw [if_pos hm, hm, Bool.true_and]
    exact hg stack
  · rw [if_neg hm, if_neg (by simp [hm])]
    rfl

theorem Takes.map (hf : Takes m f x) (h : α → β) :
    Takes m (fun stack => f stack >>= fun x => pure (h x)) (h x) := by
  simpa using hf.bind (g := fun x _ => pure (h x)) (takes_pure (h x))

theorem Takes.congr {f' : Stack → Except FormatError α} (h : Takes n f x)
    (hf : ∀ stack, f' stack = f stack) : Takes n f' x :=
  fun stack => (hf stack).trans (h stack)

end

def Literal.frames : Literal → Nat
  | .int _ => 1
  | .float _ => 2
  | .bool _ => 1
  | .text _ => rowFrames + 1

def Pattern.frames : Pattern → Nat
  | .literal l => l.frames + 1
  | _ => 1

mutual

/-- How deep the calls nest that format an expression. -/
def Expr.frames : Expr → Nat
  | .mk n _ => n.frames + 1

def Node.frames : Node → Nat
  | .literal l => l.frames
  | .name _ => 0
  | .unary _ e => e.frames
  | .binary _ l r => max l.frames r.frames
  | .logical _ l r => max l.frames r.frames
  | .apply _ l r => max l.frames r.frames
  | .function cs => casesFrames cs + rowFrames
  | .tuple es => exprsFrames es + rowFrames
  | .list es => exprsFrames es + rowFrames
  | .stray _ => 0

def Case.frames : Case → Nat
  | .mk p gs => max (guardsFrames gs + rowFrames) p.frames + 1

/-- A condition that is always true is not formatted. -/
def Guard.frames : Guard → Nat
  | .mk c v => (if (Guard.mk c v).isPlain then v.frames else max c.frames v.frames) + 1

def exprsFrames : List Expr → Nat
  | [] => 0
  | e :: es => max e.frames (exprsFrames es)

def casesFrames : List Case → Nat
  | [] => 0
  | c :: cs => max c.frames (casesFrames cs)

def guardsFrames : List Guard → Nat
  | [] => 0
  | g :: gs => max g.frames (guardsFrames gs)

end

/-- Where calls can nest `n` deep, and only there, formatting gives a text that is read as the thing. -/
def Prints {α : Type} (n : Nat) (format : Stack → Formatted) (reads : List Token → α → Prop) (x : α) :
    Prop :=
  ∃ s, Takes n format s ∧ Renders reads s.toList x

theorem toList_intText {n : Int} (h : 0 ≤ n) : (intText n).toList = Decimal.natDigits n.natAbs := by
  rw [intText, String.toList_ofList, Decimal.intDigits, if_neg (by omega)]

theorem toList_intText_neg {n : Int} (h : n < 0) :
    (intText n).toList = '-' :: Decimal.natDigits n.natAbs := by
  rw [intText, String.toList_ofList, Decimal.intDigits, if_pos h]

theorem takes_positional {v : Decimal.Binary64} {digits : String} (h : v.positional? = some digits) :
    Takes 2 (Literal.float v).format digits := by
  refine (((takes_pure digits).nested 1).nested 1).congr fun stack => ?_
  simp only [Literal.format, h]
  rfl

theorem prints_literal {l : Literal} (h : l.Unsigned) :
    Prints l.frames l.format ReadsExpr (.of (.literal l)) := by
  cases l with
  | int n =>
    obtain ⟨h₁, h₂⟩ := h
    refine ⟨_, (takes_pure _).nested 1, ?_⟩
    have hr := renders_digits (n := n.natAbs) (by omega)
    rwa [Int.natAbs_of_nonneg h₁, ← toList_intText h₁] at hr
  | float v =>
    obtain ⟨m, e, hn, rfl⟩ := h
    obtain ⟨whole, fraction, hw, hf, hp, hv⟩ := Decimal.positional_reads false hn
    refine ⟨_, takes_positional hp, ?_⟩
    rw [String.toList_ofList]
    exact renders_pointed hw hf hv
  | bool b => exact ⟨_, (takes_pure _).nested 1, renders_boolean b⟩
  | text s =>
    refine ⟨_, ((takes_pure _).nested rowFrames).nested 1, ?_⟩
    have hr := renders_text h
    simpa [escapeText] using hr

/-- A literal that may have a minus, which is an operator where it is read. -/
theorem prints_signed {l : Literal} (h : l.Signed) :
    Prints l.frames l.format ReadsPattern (.literal l) := by
  cases l with
  | int n =>
    obtain ⟨h₁, h₂⟩ := h
    by_cases hn : n < 0
    · refine ⟨_, (takes_pure _).nested 1, ?_⟩
      rw [toList_intText_neg hn]
      have hr := (renders_digits (n := n.natAbs) (by omega)).minus
      have habs : -(n.natAbs : Int) = n := by omega
      refine hr.pattern ?_
      change some (Pattern.literal (.int (-(n.natAbs : Int)))) = _
      rw [habs]
    · obtain ⟨s, hs, hr⟩ := prints_literal (l := .int n) ⟨by omega, h₂⟩
      exact ⟨s, hs, hr.pattern rfl⟩
  | float v =>
    rcases v with ⟨negative, m, e, hn⟩ | _ | _
    · obtain ⟨whole, fraction, hw, hf, hp, hv⟩ := Decimal.positional_reads negative hn
      have hr := renders_pointed hw hf hv
      refine ⟨_, takes_positional hp, ?_⟩
      rw [String.toList_ofList]
      cases negative with
      | false => exact hr.pattern rfl
      | true => exact hr.minus.pattern rfl
    · cases h
    · cases h
  | bool b => exact ⟨_, (takes_pure _).nested 1, (renders_boolean b).pattern rfl⟩
  | text s =>
    obtain ⟨s', hs, hr⟩ := prints_literal (l := .text s) h
    exact ⟨s', hs, hr.pattern rfl⟩

theorem prints_pattern {p : Pattern} (h : p.WellFormed) :
    Prints p.frames p.format ReadsPattern p.bare := by
  cases p with
  | literal l =>
    obtain ⟨s, hs, hr⟩ := prints_signed h
    exact ⟨s, hs.nested 1, hr⟩
  | name t => exact ⟨_, (takes_pure _).nested 1, (renders_name h).pattern rfl⟩
  | stray v => cases h

theorem formatExprs_eq (es : List Expr) (stack : Stack) :
    formatExprs es stack = es.mapM (·.format stack) := by
  induction es with
  | nil => rfl
  | cons e es ih => rw [formatExprs, ih, List.mapM_cons]

theorem formatCases_eq (cs : List Case) (stack : Stack) :
    formatCases cs stack = cs.mapM (·.format stack) := by
  induction cs with
  | nil => rfl
  | cons c cs ih => rw [formatCases, ih, List.mapM_cons]

theorem formatGuards_eq (gs : List Guard) (stack : Stack) :
    formatGuards gs stack = gs.mapM (·.format stack) := by
  induction gs with
  | nil => rfl
  | cons g gs ih => rw [formatGuards, ih, List.mapM_cons]

/-- The most frames that one of a row takes. -/
def most {α : Type} (frames : α → Nat) (xs : List α) : Nat := (xs.map frames).foldr max 0

theorem exprsFrames_eq (es : List Expr) : exprsFrames es = most Expr.frames es := by
  induction es with
  | nil => rfl
  | cons e es ih => rw [exprsFrames, ih, most, most, List.map_cons, List.foldr_cons]

theorem casesFrames_eq (cs : List Case) : casesFrames cs = most Case.frames cs := by
  induction cs with
  | nil => rfl
  | cons c cs ih => rw [casesFrames, ih, most, most, List.map_cons, List.foldr_cons]

theorem guardsFrames_eq (gs : List Guard) : guardsFrames gs = most Guard.frames gs := by
  induction gs with
  | nil => rfl
  | cons g gs ih => rw [guardsFrames, ih, most, most, List.map_cons, List.foldr_cons]

section
variable {α β : Type} {frames : α → Nat} {format : α → Stack → Formatted}
  {reads : List Token → β → Prop} {f : α → β}

theorem prints_each {xs : List α} (h : ∀ x ∈ xs, Prints (frames x) (format x) reads (f x)) :
    ∃ ss, Takes (most frames xs) (fun stack => xs.mapM (format · stack)) ss ∧
      List.Forall₂ (Renders reads) (ss.map String.toList) (xs.map f) := by
  induction xs with
  | nil => exact ⟨[], takes_pure [], .nil⟩
  | cons x xs ih =>
    obtain ⟨s, hs, hr⟩ := h x List.mem_cons_self
    obtain ⟨ss, hss, hrs⟩ := ih fun y hy => h y (List.mem_cons_of_mem x hy)
    refine ⟨s :: ss, (hs.bind (g := fun s stack => xs.mapM (format · stack) >>= fun ss =>
      pure (s :: ss)) (hss.map (s :: ·))).congr fun stack => ?_, .cons hr hrs⟩
    rw [List.mapM_cons]

/-- Things with commas between them. -/
theorem prints_row {xs : List α} (h : ∀ x ∈ xs, Prints (frames x) (format x) reads (f x))
    (hne : xs ≠ []) :
    ∃ ss, Takes (most frames xs) (fun stack => xs.mapM (format · stack)) ss ∧
      Renders (Row reads) (", ".intercalate ss).toList (xs.map f) := by
  obtain ⟨ss, hss, hrs⟩ := prints_each h
  obtain ⟨x, xs, rfl⟩ := List.exists_cons_of_ne_nil hne
  refine ⟨ss, hss, ?_⟩
  rw [String.toList_intercalate]
  cases ss with
  | nil => cases hrs
  | cons s ss =>
    obtain ⟨hr, hrs⟩ := List.forall₂_cons.mp hrs
    exact renders_row hr hrs

end

/-- Tokens without positions suit their nodes as the tokens themselves do. -/
theorem join_bare_of_binary {o : Token} {l r : Expr} (h : o.kind.IsBinary) :
    join o.bare l r = .of (.binary o.bare l r) := by
  obtain ⟨-, hlogical, harrow⟩ := h
  unfold join
  rw [Token.kind_bare]
  split
  · next hk => exact absurd (.inl hk) hlogical
  · next hk => exact absurd (.inr hk) hlogical
  · next hk => exact absurd (.inr hk) harrow
  · next hk => exact absurd (.inl hk) harrow
  · rfl

theorem join_bare_of_logical {o : Token} {l r : Expr} (h : o.kind.IsLogical) :
    join o.bare l r = .of (.logical o.bare l r) := by
  unfold join
  rcases h with hk | hk <;> rw [Token.kind_bare, hk]

/-- The text of an expression is the text of its node. -/
theorem prints_of {n : Node} {e : Expr} (h : Prints n.frames n.format ReadsExpr e) :
    Prints (Expr.of n).frames (Expr.of n).format ReadsExpr e := by
  obtain ⟨s, hs, hr⟩ := h
  exact ⟨s, (hs.nested 1).congr fun _ => rfl, hr⟩

section
variable {o : Token} {x l r : Expr}

theorem prints_unary (hs : o.Spelled) (hu : o.kind.IsUnary)
    (h : Prints x.frames x.format ReadsExpr x.called) :
    Prints (Node.unary o x).frames (Node.unary o x).format ReadsExpr (Expr.of (.unary o x)).called := by
  obtain ⟨s, hf, hr⟩ := h
  have hb : (Expr.of (.unary o x)).called = .of (.unary (mark o.kind) x.called) := by
    rw [← bare_of_spelled hs]
    rfl
  refine ⟨_, (hf.map fun s => "(" ++ (if o.kind = .notWord then "not " else o.lexeme) ++ s ++ ")").congr
    fun _ => rfl, ?_⟩
  rw [hb]
  rcases hu with hk | hk
  · have hlex : o.lexeme.toList = ['-'] := by
      rw [Token.Spelled, hk] at hs
      exact (Option.some.inj hs).symm
    rw [hk, if_neg (by decide)]
    simpa [hlex] using hr.minus.whole.group
  · rw [hk, if_pos rfl]
    simpa using hr.not.whole.group

/-- Two sides and the operator between them, in brackets. -/
theorem prints_joined {q : Token} {e : Expr} {format : Stack → Formatted}
    (hi : (Binding.of q.kind).associativity.isSome) (hs : q.Spelled)
    (hl : Prints l.frames l.format ReadsExpr l.called)
    (hr : Prints r.frames r.format ReadsExpr r.called) (hj : join q.bare l.called r.called = e)
    (hf : ∀ stack, format stack = l.format stack >>= fun l => r.format stack >>= fun r =>
      pure ("(" ++ l ++ " " ++ q.lexeme ++ " " ++ r ++ ")")) :
    Prints (max l.frames r.frames) format ReadsExpr e := by
  obtain ⟨s, hsl, hrl⟩ := hl
  obtain ⟨t, htr, hrr⟩ := hr
  refine ⟨_, (hsl.bind (g := fun l stack => r.format stack >>= fun r =>
    pure ("(" ++ l ++ " " ++ q.lexeme ++ " " ++ r ++ ")")) (htr.map _)).congr hf, ?_⟩
  have hg := (Renders.join hi hs hrl hrr).group
  rw [hj] at hg
  simpa using hg

theorem isSome_of_logical {k : TokenKind} (h : k.IsLogical) : (Binding.of k).associativity.isSome := by
  rcases h with rfl | rfl <;> rfl

theorem prints_binary (hs : o.Spelled) (ho : o.kind.IsBinary)
    (hl : Prints l.frames l.format ReadsExpr l.called)
    (hr : Prints r.frames r.format ReadsExpr r.called) :
    Prints (Node.binary o l r).frames (Node.binary o l r).format ReadsExpr
      (Expr.of (.binary o l r)).called :=
  prints_joined ho.1 hs hl hr (join_bare_of_binary ho) fun _ => rfl

theorem prints_logical (hs : o.Spelled) (ho : o.kind.IsLogical)
    (hl : Prints l.frames l.format ReadsExpr l.called)
    (hr : Prints r.frames r.format ReadsExpr r.called) :
    Prints (Node.logical o l r).frames (Node.logical o l r).format ReadsExpr
      (Expr.of (.logical o l r)).called :=
  prints_joined (isSome_of_logical ho) hs hl hr (join_bare_of_logical ho) fun _ => rfl

/-- Whatever its operator is, an application is printed and read back in its call form. -/
theorem prints_apply (hl : Prints l.frames l.format ReadsExpr l.called)
    (hr : Prints r.frames r.format ReadsExpr r.called) :
    Prints (Node.apply o l r).frames (Node.apply o l r).format ReadsExpr
      (Expr.of (.apply o l r)).called :=
  prints_joined (q := mark .leftArrow) rfl rfl hl hr rfl fun stack => by
    have hformat : (Node.apply o l r).format stack = l.format stack >>= fun f =>
      r.format stack >>= fun a => pure ("(" ++ f ++ " <- " ++ a ++ ")") := rfl
    have harrow : " <- " = " " ++ (mark .leftArrow).lexeme ++ " " := rfl
    simp only [hformat, harrow, String.append_assoc]

end

theorem prints_function {cs : List Case} (hne : cs ≠ [])
    (h : ∀ c ∈ cs, Prints c.frames c.format ReadsCase c.called) :
    Prints (Node.function cs).frames (Node.function cs).format ReadsExpr
      (Expr.of (.function cs)).called := by
  obtain ⟨ss, hss, hr⟩ := prints_row h hne
  rw [← casesFrames_eq] at hss
  refine ⟨_, ((hss.nested rowFrames).map fun ss => "\x7b" ++ ", ".intercalate ss ++ "\x7d").congr
    fun stack => by rw [← funext (formatCases_eq cs)]; rfl, ?_⟩
  rw [Expr.called_function]
  simpa using hr.function

theorem prints_tuple {es : List Expr} (hlen : 2 ≤ es.length)
    (h : ∀ e ∈ es, Prints e.frames e.format ReadsExpr e.called) :
    Prints (Node.tuple es).frames (Node.tuple es).format ReadsExpr (Expr.of (.tuple es)).called := by
  have hne : es ≠ [] := by
    rintro rfl
    simp at hlen
  obtain ⟨ss, hss, hr⟩ := prints_row h hne
  rw [← exprsFrames_eq] at hss
  refine ⟨_, ((hss.nested rowFrames).map fun ss => "(" ++ ", ".intercalate ss ++ ")").congr
    fun stack => by rw [← funext (formatExprs_eq es)]; rfl, ?_⟩
  rw [Expr.called_tuple]
  simpa using hr.tuple (by simpa using hlen)

theorem prints_list {es : List Expr} (h : ∀ e ∈ es, Prints e.frames e.format ReadsExpr e.called) :
    Prints (Node.list es).frames (Node.list es).format ReadsExpr (Expr.of (.list es)).called := by
  have htakes : ∀ {ss}, Takes (most Expr.frames es) (fun stack => es.mapM (·.format stack)) ss →
      Takes (Node.list es).frames (Node.list es).format ("[" ++ ", ".intercalate ss ++ "]") := by
    intro ss hss
    rw [← exprsFrames_eq] at hss
    exact ((hss.nested rowFrames).map fun ss => "[" ++ ", ".intercalate ss ++ "]").congr
      fun stack => by rw [← funext (formatExprs_eq es)]; rfl
  by_cases hne : es = []
  · subst hne
    exact ⟨_, htakes (takes_pure []), renders_emptyList⟩
  · obtain ⟨ss, hss, hr⟩ := prints_row h hne
    refine ⟨_, htakes hss, ?_⟩
    rw [Expr.called_list]
    simpa using hr.list

/-- A guard that is always true is printed without its condition. -/
theorem eq_always_of_isPlain {c v : Expr} (hc : c.WellFormed) (h : (Guard.mk c v).isPlain) :
    c = .always := by
  cases hc with
  | @literal l hl =>
    cases l with
    | bool b =>
      cases b with
      | true => rfl
      | false => cases h
    | _ => cases h
  | _ => cases h

theorem prints_guard {c v : Expr} (hw : c.WellFormed)
    (hc : Prints c.frames c.format ReadsExpr c.called)
    (hv : Prints v.frames v.format ReadsExpr v.called) :
    Prints (Guard.mk c v).frames (Guard.mk c v).format ReadsGuard (Guard.mk c v).called := by
  obtain ⟨t, ht, hrt⟩ := hv
  rw [Guard.called_mk, Guard.frames]
  by_cases hp : (Guard.mk c v).isPlain
  · obtain rfl := eq_always_of_isPlain hw hp
    rw [if_pos hp]
    exact ⟨t, (ht.nested 1).congr fun stack => by simp only [Guard.format, if_pos hp], hrt.guard⟩
  · obtain ⟨s, hs, hrs⟩ := hc
    rw [if_neg hp]
    have hboth := hs.bind (g := fun c stack => v.format stack >>= fun v => pure (c ++ " ? " ++ v))
      (ht.map _)
    refine ⟨_, (hboth.nested 1).congr fun stack => by simp only [Guard.format, if_neg hp], ?_⟩
    simpa using hrs.condition hrt

theorem prints_case {p : Pattern} {gs : List Guard} (hp : p.WellFormed) (hne : gs ≠ [])
    (h : ∀ g ∈ gs, Prints g.frames g.format ReadsGuard g.called) :
    Prints (Case.mk p gs).frames (Case.mk p gs).format ReadsCase (Case.mk p gs).called := by
  obtain ⟨s, hs, hrs⟩ := prints_pattern hp
  obtain ⟨ss, hss, hr⟩ := prints_row h hne
  rw [← guardsFrames_eq] at hss
  have hboth := (hss.nested rowFrames).bind
    (g := fun gs stack => p.format stack >>= fun p => pure (p ++ " | " ++ ", ".intercalate gs))
    (hs.map _)
  refine ⟨_, (hboth.nested 1).congr fun stack => by rw [Case.format, funext (formatGuards_eq gs)], ?_⟩
  rw [Case.called_mk]
  simpa using hrs.case hr

/-- By induction on the tree: each kind of node is printed if its parts are. -/
theorem Expr.WellFormed.prints {e : Expr} (h : e.WellFormed) :
    Prints e.frames e.format ReadsExpr e.called :=
  h.rec (motive_1 := fun e _ => Prints e.frames e.format ReadsExpr e.called)
    (motive_2 := fun c _ => Prints c.frames c.format ReadsCase c.called)
    (motive_3 := fun g _ => Prints g.frames g.format ReadsGuard g.called)
    (fun hl => prints_of (prints_literal hl))
    (fun ht => prints_of ⟨_, takes_pure _, renders_name ht⟩)
    (fun hs hu _ h => prints_of (prints_unary hs hu h))
    (fun hs ho _ _ hl hr => prints_of (prints_binary hs ho hl hr))
    (fun hs ho _ _ hl hr => prints_of (prints_logical hs ho hl hr))
    (fun _ _ _ _ hl hr => prints_of (prints_apply hl hr))
    (fun hne _ h => prints_of (prints_function hne h))
    (fun hlen _ h => prints_of (prints_tuple hlen h))
    (fun _ h => prints_of (prints_list h))
    (fun hp hne _ h => prints_case hp hne h)
    (fun hc _ h h' => prints_guard hc h h')

end ArrowLang
