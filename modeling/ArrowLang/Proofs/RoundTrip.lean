import ArrowLang.Proofs.Acceptance
import ArrowLang.Proofs.Formatted
import ArrowLang.Text.Lines

/-!
# Formatting and reading again

Declarations are printed one on a line. The text is read back as the declarations, up to positions
and with every application in its call form, and formatting what is read gives the text again.
-/
namespace ArrowLang

open Reading Lexeme

section
variable {f g : Token → Token}

theorem Pattern.format_retoken (hf : Keeps f) (p : Pattern) : (p.retoken f).format = p.format := by
  cases p with
  | name t => simp only [Pattern.retoken, Pattern.format, (hf t).2]
  | _ => rfl

theorem Guard.isPlain_retoken (c v : Expr) :
    (Guard.mk (c.retoken f g) (v.retoken f g)).isPlain = (Guard.mk c v).isPlain := by
  unfold Guard.isPlain Guard.condition
  rw [Expr.node_retoken]
  cases c.node <;> rfl

mutual

theorem Expr.format_retoken (hf : Keeps f) (e : Expr) : (e.retoken f g).format = e.format := by
  funext stack
  cases e with
  | mk n t => simp only [Expr.retoken, Expr.format, Node.format_retoken hf n]

theorem Node.format_retoken (hf : Keeps f) (n : Node) : (n.retoken f g).format = n.format := by
  funext stack
  cases n with
  | literal l => rfl
  | name t => simp only [Node.retoken, Node.format, (hf t).2]
  | unary o e =>
    simp only [Node.retoken, Node.format, Expr.format_retoken hf e, (hf o).1, (hf o).2]
  | binary o l r =>
    simp only [Node.retoken, Node.format, Expr.format_retoken hf l, Expr.format_retoken hf r, (hf o).2]
  | logical o l r =>
    simp only [Node.retoken, Node.format, Expr.format_retoken hf l, Expr.format_retoken hf r, (hf o).2]
  | apply o l r =>
    simp only [Node.retoken, Node.format, Expr.format_retoken hf l, Expr.format_retoken hf r]
  | function cs => simp only [Node.retoken, Node.format, formatCases_retoken hf cs]
  | tuple es => simp only [Node.retoken, Node.format, formatExprs_retoken hf es]
  | list es => simp only [Node.retoken, Node.format, formatExprs_retoken hf es]
  | stray v => rfl

theorem Case.format_retoken (hf : Keeps f) (c : Case) : (c.retoken f g).format = c.format := by
  funext stack
  cases c with
  | mk p gs =>
    simp only [Case.retoken, Case.format, Pattern.format_retoken hf p, formatGuards_retoken hf gs]

theorem Guard.format_retoken (hf : Keeps f) (c : Guard) : (c.retoken f g).format = c.format := by
  funext stack
  cases c with
  | mk c v =>
    simp only [Guard.retoken, Guard.format, Guard.isPlain_retoken, Expr.format_retoken hf c,
      Expr.format_retoken hf v]

theorem formatExprs_retoken (hf : Keeps f) (es : List Expr) :
    formatExprs (retokenExprs f g es) = formatExprs es := by
  funext stack
  cases es with
  | nil => rfl
  | cons e es =>
    simp only [retokenExprs, formatExprs, Expr.format_retoken hf e, formatExprs_retoken hf es]

theorem formatCases_retoken (hf : Keeps f) (cs : List Case) :
    formatCases (retokenCases f g cs) = formatCases cs := by
  funext stack
  cases cs with
  | nil => rfl
  | cons c cs =>
    simp only [retokenCases, formatCases, Case.format_retoken hf c, formatCases_retoken hf cs]

theorem formatGuards_retoken (hf : Keeps f) (gs : List Guard) :
    formatGuards (retokenGuards f g gs) = formatGuards gs := by
  funext stack
  cases gs with
  | nil => rfl
  | cons c cs =>
    simp only [retokenGuards, formatGuards, Guard.format_retoken hf c, formatGuards_retoken hf cs]

end

theorem Decl.format_retoken (hf : Keeps f) (d : Decl) : (d.retoken f g).format = d.format := by
  cases d with
  | constant n t e =>
    cases t <;>
      simp only [Decl.retoken, Decl.format, Expr.format_retoken hf, Option.map, (hf _).2]
  | evaluated e => simp only [Decl.retoken, Decl.format, Expr.format_retoken hf]
  | stray v => rfl

theorem formatLines_retoken (hf : Keeps f) (stack : Stack) (ds : List Decl) :
    formatLines stack (ds.map (Decl.retoken f g)) = formatLines stack ds := by
  induction ds with
  | nil => rfl
  | cons d ds ih => rw [List.map_cons, formatLines, formatLines, Decl.format_retoken hf, ih]

theorem formatDecls_retoken (hf : Keeps f) (ds : List Decl) :
    formatDecls (ds.map (Decl.retoken f g)) = formatDecls ds := by
  simp only [formatDecls, formatLines_retoken hf]

end

def Decl.called : Decl → Decl := Decl.retoken Token.bare fun _ => mark .leftArrow

@[simp] theorem Decl.called_constant (n : Token) (t : Option Token) (e : Expr) :
    (Decl.constant n t e).called = .constant n.bare (t.map Token.bare) e.called := rfl

/-- Where lines may end, the tokens are read as the declaration. -/
def ReadsForm (us : List Token) (d : Decl) : Prop :=
  ∃ Q, FormYields Deep us Q ∧ ∀ x, Q x → x.bare = d

section
variable {cs ds : List Char} {t e : Expr}

theorem Renders.evaluated (h : Renders ReadsExpr cs e) : Renders ReadsForm cs (.evaluated e) := by
  refine h.imp fun us hus => ⟨_, evaluated_yields hus.expr, ?_⟩
  rintro _ ⟨x, hx, rfl⟩
  rw [Decl.bare_evaluated, hx]

theorem target_of_bare {n : Token} {u : Option Token} (h : target? e.bare = some (n, u)) :
    ∃ m v, target? e = some (m, v) ∧ m.bare = n ∧ v.map Token.bare = u := by
  rw [Expr.bare, target?_retoken Token.kind_bare] at h
  obtain ⟨⟨m, v⟩, hm, h⟩ := Option.map_eq_some_iff.mp h
  obtain ⟨rfl, rfl⟩ := Prod.mk.inj h
  exact ⟨m, v, hm, rfl, rfl⟩

theorem Renders.constant {n : Token} {u : Option Token} (h : Renders ReadsWhole cs t)
    (ht : target? t = some (n, u)) (h' : Renders ReadsExpr ds e) :
    Renders ReadsForm (cs ++ [' ', '=', ' '] ++ ds) (.constant n u e) := by
  refine h.link link_equal h' fun us q vs hus hq hvs =>
    ⟨_, constant_yields hus ?_ (kind_of_bare_mark hq) hvs.expr, ?_⟩
  · intro x hx
    obtain ⟨m, v, hm, -⟩ := target_of_bare (hx.symm ▸ ht)
    rw [hm]
    rfl
  · rintro _ ⟨x, m, v, y, hx, hy, hm, rfl⟩
    obtain ⟨m', v', hm', rfl, rfl⟩ := target_of_bare (hx.symm ▸ ht)
    obtain ⟨rfl, rfl⟩ := Prod.mk.inj (Option.some.inj (hm.symm.trans hm'))
    rw [Decl.bare_constant, hy]

end

/-- A name with a type is the two of them and a colon, which is an operator like others. -/
theorem renders_typed {n u : Token} (hn : n.IsIdentifier) (hu : u.IsIdentifier) :
    Renders ReadsWhole (n.lexeme.toList ++ [' ', ':', ' '] ++ u.lexeme.toList)
      (.of (.binary (mark .colon) (.of (.name n.bare)) (.of (.name u.bare)))) :=
  Renders.join (o := mark .colon) rfl rfl (renders_name hn) (renders_name hu)

/-- How deep the calls nest that format a declaration. -/
def Decl.frames : Decl → Nat
  | .constant _ _ e => e.frames + 1
  | .evaluated e => e.frames + 1
  | .stray _ => 1

/-- How deep the calls nest that format declarations. -/
def declsFrames (ds : List Decl) : Nat := most Decl.frames ds + (1 + rowFrames)

theorem prints_decl {d : Decl} (h : d.WellFormed) : Prints d.frames d.format ReadsForm d.called := by
  cases d with
  | constant n u e =>
    obtain ⟨hn, hu, he⟩ := h
    obtain ⟨s, hs, hr⟩ := he.prints
    cases u with
    | none =>
      refine ⟨_, (hs.map fun s => n.lexeme ++ " = " ++ s).nested 1, ?_⟩
      simpa using (renders_name hn).whole.constant rfl hr
    | some u =>
      refine ⟨_, (hs.map fun s => n.lexeme ++ " : " ++ u.lexeme ++ " = " ++ s).nested 1, ?_⟩
      simpa using (renders_typed hn (hu u rfl)).constant rfl hr
  | evaluated e =>
    obtain ⟨s, hs, hr⟩ := Expr.WellFormed.prints h
    exact ⟨s, hs.nested 1, hr.evaluated⟩
  | stray v => cases h

/-- The text of which these are the lines, each of them ended. -/
def lined (css : List (List Char)) : List Char := css.flatMap (· ++ ['\n'])

@[simp] theorem lined_cons (cs : List Char) (css : List (List Char)) :
    lined (cs :: css) = cs ++ '\n' :: lined css := by
  simp [lined]

theorem splitLines_line {cs : List Char} (h : '\n' ∉ cs) (rest : List Char) :
    Text.splitLines (cs ++ '\n' :: rest) = cs :: Text.splitLines rest := by
  induction cs with
  | nil => rfl
  | cons c cs ih =>
    obtain ⟨hc, hcs⟩ := not_or.mp (List.mem_cons.not.mp h)
    rw [List.cons_append, Text.splitLines, if_neg (Ne.symm hc), ih hcs]

theorem splitLines_lined {css : List (List Char)} (h : ∀ cs ∈ css, '\n' ∉ cs) :
    Text.splitLines (lined css) = css ++ [[]] := by
  induction css with
  | nil => rfl
  | cons cs css ih =>
    rw [lined_cons, splitLines_line (h cs List.mem_cons_self),
      ih fun ds hds => h ds (List.mem_cons_of_mem cs hds), List.cons_append]

theorem prints_lines {ds : List Decl} (h : ∀ d ∈ ds, d.WellFormed) :
    ∃ css, Takes (most Decl.frames ds) (formatLines · ds) (String.ofList (lined css)) ∧
      List.Forall₂ (fun d cs => Takes d.frames d.format (String.ofList cs)) ds css ∧
      List.Forall₂ (Renders ReadsForm) css (ds.map Decl.called) := by
  induction ds with
  | nil => exact ⟨[], takes_pure _, .nil, .nil⟩
  | cons d ds ih =>
    obtain ⟨s, hs, hr⟩ := prints_decl (h d List.mem_cons_self)
    obtain ⟨css, hcss, hds, hrs⟩ := ih fun x hx => h x (List.mem_cons_of_mem d hx)
    refine ⟨s.toList :: css, ?_, .cons (by rwa [String.ofList_toList]) hds, .cons hr hrs⟩
    have htext : s ++ "\n" ++ String.ofList (lined css) = String.ofList (lined (s.toList :: css)) :=
      String.toList_inj.mp (by simp)
    rw [← htext]
    exact (hs.bind (g := fun s stack => formatLines stack ds >>= fun ds => pure (s ++ "\n" ++ ds))
      (hcss.map _)).congr fun stack => by rw [formatLines]

/-- What lines are read as, if a line ends in front of them. -/
def ReadsLines (us : List Token) (ds : List Decl) : Prop :=
  ∀ q : Token, q.kind = .newline → ∃ Qs vs m, q :: us = vs ++ [m] ∧ m.kind = .newline ∧
    MoreForms Deep Qs vs ∧ Determines Qs Decl.bare ds

theorem readsLines_nil : ReadsLines [] [] := fun q hq => ⟨[], [], q, rfl, hq, .nil, determines_nil _⟩

theorem ReadsForm.lines {us vs : List Token} {r : Token} {d : Decl} {ds : List Decl}
    (h : ReadsForm us d) (hr : r.kind = .newline) (hs : ReadsLines vs ds) :
    ReadsLines (us ++ r :: vs) (d :: ds) := by
  intro q hq
  obtain ⟨Q, hQ, hd⟩ := h
  obtain ⟨Qs, ws, m, hws, hm, hmore, hds⟩ := hs r hr
  have hn : Newlines [q] := by simpa [Newlines] using hq
  refine ⟨Q :: Qs, [q] ++ us ++ ws, m, ?_, hm, .cons hn (by simp) hQ hmore, hds.cons hd⟩
  rw [hws]
  simp

/-- The end of a line is a token of its own where another line begins. -/
theorem lex_newline {rest : List Char} (h : ∀ c ∈ rest.head?, c ≠ '\n') :
    lex ('\n' :: rest) = .ok (newlines []) :: lex rest := by
  have hw : rest.takeWhile (· = '\n') = [] ∧ rest.dropWhile (· = '\n') = rest := by
    cases rest with
    | nil => simp
    | cons c rest => simp [h c rfl]
  have hc : cut ('\n' :: rest) = cutToken ('\n' :: rest) := rfl
  rw [cutToken_newline, hw.1, hw.2] at hc
  exact lex_of_cut hc rfl

/-- Lines are cut one by one, since none of them begins with a newline. -/
theorem lex_lines {css : List (List Char)} {ds : List Decl}
    (h : List.Forall₂ (Renders ReadsForm) css ds) :
    ∃ ts, lex (lined css) = (ts ++ [textEnd]).map .ok ∧
      (∀ t ∈ ts, t.kind = .number → ¬ Overlong t.lexeme.toList) ∧
      ∀ us, us.map Token.bare = ts → ReadsLines us ds := by
  induction h with
  | nil =>
    refine ⟨[], lex_nil, by simp, fun us hus => ?_⟩
    rw [List.map_eq_nil_iff.mp hus]
    exact readsLines_nil
  | @cons cs d css ds h hs ih =>
    obtain ⟨ts, hw, hr⟩ := h
    obtain ⟨ts', hl, hshort, hrs⟩ := ih
    have hhead : ∀ c ∈ (lined css).head?, c ≠ '\n' := by
      cases hs with
      | nil => simp [lined]
      | cons h' _ =>
        obtain ⟨_, hw', -⟩ := h'
        obtain ⟨c, r, rfl, -, hc⟩ := hw'.opens
        simpa using hc
    refine ⟨ts ++ newlines [] :: ts', ?_, ?_, ?_⟩
    · rw [lined_cons, hw.word _ (by simp [Boundary]), lex_newline hhead, hl]
      simp
    · intro t ht hk
      rcases List.mem_append.mp ht with ht | ht
      · exact hw.short t ht hk
      · rcases List.mem_cons.mp ht with rfl | ht
        · cases hk
        · exact hshort t ht hk
    · intro us hus
      obtain ⟨us, vs, rfl, h₁, h₂⟩ := List.map_eq_append_iff.mp hus
      obtain ⟨r, vs, rfl, hr', h₃⟩ := List.map_eq_cons_iff.mp h₂
      exact (hr us h₁).lines (congrArg Token.kind hr') (hrs vs h₃)

/-- Lines are read, and read as what they render unless they nest too deep. -/
theorem read_lines {css : List (List Char)} {ds : List Decl}
    (h : List.Forall₂ (Renders ReadsForm) css ds) (stack : Nat) :
    ∃ p, Program.read stack (String.ofList (lined css)) = .ok p ∧
      ((∃ t, .grammar .nestingTooDeep t ∈ p.diagnostics) ∨
        p.diagnostics = [] ∧ p.decls.map Decl.bare = ds) := by
  obtain ⟨ts, hlex, hshort, hreads⟩ := lex_lines h
  rw [← String.toList_ofList (l := lined css)] at hlex
  generalize String.ofList (lined css) = text at hlex
  obtain ⟨us, e, p, hus, he, hbare, hread⟩ := Program.exists_of_lex hlex hshort stack
  refine ⟨p, hread, or_iff_not_imp_left.mpr fun hdeep => ?_⟩
  obtain ⟨hdecls, hdg⟩ := Program.read_free hread (not_exists.mp hdeep)
  obtain ⟨hs, hdiag, ha⟩ := Window.start_of_outcomes hus
  -- The first line is read like the others, as if a newline stood in front of it.
  obtain ⟨Qs, vs, m, hvs, hm, hmore, hd⟩ := hreads us hbare (newlines []) rfl
  have hahead : (Window.start text).ahead = dropNewlines (vs ++ ([m] ++ [e])) := by
    rw [ha, ← List.append_assoc, ← hvs]
    rfl
  have hn : Newlines [m] := by simpa [Newlines] using hm
  rcases more_forms_give (fun _ => .inl) hmore hn he hs hahead with
    ⟨xs, hxs, heach, hdx⟩ | ⟨_, -, hf⟩ | ⟨t, ht⟩
  · refine ⟨by rw [hdg, hdx, hdiag], ?_⟩
    obtain rfl : xs = p.decls := Except.ok.inj (hxs.symm.trans hdecls)
    exact hd _ heach
  · cases hf
  · exact absurd ⟨t, hdg ▸ ht⟩ hdeep

/-- The declarations have a text, which formatting gives if and only if their calls can nest deep
enough; nothing else goes wrong. Each of them has a line of the text, and the text is read. Unless it
nests too deep nothing is reported, the declarations are read back with every application in its call
form, and what is read is formatted as they are. -/
def RoundTrips (ds : List Decl) : Prop :=
  ∃ text lines, Takes (declsFrames ds) (formatDecls ds) text ∧
    Text.splitLines text.toList = lines ++ [[]] ∧
    List.Forall₂ (fun d line => Takes d.frames d.format (String.ofList line)) ds lines ∧
    ∀ stack, ∃ p, Program.read stack text = .ok p ∧
      ((∃ t, .grammar .nestingTooDeep t ∈ p.diagnostics) ∨
        p.diagnostics = [] ∧ p.decls.map Decl.bare = ds.map Decl.called ∧
          formatDecls p.decls = formatDecls ds)

theorem roundTrips_of_wellFormed {ds : List Decl} (h : ∀ d ∈ ds, d.WellFormed) : RoundTrips ds := by
  obtain ⟨css, hf, hds, hrs⟩ := prints_lines h
  have hline : ∀ cs ∈ css, '\n' ∉ cs :=
    ((List.forall₂_and_left css _).mp (hrs.imp fun _ _ h => ⟨h.line, h⟩)).1
  refine ⟨_, css, hf.nested (1 + rowFrames), ?_, hds, fun stack => ?_⟩
  · rw [String.toList_ofList, splitLines_lined hline]
  · obtain ⟨p, hp, hback⟩ := read_lines hrs stack
    refine ⟨p, hp, hback.imp_right fun ⟨hdg, hdecls⟩ => ⟨hdg, hdecls, ?_⟩⟩
    calc formatDecls p.decls = formatDecls (p.decls.map Decl.bare) :=
          (formatDecls_retoken keeps_bare _).symm
      _ = formatDecls (ds.map Decl.called) := by rw [hdecls]
      _ = formatDecls ds := formatDecls_retoken keeps_bare _

end ArrowLang
