import ArrowLang.Grammar.Program

/-!
# What is left without positions

Tokens, trees, cuts and diagnostics with every line and column set to zero. Trees are mapped by a
function on their tokens, and by one of its own on the operators of applications, which have two
spellings.
-/
namespace ArrowLang

def Token.bare (t : Token) : Token := ⟨t.kind, t.lexeme, 0, 0⟩

@[simp] theorem Token.kind_bare (t : Token) : t.bare.kind = t.kind := rfl
@[simp] theorem Token.lexeme_bare (t : Token) : t.bare.lexeme = t.lexeme := rfl
@[simp] theorem Token.bare_bare (t : Token) : t.bare.bare = t.bare := rfl

theorem Token.bare_eq_iff {t u : Token} : t.bare = u.bare ↔ t.kind = u.kind ∧ t.lexeme = u.lexeme := by
  simp [Token.bare]

def LexicalError.bare (e : LexicalError) : LexicalError := ⟨e.fault, 0, 0⟩

def Outcome.bare : Outcome → Outcome
  | .ok t => .ok t.bare
  | .error e => .error e.bare

@[simp] theorem Outcome.isEnd_bare (o : Outcome) : o.bare.isEnd = o.isEnd := by
  cases o <;> rfl

theorem Outcome.bare_eq_ok {o : Outcome} {t : Token} (h : o.bare = .ok t) :
    ∃ u, o = .ok u ∧ u.bare = t := by
  cases o with
  | ok u => exact ⟨u, rfl, by simpa [Outcome.bare] using h⟩
  | error e => simp [Outcome.bare] at h

theorem Outcome.bare_eq_error {o : Outcome} {e : LexicalError} (h : o.bare = .error e) :
    ∃ f, o = .error f ∧ f.bare = e := by
  cases o with
  | ok u => simp [Outcome.bare] at h
  | error f => exact ⟨f, rfl, by simpa [Outcome.bare] using h⟩

/-- Outcomes that are tokens up to positions are tokens. -/
theorem oks_of_bare {os : List Outcome} {ts : List Token} (h : os.map Outcome.bare = ts.map .ok) :
    ∃ us : List Token, os = us.map .ok ∧ us.map Token.bare = ts := by
  induction os generalizing ts with
  | nil => exact ⟨[], rfl, (List.map_eq_nil_iff.mp h.symm).symm⟩
  | cons o os ih =>
    obtain ⟨t, ts, rfl, ho, hos⟩ := List.map_eq_cons_iff.mp h.symm
    obtain ⟨u, rfl, rfl⟩ := Outcome.bare_eq_ok ho.symm
    obtain ⟨us, rfl, rfl⟩ := ih hos.symm
    exact ⟨u :: us, rfl, rfl⟩

def Diagnostic.bare : Diagnostic → Diagnostic
  | .lexical fault _ _ => .lexical fault 0 0
  | .grammar fault token => .grammar fault token.bare
  | .general message _ _ => .general message 0 0

/-- Only the position of a diagnostic is lost. -/
theorem Diagnostic.code_bare (d : Diagnostic) : d.bare.code = d.code := by
  cases d <;> rfl

theorem Diagnostic.message_bare (d : Diagnostic) : d.bare.message = d.message := by
  cases d with
  | grammar fault token => cases fault <;> rfl
  | _ => rfl

/-- What a failure reports, so without what was lost. -/
def Failure.bare : Failure → Failure
  | .fault g t => .fault g t.bare
  | .tooDeep _ => .tooDeep none
  | .abort cause => .abort cause

def Pattern.retoken (f : Token → Token) : Pattern → Pattern
  | .literal l => .literal l
  | .name t => .name (f t)
  | .stray v => .stray v

mutual

/-- The tree with `g` applied to the operators of applications and `f` to all other tokens. -/
def Expr.retoken (f g : Token → Token) : Expr → Expr
  | .mk n t => .mk (n.retoken f g) t

def Node.retoken (f g : Token → Token) : Node → Node
  | .literal l => .literal l
  | .name t => .name (f t)
  | .unary o e => .unary (f o) (e.retoken f g)
  | .binary o l r => .binary (f o) (l.retoken f g) (r.retoken f g)
  | .logical o l r => .logical (f o) (l.retoken f g) (r.retoken f g)
  | .apply o l r => .apply (g o) (l.retoken f g) (r.retoken f g)
  | .function cs => .function (retokenCases f g cs)
  | .tuple es => .tuple (retokenExprs f g es)
  | .list es => .list (retokenExprs f g es)
  | .stray v => .stray v

def Case.retoken (f g : Token → Token) : Case → Case
  | .mk p gs => .mk (p.retoken f) (retokenGuards f g gs)

def Guard.retoken (f g : Token → Token) : Guard → Guard
  | .mk c v => .mk (c.retoken f g) (v.retoken f g)

def retokenExprs (f g : Token → Token) : List Expr → List Expr
  | [] => []
  | e :: es => e.retoken f g :: retokenExprs f g es

def retokenCases (f g : Token → Token) : List Case → List Case
  | [] => []
  | c :: cs => c.retoken f g :: retokenCases f g cs

def retokenGuards (f g : Token → Token) : List Guard → List Guard
  | [] => []
  | c :: cs => c.retoken f g :: retokenGuards f g cs

end

def Decl.retoken (f g : Token → Token) : Decl → Decl
  | .constant n t e => .constant (f n) (t.map f) (e.retoken f g)
  | .evaluated e => .evaluated (e.retoken f g)
  | .stray v => .stray v

theorem Pattern.retoken_id (p : Pattern) : p.retoken id = p := by
  cases p <;> rfl

mutual

theorem Expr.retoken_id (e : Expr) : e.retoken id id = e := by
  cases e with
  | mk n t => rw [Expr.retoken, Node.retoken_id n]

theorem Node.retoken_id (n : Node) : n.retoken id id = n := by
  cases n with
  | literal l => rfl
  | name t => rfl
  | unary o e => rw [Node.retoken, Expr.retoken_id e, id]
  | binary o l r => rw [Node.retoken, Expr.retoken_id l, Expr.retoken_id r, id]
  | logical o l r => rw [Node.retoken, Expr.retoken_id l, Expr.retoken_id r, id]
  | apply o l r => rw [Node.retoken, Expr.retoken_id l, Expr.retoken_id r, id]
  | function cs => rw [Node.retoken, retokenCases_id cs]
  | tuple es => rw [Node.retoken, retokenExprs_id es]
  | list es => rw [Node.retoken, retokenExprs_id es]
  | stray v => rfl

theorem Case.retoken_id (c : Case) : c.retoken id id = c := by
  cases c with
  | mk p gs => rw [Case.retoken, Pattern.retoken_id p, retokenGuards_id gs]

theorem Guard.retoken_id (g : Guard) : g.retoken id id = g := by
  cases g with
  | mk c v => rw [Guard.retoken, Expr.retoken_id c, Expr.retoken_id v]

theorem retokenExprs_id (es : List Expr) : retokenExprs id id es = es := by
  cases es with
  | nil => rfl
  | cons e es => rw [retokenExprs, Expr.retoken_id e, retokenExprs_id es]

theorem retokenCases_id (cs : List Case) : retokenCases id id cs = cs := by
  cases cs with
  | nil => rfl
  | cons c cs => rw [retokenCases, Case.retoken_id c, retokenCases_id cs]

theorem retokenGuards_id (gs : List Guard) : retokenGuards id id gs = gs := by
  cases gs with
  | nil => rfl
  | cons g gs => rw [retokenGuards, Guard.retoken_id g, retokenGuards_id gs]

end

theorem Decl.retoken_id (d : Decl) : d.retoken id id = d := by
  cases d with
  | constant n t e => simp [Decl.retoken, Expr.retoken_id]
  | evaluated e => rw [Decl.retoken, Expr.retoken_id]
  | stray v => rfl

section
variable (f g f' g' : Token → Token)

theorem Pattern.retoken_retoken (p : Pattern) : (p.retoken f).retoken f' = p.retoken (f' ∘ f) := by
  cases p <;> rfl

mutual

theorem Expr.retoken_retoken (e : Expr) :
    (e.retoken f g).retoken f' g' = e.retoken (f' ∘ f) (g' ∘ g) := by
  cases e with
  | mk n t => rw [Expr.retoken, Expr.retoken, Expr.retoken, Node.retoken_retoken n]

theorem Node.retoken_retoken (n : Node) :
    (n.retoken f g).retoken f' g' = n.retoken (f' ∘ f) (g' ∘ g) := by
  cases n with
  | literal l => rfl
  | name t => rfl
  | unary o e => simp only [Node.retoken, Expr.retoken_retoken e, Function.comp_apply]
  | binary o l r =>
    simp only [Node.retoken, Expr.retoken_retoken l, Expr.retoken_retoken r, Function.comp_apply]
  | logical o l r =>
    simp only [Node.retoken, Expr.retoken_retoken l, Expr.retoken_retoken r, Function.comp_apply]
  | apply o l r =>
    simp only [Node.retoken, Expr.retoken_retoken l, Expr.retoken_retoken r, Function.comp_apply]
  | function cs => simp only [Node.retoken, retokenCases_retoken cs]
  | tuple es => simp only [Node.retoken, retokenExprs_retoken es]
  | list es => simp only [Node.retoken, retokenExprs_retoken es]
  | stray v => rfl

theorem Case.retoken_retoken (c : Case) :
    (c.retoken f g).retoken f' g' = c.retoken (f' ∘ f) (g' ∘ g) := by
  cases c with
  | mk p gs => simp only [Case.retoken, Pattern.retoken_retoken, retokenGuards_retoken gs]

theorem Guard.retoken_retoken (c : Guard) :
    (c.retoken f g).retoken f' g' = c.retoken (f' ∘ f) (g' ∘ g) := by
  cases c with
  | mk c v => simp only [Guard.retoken, Expr.retoken_retoken c, Expr.retoken_retoken v]

theorem retokenExprs_retoken (es : List Expr) :
    retokenExprs f' g' (retokenExprs f g es) = retokenExprs (f' ∘ f) (g' ∘ g) es := by
  cases es with
  | nil => rfl
  | cons e es => simp only [retokenExprs, Expr.retoken_retoken e, retokenExprs_retoken es]

theorem retokenCases_retoken (cs : List Case) :
    retokenCases f' g' (retokenCases f g cs) = retokenCases (f' ∘ f) (g' ∘ g) cs := by
  cases cs with
  | nil => rfl
  | cons c cs => simp only [retokenCases, Case.retoken_retoken c, retokenCases_retoken cs]

theorem retokenGuards_retoken (gs : List Guard) :
    retokenGuards f' g' (retokenGuards f g gs) = retokenGuards (f' ∘ f) (g' ∘ g) gs := by
  cases gs with
  | nil => rfl
  | cons c gs => simp only [retokenGuards, Guard.retoken_retoken c, retokenGuards_retoken gs]

end

theorem Decl.retoken_retoken (d : Decl) :
    (d.retoken f g).retoken f' g' = d.retoken (f' ∘ f) (g' ∘ g) := by
  cases d with
  | constant n t e => simp [Decl.retoken, Expr.retoken_retoken]
  | evaluated e => rw [Decl.retoken, Decl.retoken, Decl.retoken, Expr.retoken_retoken]
  | stray v => rfl

end

section
variable (f g : Token → Token)

@[simp] theorem retokenExprs_eq_map (es : List Expr) :
    retokenExprs f g es = es.map (Expr.retoken f g) := by
  induction es with
  | nil => rfl
  | cons e es ih => simp [retokenExprs, ih]

@[simp] theorem retokenCases_eq_map (cs : List Case) :
    retokenCases f g cs = cs.map (Case.retoken f g) := by
  induction cs with
  | nil => rfl
  | cons c cs ih => simp [retokenCases, ih]

@[simp] theorem retokenGuards_eq_map (gs : List Guard) :
    retokenGuards f g gs = gs.map (Guard.retoken f g) := by
  induction gs with
  | nil => rfl
  | cons c cs ih => simp [retokenGuards, ih]

@[simp] theorem Expr.node_retoken (e : Expr) : (e.retoken f g).node = e.node.retoken f g := by
  cases e; rfl

@[simp] theorem Node.typ_retoken (n : Node) : (n.retoken f g).typ = n.typ := by
  cases n <;> rfl

@[simp] theorem Expr.of_inj {m n : Node} : Expr.of m = .of n ↔ m = n :=
  ⟨congrArg Expr.node, congrArg Expr.of⟩

@[simp] theorem Expr.retoken_of (n : Node) : (Expr.of n).retoken f g = .of (n.retoken f g) := by
  simp [Expr.of, Expr.retoken]

@[simp] theorem Expr.retoken_always : Expr.always.retoken f g = .always := rfl

end

def Expr.bare : Expr → Expr := Expr.retoken Token.bare Token.bare
def Guard.bare : Guard → Guard := Guard.retoken Token.bare Token.bare
def Case.bare : Case → Case := Case.retoken Token.bare Token.bare
def Pattern.bare : Pattern → Pattern := Pattern.retoken Token.bare
def Decl.bare : Decl → Decl := Decl.retoken Token.bare Token.bare

@[simp] theorem Guard.bare_mk (c v : Expr) : (Guard.mk c v).bare = .mk c.bare v.bare := rfl

@[simp] theorem Case.bare_mk (p : Pattern) (gs : List Guard) :
    (Case.mk p gs).bare = .mk p.bare (gs.map Guard.bare) := by
  simp only [Case.bare, Case.retoken, retokenGuards_eq_map]
  rfl

@[simp] theorem Expr.bare_always : Expr.always.bare = .always := rfl

@[simp] theorem Expr.bare_of_literal (l : Literal) : (Expr.of (.literal l)).bare = .of (.literal l) :=
  rfl

@[simp] theorem Expr.bare_of_name (t : Token) : (Expr.of (.name t)).bare = .of (.name t.bare) := rfl

@[simp] theorem Expr.bare_of_unary (o : Token) (e : Expr) :
    (Expr.of (.unary o e)).bare = .of (.unary o.bare e.bare) := rfl

@[simp] theorem Expr.bare_of_binary (o : Token) (l r : Expr) :
    (Expr.of (.binary o l r)).bare = .of (.binary o.bare l.bare r.bare) := rfl

@[simp] theorem Expr.bare_of_logical (o : Token) (l r : Expr) :
    (Expr.of (.logical o l r)).bare = .of (.logical o.bare l.bare r.bare) := rfl

@[simp] theorem Expr.bare_of_apply (o : Token) (f a : Expr) :
    (Expr.of (.apply o f a)).bare = .of (.apply o.bare f.bare a.bare) := rfl

@[simp] theorem Expr.bare_of_tuple (es : List Expr) :
    (Expr.of (.tuple es)).bare = .of (.tuple (es.map Expr.bare)) := by
  simp only [Expr.bare, Expr.retoken_of, Node.retoken, retokenExprs_eq_map]

@[simp] theorem Expr.bare_of_list (es : List Expr) :
    (Expr.of (.list es)).bare = .of (.list (es.map Expr.bare)) := by
  simp only [Expr.bare, Expr.retoken_of, Node.retoken, retokenExprs_eq_map]

@[simp] theorem Expr.bare_of_function (cs : List Case) :
    (Expr.of (.function cs)).bare = .of (.function (cs.map Case.bare)) := by
  simp only [Expr.bare, Expr.retoken_of, Node.retoken, retokenCases_eq_map]
  rfl

@[simp] theorem Decl.bare_evaluated (e : Expr) : (Decl.evaluated e).bare = .evaluated e.bare := rfl

@[simp] theorem Decl.bare_constant (n : Token) (t : Option Token) (e : Expr) :
    (Decl.constant n t e).bare = .constant n.bare (t.map Token.bare) e.bare := rfl

/-- Kinds and lexemes stay. -/
def Keeps (f : Token → Token) : Prop := ∀ t, (f t).kind = t.kind ∧ (f t).lexeme = t.lexeme

theorem keeps_bare : Keeps Token.bare := fun _ => ⟨rfl, rfl⟩

section
open Reading

variable {f g : Token → Token} (hf : ∀ t, (f t).kind = t.kind)
include hf

theorem pattern?_retoken (e : Expr) :
    pattern? (e.retoken f g) = (pattern? e).map (Pattern.retoken f) := by
  unfold pattern?
  rw [Expr.node_retoken]
  cases e.node with
  | unary o operand =>
    simp only [Node.retoken, hf]
    split
    · rw [Expr.node_retoken]
      cases operand.node with
      | literal l => cases l <;> rfl
      | _ => rfl
    · rfl
  | _ => rfl

theorem target?_retoken (e : Expr) :
    target? (e.retoken f g) = (target? e).map fun (n, t) => (f n, t.map f) := by
  unfold target?
  rw [Expr.node_retoken]
  cases e.node with
  | binary o l r =>
    simp only [Node.retoken, hf]
    split
    · rw [Expr.node_retoken, Expr.node_retoken]
      cases l.node <;> cases r.node <;> rfl
    · rfl
  | _ => rfl

theorem join_retoken (o : Token) (l r : Expr) :
    (join o l r).retoken f f = join (f o) (l.retoken f f) (r.retoken f f) := by
  unfold join
  rw [Expr.retoken_of, hf]
  split <;> rfl

end

theorem join_bare (o : Token) (l r : Expr) :
    (Reading.join o l r).bare = Reading.join o.bare l.bare r.bare :=
  join_retoken Token.kind_bare o l r

end ArrowLang
