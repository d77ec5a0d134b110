import ArrowLang.Grammar.Program
import Mathlib

/-!
# The grammar

Which tokens are a program, said without a reader. Where the grammar asks what tree an expression
has, it asks for the shape of that tree, which does not depend on where the operators of a chain
would set their brackets.
-/
namespace ArrowLang

/-- What the grammar tells apart of trees. -/
inductive Shape where
  /-- A bare identifier. -/
  | name
  /-- A colon between two bare identifiers. -/
  | typed
  /-- A literal that is a number, and one behind a minus. -/
  | number | negated
  /-- Any other literal. -/
  | literal
  | other
  deriving DecidableEq, Repr

namespace Shape

/-- The shape that a unary operator makes of its operand. -/
def unary (k : TokenKind) (s : Shape) : Shape :=
  if k = .minus ∧ s = .number then .negated else .other

/-- The shape that an operator makes of its two sides. -/
def joined (k : TokenKind) (l r : Shape) : Shape :=
  if k = .colon ∧ l = .name ∧ r = .name then .typed else .other

/-- The shape of a chain of operators: more than one never make a typed name. -/
def chain (s : Shape) : List (TokenKind × Shape) → Shape
  | [] => s
  | [(k, r)] => joined k s r
  | _ => .other

/-- What may stand in front of `=`. -/
def IsTarget (s : Shape) : Prop := s = .name ∨ s = .typed

/-- What may stand in front of a bar. -/
def IsPattern (s : Shape) : Prop := s = .name ∨ s = .number ∨ s = .literal ∨ s = .negated

end Shape

/-- The value of a number token fits: an integer in 32 bits, a number with a point in a float. -/
def Token.Fits (t : Token) : Prop :=
  match Reading.splitPoint t.lexeme.toList with
  | (whole, none) => Decimal.digitsValue whole ≤ 2147483647
  | (whole, some fraction) => (Decimal.ofParts false whole fraction 0).isFinite

def Newlines (ts : List Token) : Prop := ∀ t ∈ ts, t.kind = .newline

@[simp] theorem newlines_nil : Newlines [] := nofun

@[simp] theorem newlines_cons {t : Token} {ts : List Token} :
    Newlines (t :: ts) ↔ t.kind = .newline ∧ Newlines ts := by
  simp only [Newlines, List.mem_cons, forall_eq_or_imp]

@[simp] theorem newlines_append {ts us : List Token} :
    Newlines (ts ++ us) ↔ Newlines ts ∧ Newlines us := by
  simp only [Newlines, List.mem_append, or_imp, forall_and]

/-- The symbols of the grammar. The ones with a plural stand for any number of parts, each behind
what divides it from the part before. -/
inductive Phrase where
  | operand (s : Shape)
  | operators (ss : List (TokenKind × Shape))
  | expr (s : Shape)
  | item (s : Shape)
  | items
  | guard
  | guards
  | case
  | cases
  | form
  | forms
  | program

/-- The tokens that a symbol derives. -/
inductive Derives : Phrase → List Token → Prop where
  | number {t : Token} : t.kind = .number → t.Fits → Derives (.operand .number) [t]
  | text {t : Token} : t.kind = .string → Derives (.operand .literal) [t]
  | boolean {t : Token} : t.kind = .trueWord ∨ t.kind = .falseWord → Derives (.operand .literal) [t]
  | name {t : Token} : t.kind = .identifier → Derives (.operand .name) [t]
  | unary {o : Token} {s : Shape} {ts : List Token} : o.kind = .minus ∨ o.kind = .notWord →
      Derives (.operand s) ts → Derives (.operand (.unary o.kind s)) (o :: ts)
  | group {o c : Token} {s : Shape} {ts : List Token} : o.kind = .leftParen →
      Derives (.item s) ts → c.kind = .rightParen → Derives (.operand s) (o :: (ts ++ [c]))
  | tuple {o c : Token} {s : Shape} {ts us : List Token} : o.kind = .leftParen →
      Derives (.item s) ts → Derives .items us → us ≠ [] → c.kind = .rightParen →
      Derives (.operand .other) (o :: (ts ++ us ++ [c]))
  | emptyList {o c : Token} {ns : List Token} : o.kind = .leftSquare → Newlines ns →
      c.kind = .rightSquare → Derives (.operand .other) (o :: (ns ++ [c]))
  | list {o c : Token} {s : Shape} {ts us : List Token} : o.kind = .leftSquare →
      Derives (.item s) ts → Derives .items us → c.kind = .rightSquare →
      Derives (.operand .other) (o :: (ts ++ us ++ [c]))
  | function {o c : Token} {ts us : List Token} : o.kind = .leftBrace → Derives .case ts →
      Derives .cases us → c.kind = .rightBrace → Derives (.operand .other) (o :: (ts ++ us ++ [c]))
  | noOperators : Derives (.operators []) []
  | operators {o : Token} {s : Shape} {ss : List (TokenKind × Shape)} {ts us : List Token} :
      (Binding.of o.kind).associativity.isSome → Derives (.operand s) ts →
      Derives (.operators ss) us → Derives (.operators ((o.kind, s) :: ss)) (o :: ts ++ us)
  | expr {s : Shape} {ss : List (TokenKind × Shape)} {ts us : List Token} : Derives (.operand s) ts →
      Derives (.operators ss) us → Derives (.expr (s.chain ss)) (ts ++ us)
  | item {s : Shape} {ns ts ms : List Token} : Newlines ns → Derives (.expr s) ts → Newlines ms →
      Derives (.item s) (ns ++ ts ++ ms)
  | noItems : Derives .items []
  | items {c : Token} {s : Shape} {ts us : List Token} : c.kind = .comma → Derives (.item s) ts →
      Derives .items us → Derives .items (c :: ts ++ us)
  | plain {s : Shape} {ts : List Token} : Derives (.item s) ts → Derives .guard ts
  | conditional {q : Token} {s s' : Shape} {ts us : List Token} : Derives (.item s) ts →
      q.kind = .question → Derives (.item s') us → Derives .guard (ts ++ q :: us)
  | noGuards : Derives .guards []
  | guards {c : Token} {ts us : List Token} : c.kind = .comma → Derives .guard ts →
      Derives .guards us → Derives .guards (c :: ts ++ us)
  | case {b : Token} {s : Shape} {ts us vs : List Token} : Derives (.item s) ts → s.IsPattern →
      b.kind = .pipe → Derives .guard us → Derives .guards vs → Derives .case (ts ++ b :: us ++ vs)
  | noCases : Derives .cases []
  | cases {c : Token} {ts us : List Token} : c.kind = .comma → Derives .case ts →
      Derives .cases us → Derives .cases (c :: ts ++ us)
  | evaluated {s : Shape} {ts : List Token} : Derives (.expr s) ts → Derives .form ts
  | constant {q : Token} {s s' : Shape} {ts us : List Token} : Derives (.expr s) ts → s.IsTarget →
      q.kind = .equal → Derives (.expr s') us → Derives .form (ts ++ q :: us)
  | noForms : Derives .forms []
  | forms {ns ts us : List Token} : Newlines ns → ns ≠ [] → Derives .form ts → Derives .forms us →
      Derives .forms (ns ++ ts ++ us)
  | empty {ns : List Token} {e : Token} : Newlines ns → e.kind = .endOfText →
      Derives .program (ns ++ [e])
  | program {ns ts us ms : List Token} {e : Token} : Newlines ns → Derives .form ts →
      Derives .forms us → Newlines ms → e.kind = .endOfText →
      Derives .program (ns ++ ts ++ us ++ ms ++ [e])

namespace Shape

theorem joined_ne_name (k : TokenKind) (l r : Shape) : joined k l r ≠ .name := by
  unfold joined
  split <;> simp

theorem chain_ne_name {s : Shape} {ss : List (TokenKind × Shape)} (h : ss ≠ []) :
    s.chain ss ≠ .name := by
  match ss with
  | [] => exact absurd rfl h
  | [(k, r)] => exact joined_ne_name k s r
  | _ :: _ :: _ => exact nofun

/-- Brackets in a chain do not change its shape. -/
theorem chain_joined (s s' : Shape) (k : TokenKind) (ss ss' : List (TokenKind × Shape)) :
    s.chain (ss ++ (k, s') :: ss') = joined k (s.chain ss) (s'.chain ss') := by
  rcases ss with _ | ⟨x, _ | ⟨y, ss⟩⟩
  · rcases ss' with _ | ⟨x', ss'⟩
    · rfl
    · have h : s'.chain (x' :: ss') ≠ .name := chain_ne_name (by simp)
      rw [joined, if_neg fun hk => h hk.2.2]
      rfl
  · have h : s.chain [x] ≠ .name := chain_ne_name (by simp)
    rw [joined, if_neg fun hk => h hk.2.1]
    rfl
  · have h : s.chain (x :: y :: ss) ≠ .name := chain_ne_name (by simp)
    rw [joined, if_neg fun hk => h hk.2.1]
    rfl

end Shape

namespace Expr

/-- Whether a tree is a literal that is a number. -/
def isNumber (e : Expr) : Bool :=
  match e.node with
  | .literal (.int _) => true
  | .literal (.float _) => true
  | _ => false

def isName (e : Expr) : Bool :=
  match e.node with
  | .name _ => true
  | _ => false

/-- What the grammar sees of a tree. -/
def shape (e : Expr) : Shape :=
  match e.node with
  | .name _ => .name
  | .literal _ => if e.isNumber then .number else .literal
  | .unary o x => if o.kind = .minus ∧ x.isNumber then .negated else .other
  | .binary o l r => if o.kind = .colon ∧ l.isName ∧ r.isName then .typed else .other
  | _ => .other

theorem shape_unary_node (o : Token) (x : Expr) (t : TypeTag) : (Expr.mk (.unary o x) t).shape =
    if o.kind = .minus ∧ x.isNumber then .negated else .other := rfl

theorem shape_binary_node (o : Token) (l r : Expr) (t : TypeTag) :
    (Expr.mk (.binary o l r) t).shape =
      if o.kind = .colon ∧ l.isName ∧ r.isName then .typed else .other := rfl

theorem shape_eq_number (e : Expr) : e.shape = .number ↔ e.isNumber := by
  obtain ⟨n, t⟩ := e
  cases n with
  | literal l => cases l <;> simp [shape, isNumber]
  | unary o x =>
    rw [shape_unary_node]
    split <;> simp [isNumber]
  | binary o l r =>
    rw [shape_binary_node]
    split <;> simp [isNumber]
  | _ => simp [shape, isNumber]

theorem shape_eq_name (e : Expr) : e.shape = .name ↔ e.isName := by
  obtain ⟨n, t⟩ := e
  cases n with
  | literal l => cases l <;> simp [shape, isName, isNumber]
  | unary o x =>
    rw [shape_unary_node]
    split <;> simp [isName]
  | binary o l r =>
    rw [shape_binary_node]
    split <;> simp [isName]
  | _ => simp [shape, isName]

theorem shape_unary (o : Token) (e : Expr) :
    (Expr.of (.unary o e)).shape = .unary o.kind e.shape := by
  simp only [Shape.unary, shape_eq_number]
  rfl

theorem shape_join (o : Token) (l r : Expr) :
    (Reading.join o l r).shape = .joined o.kind l.shape r.shape := by
  simp only [Shape.joined, shape_eq_name]
  unfold Reading.join
  split <;> simp_all [Expr.of, shape]

end Expr

namespace Reading

variable {t : Token} {whole fraction : List Char}

theorem number_whole (h : splitPoint t.lexeme.toList = (whole, none)) : number t =
    if (whole.dropWhile (· = '0')).length > 10 then
      .error (.fault (.invalidNumber GrammarFault.integerRange) t)
    else if whole.length > maxDigits then .error (.abort (.tooManyDigits whole.length))
    else if Decimal.digitsValue whole < 2 ^ 31 then .ok (.int (Decimal.digitsValue whole))
    else .error (.fault (.invalidNumber GrammarFault.integerRange) t) := by
  rw [number, h]

theorem number_pointed (h : splitPoint t.lexeme.toList = (whole, some fraction)) : number t =
    if (Decimal.ofParts false whole fraction 0).isFinite then
      .ok (.float (Decimal.ofParts false whole fraction 0))
    else .error (.fault (.invalidNumber GrammarFault.floatRange) t) := by
  rw [number, h]

/-- A number token that gives a literal fits. -/
theorem fits_of_number {l : Literal} (h : number t = .ok l) :
    t.Fits ∧ (Expr.of (.literal l)).shape = .number := by
  unfold Token.Fits
  rcases hs : splitPoint t.lexeme.toList with ⟨whole, _ | fraction⟩
  · rw [number_whole hs] at h
    split at h
    · cases h
    · split at h
      · cases h
      · split at h
        · next hlt =>
          cases h
          exact ⟨by dsimp only; omega, rfl⟩
        · cases h
  · rw [number_pointed hs] at h
    split at h
    · next hf =>
      cases h
      exact ⟨hf, rfl⟩
    · cases h

/-- A tree that stands for a name, or a name with a type, is one. -/
theorem isSome_target? (e : Expr) : (target? e).isSome ↔ e.shape.IsTarget := by
  obtain ⟨n, t⟩ := e
  cases n with
  | literal l => cases l <;> simp [target?, Expr.shape, Shape.IsTarget, Expr.isNumber]
  | unary o x =>
    rw [Expr.shape_unary_node]
    split <;> simp [target?, Shape.IsTarget]
  | binary o l r =>
    rw [Expr.shape_binary_node]
    by_cases ho : o.kind = .colon
    · rcases l with ⟨l, _⟩
      rcases r with ⟨r, _⟩
      cases l <;> cases r <;> simp [target?, ho, Expr.isName, Shape.IsTarget]
    · simp [target?, ho, Shape.IsTarget]
  | _ => simp [target?, Expr.shape, Shape.IsTarget]

/-- A tree that stands for a pattern is one. -/
theorem isSome_pattern? (e : Expr) : (pattern? e).isSome ↔ e.shape.IsPattern := by
  obtain ⟨n, t⟩ := e
  cases n with
  | literal l => cases l <;> simp [pattern?, Expr.shape, Shape.IsPattern, Expr.isNumber]
  | unary o x =>
    rw [Expr.shape_unary_node]
    by_cases ho : o.kind = .minus
    · rcases x with ⟨x, _⟩
      cases x with
      | literal l => cases l <;> simp [pattern?, ho, Expr.isNumber, Shape.IsPattern]
      | _ => simp [pattern?, ho, Expr.isNumber, Shape.IsPattern]
    · simp [pattern?, ho, Shape.IsPattern]
  | binary o l r =>
    rw [Expr.shape_binary_node]
    split <;> simp [pattern?, Shape.IsPattern]
  | _ => simp [pattern?, Expr.shape, Shape.IsPattern]

end Reading
end ArrowLang
