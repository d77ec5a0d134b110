import ArrowLang.Proofs.Lexed
import ArrowLang.Proofs.Decimals
import ArrowLang.Proofs.Sound

/-!
# Well-formed trees

The trees that have a canonical text which is read back. Every tree that is read is one of them.
-/
namespace ArrowLang

namespace TokenKind

def IsUnary (k : TokenKind) : Prop := k = .minus ∨ k = .notWord

def IsLogical (k : TokenKind) : Prop := k = .andWord ∨ k = .orWord

def IsArrow (k : TokenKind) : Prop := k = .leftArrow ∨ k = .rightArrow

/-- All other kinds that join two sides. -/
def IsBinary (k : TokenKind) : Prop :=
  (Binding.of k).associativity.isSome ∧ ¬ k.IsLogical ∧ ¬ k.IsArrow

end TokenKind

open Decimal (Binary64)

/-- A literal without a sign; zero with a minus has one. -/
def Literal.Unsigned : Literal → Prop
  | .int n => 0 ≤ n ∧ n ≤ 2147483647
  | .float v => ∃ m e h, v = .finite false m e h
  | .bool _ => True
  | .text s => '\\' ∉ s.toList

/-- A literal that may have a minus. -/
def Literal.Signed : Literal → Prop
  | .int n => -2147483647 ≤ n ∧ n ≤ 2147483647
  | .float v => v.isFinite
  | .bool _ => True
  | .text s => '\\' ∉ s.toList

theorem Literal.Unsigned.signed {l : Literal} (h : l.Unsigned) : l.Signed := by
  cases l with
  | int n =>
    obtain ⟨h₁, h₂⟩ := h
    constructor <;> omega
  | float v =>
    obtain ⟨m, e, hn, rfl⟩ := h
    rfl
  | bool b => trivial
  | text s => exact h

def Pattern.WellFormed : Pattern → Prop
  | .literal l => l.Signed
  | .name t => t.IsIdentifier
  | .stray _ => False

mutual

/-- Types are those of the nodes, operators suit the nodes that they stand in. -/
inductive Expr.WellFormed : Expr → Prop where
  | literal {l : Literal} : l.Unsigned → Expr.WellFormed (.of (.literal l))
  | name {t : Token} : t.IsIdentifier → Expr.WellFormed (.of (.name t))
  | unary {o : Token} {x : Expr} : o.Spelled → o.kind.IsUnary → Expr.WellFormed x →
      Expr.WellFormed (.of (.unary o x))
  | binary {o : Token} {l r : Expr} : o.Spelled → o.kind.IsBinary → Expr.WellFormed l →
      Expr.WellFormed r → Expr.WellFormed (.of (.binary o l r))
  | logical {o : Token} {l r : Expr} : o.Spelled → o.kind.IsLogical → Expr.WellFormed l →
      Expr.WellFormed r → Expr.WellFormed (.of (.logical o l r))
  | apply {o : Token} {f a : Expr} : o.Spelled → o.kind.IsArrow → Expr.WellFormed f →
      Expr.WellFormed a → Expr.WellFormed (.of (.apply o f a))
  | function {cs : List Case} : cs ≠ [] → (∀ c ∈ cs, Case.WellFormed c) →
      Expr.WellFormed (.of (.function cs))
  | tuple {es : List Expr} : 2 ≤ es.length → (∀ e ∈ es, Expr.WellFormed e) →
      Expr.WellFormed (.of (.tuple es))
  | list {es : List Expr} : (∀ e ∈ es, Expr.WellFormed e) → Expr.WellFormed (.of (.list es))

inductive Case.WellFormed : Case → Prop where
  | mk {p : Pattern} {gs : List Guard} : p.WellFormed → gs ≠ [] →
      (∀ g ∈ gs, Guard.WellFormed g) → Case.WellFormed (.mk p gs)

inductive Guard.WellFormed : Guard → Prop where
  | mk {c v : Expr} : Expr.WellFormed c → Expr.WellFormed v → Guard.WellFormed (.mk c v)

end

def Decl.WellFormed : Decl → Prop
  | .constant n t e => n.IsIdentifier ∧ (∀ u, t = some u → u.IsIdentifier) ∧ e.WellFormed
  | .evaluated e => e.WellFormed
  | .stray _ => False

theorem Expr.wellFormed_always : Expr.always.WellFormed := .literal trivial

theorem TokenKind.spelling_of_infix {k : TokenKind} (h : (Binding.of k).associativity.isSome) :
    k.spelling?.isSome := by
  cases k <;> first | rfl | cases h

theorem TokenKind.spelling_of_unary {k : TokenKind} (h : k.IsUnary) : k.spelling?.isSome := by
  rcases h with rfl | rfl <;> rfl

namespace Reading

/-- A literal that a number token gives has no sign. -/
theorem unsigned_of_number {t : Token} {l : Literal} (h : number t = .ok l) : l.Unsigned := by
  rcases hs : splitPoint t.lexeme.toList with ⟨whole, _ | fraction⟩
  · rw [number_whole hs] at h
    split at h
    · cases h
    · split at h
      · cases h
      · split at h
        · next hlt =>
          cases h
          constructor <;> omega
        · cases h
  · rw [number_pointed hs] at h
    split at h
    · next hf =>
      cases h
      rcases hv : Decimal.ofParts false whole fraction 0 with ⟨s, m, e, hn⟩ | s | _
      · obtain rfl := Decimal.ofDecimal_sign hv
        exact ⟨m, e, hn, rfl⟩
      · rw [hv] at hf
        cases hf
      · rw [hv] at hf
        cases hf
    · cases h

/-- A number that is refused is blamed itself. -/
theorem token_of_number {t u : Token} {g : GrammarFault} (h : number t = .error (.fault g u)) :
    u = t := by
  rcases hs : splitPoint t.lexeme.toList with ⟨whole, _ | fraction⟩
  · rw [number_whole hs] at h
    split at h
    · cases h
      rfl
    · split at h
      · cases h
      · split at h <;> cases h
        rfl
  · rw [number_pointed hs] at h
    split at h <;> cases h
    rfl

theorem wellFormed_join {o : Token} {l r : Expr} (ho : o.Lexed)
    (hi : (Binding.of o.kind).associativity.isSome) (hl : l.WellFormed) (hr : r.WellFormed) :
    (join o l r).WellFormed := by
  have hs := ho.spelled_of_isSome (TokenKind.spelling_of_infix hi)
  unfold join
  split
  · next hk => exact .logical hs (.inl hk) hl hr
  · next hk => exact .logical hs (.inr hk) hl hr
  · next hk => exact .apply hs (.inr hk) hr hl
  · next hk => exact .apply hs (.inl hk) hl hr
  · next h₁ h₂ h₃ h₄ =>
    refine .binary hs ⟨hi, ?_, ?_⟩ hl hr
    · exact fun hk => hk.elim h₁ h₂
    · exact fun hk => hk.elim h₄ h₃

theorem wellFormed_pattern {e : Expr} {p : Pattern} (he : e.WellFormed) (h : pattern? e = some p) :
    p.WellFormed := by
  cases he with
  | literal hl =>
    cases h
    exact hl.signed
  | name ht =>
    cases h
    exact ht
  | @unary o x hs ho hx =>
    simp only [pattern?, Expr.of, Expr.node_mk] at h
    split at h
    · cases hx with
      | @literal l hl =>
        cases l with
        | int n =>
          cases h
          obtain ⟨h₁, h₂⟩ := hl
          constructor <;> omega
        | float v =>
          cases h
          obtain ⟨m, e, hn, rfl⟩ := hl
          rfl
        | bool b => cases h
        | text s => cases h
      | _ => cases h
    · cases h
  | _ => cases h

theorem wellFormed_target {e : Expr} {n : Token} {u : Option Token} (he : e.WellFormed)
    (h : target? e = some (n, u)) : n.IsIdentifier ∧ ∀ t, u = some t → t.IsIdentifier := by
  cases he with
  | name ht =>
    cases h
    exact ⟨ht, nofun⟩
  | @binary o l r hs ho hl hr =>
    simp only [target?, Expr.of, Expr.node_mk] at h
    split at h
    · cases hl with
      | name ht =>
        cases hr with
        | name hu =>
          cases h
          exact ⟨ht, fun t ht => Option.some.inj ht ▸ hu⟩
        | _ => cases h
      | _ => cases h
    · cases h
  | _ => cases h

end Reading
end ArrowLang
