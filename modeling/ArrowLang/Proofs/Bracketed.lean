import ArrowLang.Proofs.Bare
import ArrowLang.Proofs.Gives

/-!
# Chains as they are read

Where a chain of operators is read its brackets are set at the roots, so it has the tree that the
chain as a whole tells.
-/
namespace ArrowLang

open Reading

theorem join_eq_operation (o : Token) (l r : Expr) : join o l r = operation o l r := by
  unfold join operation
  cases o.kind <;> rfl

section
variable {α : Type} {s : α → Token × (Expr → Prop)} {l : α → Token × Expr}

/-- The links tell the operators and their right operands but for positions. -/
def LinksTell (s : α → Token × (Expr → Prop)) (l : α → Token × Expr) (os : List α) : Prop :=
  ∀ a ∈ os, (s a).1.bare = (l a).1 ∧ ∀ e, (s a).2 e → e.bare = (l a).2

theorem LinksTell.kindsOf_eq {os : List α} (h : LinksTell s l os) :
    kindsOf (os.map s) = kindsOf (os.map l) := by
  simp only [kindsOf, List.map_map]
  refine List.map_congr_left fun a ha => ?_
  show (s a).1.kind = (l a).1.kind
  rw [← (h a ha).1, Token.kind_bare]

/-- However a chain is read, its brackets are set at the roots. -/
theorem Bracketed.bare_eq {Q : Expr → Prop} {os : List α} {x e : Expr}
    (h : Bracketed Q (os.map s) e) (hx : ∀ e, Q e → e.bare = x) (hl : LinksTell s l os) :
    e.bare = chainTree x (os.map l) := by
  generalize hss : os.map s = ss at h
  induction h generalizing x os with
  | single he =>
    obtain rfl := List.map_eq_nil_iff.mp hss
    rw [List.map_nil, chainTree_nil, hx _ he]
  | @join Q Q' ss ss' o left right hroot _ _ ihl ihr =>
    obtain ⟨os₁, os₂, rfl, rfl, h₂⟩ := List.map_eq_append_iff.mp hss
    obtain ⟨a, os₃, rfl, ha, rfl⟩ := List.map_eq_cons_iff.mp h₂
    have hl₁ : LinksTell s l os₁ := fun b hb => hl b (by simp [hb])
    have hl₂ : LinksTell s l os₃ := fun b hb => hl b (by simp [hb])
    obtain ⟨ho, hy⟩ := hl a (by simp)
    rw [ha] at ho hy
    have hla : l a = (o.bare, (l a).2) := Prod.ext ho.symm rfl
    rw [hl₁.kindsOf_eq, hl₂.kindsOf_eq] at hroot
    calc (Reading.join o left right).bare = operation o.bare left.bare right.bare := by
          rw [join_bare, join_eq_operation]
      _ = operation o.bare (chainTree x (os₁.map l)) (chainTree (l a).2 (os₃.map l)) := by
          rw [ihl hx hl₁ rfl, ihr hy hl₂ rfl]
      _ = chainTree x ((os₁ ++ a :: os₃).map l) := by
          rw [List.map_append, List.map_cons, hla]
          exact (IsRoot.chainTree_eq (o := o.bare) hroot).symm

theorem bracketed_nil {Q : Expr → Prop} {e : Expr} (h : Bracketed Q [] e) : Q e := by
  generalize hs : ([] : List (Token × (Expr → Prop))) = ss at h
  cases h with
  | single h => exact h
  | join _ _ _ => simp at hs

/-- An operand is a chain without operators. -/
theorem ExprYields.of_operand {excuse : Failure → Prop} {ts : List Token} {Q : Expr → Prop}
    (deep : excuse (.tooDeep none)) (h : OperandYields excuse ts Q) : ExprYields excuse ts Q := by
  have he := ExprYields.of_chain deep h .nil
  rw [List.append_nil] at he
  exact he.imp fun _ => bracketed_nil

/-- Where a chain is read, its operands are. -/
theorem Bracketed.exists {Q : Expr → Prop} {ss : List (Token × (Expr → Prop))} {e : Expr}
    (h : Bracketed Q ss e) : (∃ x, Q x) ∧ ∀ s ∈ ss, ∃ x, s.2 x := by
  induction h with
  | single he => exact ⟨⟨_, he⟩, by simp⟩
  | join _ _ _ ihl ihr =>
    refine ⟨ihl.1, fun s hs => ?_⟩
    rcases List.mem_append.mp hs with hs | hs
    · exact ihl.2 s hs
    · rcases List.mem_cons.mp hs with rfl | hs
      · exact ihr.1
      · exact ihr.2 s hs

end

/-- What the grammar sees of the operators of a chain and their right operands. -/
def shapes (links : List (Token × Expr)) : List (TokenKind × Shape) :=
  links.map fun (o, x) => (o.kind, x.shape)

theorem Expr.shape_operation (o : Token) (l r : Expr) :
    (operation o l r).shape = .joined o.kind l.shape r.shape := by
  rw [← join_eq_operation, shape_join]

theorem Expr.shape_chainTree (x : Expr) (links : List (Token × Expr)) :
    (chainTree x links).shape = x.shape.chain (shapes links) := by
  fun_induction chainTree x links with
  | case1 x links h =>
    obtain rfl : links = [] := by
      by_contra hne
      have hlt : rootIndex (kindsOf links) < (kindsOf links).length :=
        rootIndex_lt (by simpa [kindsOf] using hne)
      rw [kindsOf, List.length_map] at hlt
      exact Nat.not_le_of_lt hlt (List.drop_eq_nil_iff.mp h)
    rfl
  | case2 x links o y rest h ih₁ ih₂ =>
    have hl : links = links.take (rootIndex (kindsOf links)) ++ (o, y) :: rest := by
      rw [← h, List.take_append_drop]
    have hs : shapes links =
        shapes (links.take (rootIndex (kindsOf links))) ++ (o.kind, y.shape) :: shapes rest := by
      conv_lhs => rw [hl]
      simp [shapes]
    rw [Expr.shape_operation, ih₁, ih₂, hs, Shape.chain_joined]

theorem Expr.isNumber_bare (e : Expr) : e.bare.isNumber = e.isNumber := by
  unfold Expr.isNumber
  rw [Expr.bare, Expr.node_retoken]
  cases e.node with
  | literal l => cases l <;> rfl
  | _ => rfl

theorem Expr.isName_bare (e : Expr) : e.bare.isName = e.isName := by
  unfold Expr.isName
  rw [Expr.bare, Expr.node_retoken]
  cases e.node <;> rfl

theorem Expr.shape_bare (e : Expr) : e.bare.shape = e.shape := by
  obtain ⟨n, t⟩ := e
  cases n with
  | unary o x =>
    show (Expr.mk (.unary o.bare x.bare) t).shape = _
    rw [Expr.shape_unary_node, Expr.shape_unary_node, Token.kind_bare, Expr.isNumber_bare]
  | binary o l r =>
    show (Expr.mk (.binary o.bare l.bare r.bare) t).shape = _
    rw [Expr.shape_binary_node, Expr.shape_binary_node, Token.kind_bare, Expr.isName_bare,
      Expr.isName_bare]
  | _ => rfl

end ArrowLang
