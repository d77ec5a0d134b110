import ArrowLang.Grammar.Expression

/-!
# Trees of operator chains

Which tree a chain of operators has, said of the whole chain and without a reader. The root is among
the operators that bind loosest, and what stands on its two sides are chains again.
-/
namespace ArrowLang

namespace TokenKind

/-- How tightly an operator binds. -/
def level (k : TokenKind) : Nat := (Binding.of k).precedence.level

def GroupsRight (k : TokenKind) : Prop := (Binding.of k).associativity = some .right

instance (k : TokenKind) : Decidable k.GroupsRight := inferInstanceAs (Decidable (_ = _))

end TokenKind

/-- No operator of the chain binds more loosely. -/
def Loosest (ks : List TokenKind) (k : TokenKind) : Prop := ∀ k' ∈ ks, k.level ≤ k'.level

instance (ks : List TokenKind) (k : TokenKind) : Decidable (Loosest ks k) :=
  inferInstanceAs (Decidable (∀ k' ∈ ks, k.level ≤ k'.level))

/-- Where the root of a chain is among its operators: it is the first of the loosest ones that
associate to the right, and the last of the loosest ones if none of them does. -/
def rootIndex (ks : List TokenKind) : Nat :=
  match ks.findIdx? fun k => Loosest ks k ∧ k.GroupsRight with
  | some i => i
  | none => ks.length - 1 - ks.reverse.findIdx fun k => Loosest ks k

theorem rootIndex_lt {ks : List TokenKind} (h : ks ≠ []) : rootIndex ks < ks.length := by
  have hlen := List.length_pos_iff.mpr h
  unfold rootIndex
  split
  · next i hi =>
    obtain ⟨hlt, -⟩ := List.findIdx?_eq_some_iff_getElem.mp hi
    exact hlt
  · omega

/-- The node that an operator is in the tree. An arrow points at the function. -/
def operation (o : Token) (left right : Expr) : Expr :=
  if o.kind = .andWord ∨ o.kind = .orWord then .of (.logical o left right)
  else if o.kind = .rightArrow then .of (.apply o right left)
  else if o.kind = .leftArrow then .of (.apply o left right)
  else .of (.binary o left right)

/-- The operators of a chain, without what is kept of their right operands. -/
def kindsOf {α : Type} (links : List (Token × α)) : List TokenKind := links.map fun l => l.1.kind

theorem length_of_drop {α : Type} {xs rest : List α} {i : Nat} {x : α}
    (h : xs.drop i = x :: rest) : i + 1 + rest.length = xs.length := by
  have hlen := congrArg List.length h
  simp only [List.length_drop, List.length_cons] at hlen
  omega

/-- The tree of a chain: of an operand, and of operators with the operand behind each of them. -/
def chainTree (x : Expr) (links : List (Token × Expr)) : Expr :=
  match _ : links.drop (rootIndex (kindsOf links)) with
  | [] => x
  | (o, y) :: rest =>
    operation o (chainTree x (links.take (rootIndex (kindsOf links)))) (chainTree y rest)
termination_by links.length
decreasing_by
  · have hlen := length_of_drop ‹_›
    rw [List.length_take]
    omega
  · have hlen := length_of_drop ‹_›
    omega

/-- An operator of a chain that is its root, told from the operators on its two sides. -/
structure IsRoot (ls : List TokenKind) (k : TokenKind) (rs : List TokenKind) : Prop where
  left : ∀ l ∈ ls, k.level ≤ l.level ∧ (l.GroupsRight → k.level < l.level)
  right : ∀ r ∈ rs, k.level ≤ r.level ∧ (¬ k.GroupsRight → k.level < r.level)

namespace IsRoot

variable {ls rs : List TokenKind} {k : TokenKind}

theorem loosest (h : IsRoot ls k rs) : Loosest (ls ++ k :: rs) k := by
  intro k' hk'
  rcases List.mem_append.mp hk' with hl | hr
  · exact (h.left k' hl).1
  · rcases List.mem_cons.mp hr with rfl | hr
    · exact Nat.le_refl _
    · exact (h.right k' hr).1

/-- What binds more tightly than the root is not among the loosest. -/
theorem not_loosest {k' : TokenKind} (hk : k.level < k'.level) : ¬ Loosest (ls ++ k :: rs) k' :=
  fun hl => Nat.not_le_of_lt hk (hl k (by simp))

theorem rootIndex_eq (h : IsRoot ls k rs) : rootIndex (ls ++ k :: rs) = ls.length := by
  have hleft : ∀ l ∈ ls, ¬ (Loosest (ls ++ k :: rs) l ∧ l.GroupsRight) :=
    fun l hl ⟨hloose, hr⟩ => not_loosest ((h.left l hl).2 hr) hloose
  have hnone : ls.findIdx? (fun k' => Loosest (ls ++ k :: rs) k' ∧ k'.GroupsRight) = none := by
    simpa [List.findIdx?_eq_none_iff] using hleft
  unfold rootIndex
  by_cases hk : k.GroupsRight
  · rw [List.findIdx?_append, hnone, List.findIdx?_cons, if_pos (by simpa using ⟨h.loosest, hk⟩)]
    simp
  · have hright : ∀ r ∈ rs, ¬ Loosest (ls ++ k :: rs) r :=
      fun r hr => not_loosest ((h.right r hr).2 hk)
    have hrest : rs.findIdx? (fun k' => Loosest (ls ++ k :: rs) k' ∧ k'.GroupsRight) = none := by
      simpa [List.findIdx?_eq_none_iff] using fun r hr hl => absurd hl (hright r hr)
    -- none of the loosest associates to the right, and none of them is behind the root
    have hlast : rs.reverse.findIdx (fun k' => decide (Loosest (ls ++ k :: rs) k')) = rs.length := by
      rw [List.findIdx_eq_length_of_false, List.length_reverse]
      simpa using hright
    rw [List.findIdx?_append, hnone, List.findIdx?_cons, if_neg (by simp [hk]), hrest]
    simp [List.findIdx_append, List.findIdx_cons, hlast, h.loosest]

/-- A colon associates to the right, so it comes before the last of the signs as tight as it. -/
example : rootIndex [.plus, .colon, .minus, .star] = 1 := by decide

end IsRoot

@[simp] theorem chainTree_nil (x : Expr) : chainTree x [] = x := by
  rw [chainTree]
  split
  · rfl
  · next h => simp at h

/-- The sides of the root are chains. -/
theorem IsRoot.chainTree_eq {x y : Expr} {ls rs : List (Token × Expr)} {o : Token}
    (h : IsRoot (kindsOf ls) o.kind (kindsOf rs)) :
    chainTree x (ls ++ (o, y) :: rs) = operation o (chainTree x ls) (chainTree y rs) := by
  have hi : rootIndex (kindsOf (ls ++ (o, y) :: rs)) = ls.length := by
    have hk : kindsOf (ls ++ (o, y) :: rs) = kindsOf ls ++ o.kind :: kindsOf rs := by
      simp [kindsOf]
    rw [hk, h.rootIndex_eq, kindsOf, List.length_map]
  have hdrop : (ls ++ (o, y) :: rs).drop (rootIndex (kindsOf (ls ++ (o, y) :: rs))) =
      (o, y) :: rs := by
    rw [hi, List.drop_left]
  rw [chainTree]
  split
  · next hnil => simp [hdrop] at hnil
  · next hcons =>
    rw [hdrop] at hcons
    obtain ⟨hl, rfl⟩ := List.cons.inj hcons
    obtain ⟨rfl, rfl⟩ := Prod.mk.inj hl
    rw [hi, List.take_left]

end ArrowLang
