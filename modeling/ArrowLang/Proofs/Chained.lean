import ArrowLang.Proofs.Accounting
import ArrowLang.Proofs.RoundTrip
import ArrowLang.Proofs.Strewn

/-!
# Chains of operators in a text

A text of operands with operators between them is read as the tree that the chain as a whole has. An
operand is any text that is one by itself.
-/
namespace ArrowLang

open Cursor (call after gap span FirstEnd)

/-- A text that is one operand and is read, without a diagnostic, as the tree. No comment stands
behind the operand, since in a chain it would hide the operator there. -/
structure IsOperand (text : String) (x : Expr) : Prop where
  derives : ∃ s ts e, (Cursor.ofText text).outcomes = (ts ++ [e]).map .ok ∧ Derives (.operand s) ts
  alone : ∃ stack, Program.read stack text = .ok ⟨[.evaluated x], []⟩
  uncommented : ∀ n, (call text n).isEnd → '#' ∉ gap text n

/-- In a text without a hash there is no comment. -/
theorem hash_not_mem_gap {text : String} (h : '#' ∉ text.toList) (n : Nat) : '#' ∉ gap text n :=
  fun hg => h (List.mem_of_mem_drop (List.mem_of_mem_take hg))

/-- Where a gap ends with a text and has no comment, it goes on over a blank. -/
theorem IsGap.blank {gap : List Char} (h : IsGap gap []) (hc : '#' ∉ gap) (y : List Char) :
    IsGap (gap ++ [' ']) y := by
  obtain ⟨blanks, comment, rfl, hblanks, hcomment⟩ := h
  rcases hcomment with rfl | ⟨words, rfl, -⟩
  · refine ⟨blanks ++ [' '], [], by simp, ?_, .inl rfl⟩
    intro c hc
    rcases List.mem_append.mp hc with hc | hc
    · exact hblanks c hc
    · exact .inl (List.mem_singleton.mp hc)
  · simp at hc

/-- What is left of a text behind some calls is cut alike with a blank and more text behind it. -/
theorem lex_rest_append {text : String} {k : Nat} (hk : FirstEnd text k)
    (hok : ∀ n < k, ∃ t, call text n = .ok t) (hc : '#' ∉ gap text k) (y : List Char) {m n : Nat}
    (h : n + m = k) : lex ((after text n).rest ++ ' ' :: y) =
      (List.range' n m).map (fun i => (call text i).bare) ++ lex y := by
  induction m generalizing n with
  | zero =>
    obtain rfl : n = k := h
    obtain ⟨hrest, -, -⟩ := (Cursor.takes_call text n).of_isEnd hk.ends
    have hgap : (after text n).rest = gap text n := by
      rw [Cursor.rest_skipGap, ← Cursor.gap_eq, hrest, List.append_nil]
    have hblank := Cursor.isGap_call text n
    rw [← (Cursor.takes_call text n).rest, hrest] at hblank
    have hlex := lex_gap (hblank.blank hc y)
    rw [List.append_assoc] at hlex
    simpa [hgap] using hlex
  | succ m ih =>
    have hlt : n < k := by omega
    have he := hk.proceeds n hlt
    obtain ⟨t, ht⟩ := hok n hlt
    obtain ⟨c, tail, hspan, -⟩ := Cursor.head_span ht he
    have hgap : IsGap (gap text n) (span text n ++ ((after text (n + 1)).rest ++ ' ' :: y)) := by
      refine (Cursor.isGap_call text n).mono ?_
      rw [hspan]
      simp
    have hreplaces : Replaces (after text (n + 1)).rest ((after text (n + 1)).rest ++ ' ' :: y) := by
      simpa using replaces_append (after text (n + 1)).rest [] (g := ' ') (.inl rfl) y
    have hline : ((after text (n + 1)).rest ++ ' ' :: y).head? = some '\n' →
        (after text (n + 1)).rest.head? = some '\n' := by
      cases (after text (n + 1)).rest <;> simp
    calc lex ((after text n).rest ++ ' ' :: y)
        = lex (gap text n ++ (span text n ++ ((after text (n + 1)).rest ++ ' ' :: y))) := by
          rw [Cursor.rest_after]
          simp only [List.append_assoc]
      _ = .ok t.bare :: lex ((after text (n + 1)).rest ++ ' ' :: y) := by
          rw [lex_gap hgap, Cursor.lex_span ht he hreplaces fun _ => hline]
      _ = (List.range' n (m + 1)).map (fun i => (call text i).bare) ++ lex y := by
          rw [ih (by omega), List.range'_succ, List.map_cons, ht]
          rfl

/-- Characters that are cut into the tokens, at the end of a text and in front of a blank, and tokens
that are read as the tree wherever they stand. -/
structure IsOperandText (cs : List Char) (ts : List Token) (x : Expr) : Prop where
  inside : ∀ y, lex (cs ++ ' ' :: y) = ts.map .ok ++ lex y
  last : lex cs = (ts ++ [textEnd]).map .ok
  short : ∀ t ∈ ts, t.kind = .number → ¬ Overlong t.lexeme.toList
  reads : ∀ us, us.map Token.bare = ts → OperandYields Hindered us fun e => e.bare = x

/-- Tokens that differ by their positions are the same moved, if no token stands twice. -/
theorem exists_keeps {ts us : List Token} (hd : ts.Nodup)
    (h : us.map Token.bare = ts.map Token.bare) : ∃ g, Keeps g ∧ us = ts.map g := by
  induction ts generalizing us with
  | nil =>
    obtain rfl := List.map_eq_nil_iff.mp h
    exact ⟨id, keeps_id, rfl⟩
  | cons t ts ih =>
    obtain ⟨u, us, rfl, hu, hus⟩ := List.map_eq_cons_iff.mp h
    obtain ⟨hnot, hd⟩ := List.nodup_cons.mp hd
    obtain ⟨g, hg, rfl⟩ := ih hd hus
    refine ⟨Function.update g t u, fun v => ?_, ?_⟩
    · by_cases hv : v = t
      · rw [hv, Function.update_self]
        exact Token.bare_eq_iff.mp hu
      · rw [Function.update_of_ne hv]
        exact hg v
    · rw [List.map_cons, Function.update_self]
      refine congrArg _ (List.map_congr_left fun v hv => ?_)
      rw [Function.update_of_ne]
      rintro rfl
      exact hnot hv

/-- A text of one expression is read as that, unless it nests too deep. -/
theorem Program.read_evaluated {stack : Nat} {text : String} {us : List Token} {e : Token}
    {Q : Expr → Prop} {p : Program} (hus : (Cursor.ofText text).outcomes = (us ++ [e]).map .ok)
    (he : e.kind = .endOfText) (h : ExprYields Hindered us Q) (hp : read stack text = .ok p) :
    (∃ t, .grammar .nestingTooDeep t ∈ p.diagnostics) ∨
      p.diagnostics = [] ∧ ∃ x, Q x ∧ p.decls = [.evaluated x] := by
  refine or_iff_not_imp_left.mpr fun hdeep => ?_
  obtain ⟨hds, hdg⟩ := read_free hp (not_exists.mp hdeep)
  obtain ⟨hs, hdiag, ha⟩ := Window.start_of_outcomes hus
  have ha' : (Window.start text).ahead = us ++ ([] ++ ([] ++ [e])) := by
    rw [ha, h.begins.dropNewlines_append]
    rfl
  have hn : Newlines [] := by simp [Newlines]
  rcases forms_give (fun _ => id) .nil (evaluated_yields h) hn he hs ha' with
    ⟨ds, hok, heach, hdx⟩ | ⟨cause, hc, -⟩ | ⟨t, ht⟩
  · refine ⟨by rw [hdg, hdx, hdiag], ?_⟩
    obtain rfl : ds = p.decls := Except.ok.inj (hok.symm.trans hds)
    obtain ⟨d, ds, ⟨x, hx, rfl⟩, hnil, hds⟩ := List.forall₂_cons_left_iff.mp heach
    rw [List.forall₂_nil_left_iff.mp hnil] at hds
    exact ⟨x, hx, hds⟩
  · rw [hds] at hc
    cases hc
  · exact absurd ⟨t, hdg ▸ ht⟩ hdeep

/-- A number that has a value has not too many digits. -/
theorem Valued.short {ts : List Token} (h : Valued ts) {t : Token} (ht : t ∈ ts)
    (hk : t.kind = .number) : ¬ Overlong t.lexeme.toList := by
  intro hlong
  obtain ⟨l, hl⟩ := h t ht hk
  rw [Reading.number_overlong hlong] at hl
  cases hl

theorem IsOperand.text {text : String} {x : Expr} (h : IsOperand text x) :
    ∃ ts, IsOperandText text.toList ts x.bare := by
  obtain ⟨s, ts, e, hts, hderives⟩ := h.derives
  obtain ⟨k, hk⟩ := Cursor.exists_end text
  have htokens : Window.tokens text = ts ++ [e] := Window.tokens_of_outcomes hts
  -- the last call finds the end
  have hcalls := (Cursor.outcomes_eq_calls hk).symm.trans hts
  rw [List.range_succ, List.map_append, List.map_append] at hcalls
  obtain ⟨hcalls, hlast⟩ := List.append_inj' hcalls rfl
  obtain ⟨-, hend, -⟩ := (Cursor.takes_call text k).of_isEnd hk.ends
  have he : e.bare = textEnd := by
    have hlast : call text k = .ok e := List.singleton_inj.mp hlast
    obtain rfl := Except.ok.inj (hlast.symm.trans hend)
    rfl
  have hok : ∀ n < k, ∃ t, call text n = .ok t := by
    intro n hn
    have hm : call text n ∈ ts.map .ok := hcalls ▸ List.mem_map_of_mem (List.mem_range.mpr hn)
    obtain ⟨t, -, ht⟩ := List.mem_map.mp hm
    exact ⟨t, ht.symm⟩
  have hnumerals : Numerals ts := (numerals_append.mp (htokens ▸ numerals_tokens text)).1
  have hnodup : ts.Nodup := (List.nodup_append.mp (htokens ▸ Window.nodup_tokens hk)).1
  -- what the text is read as by itself tells what its tokens are read as
  obtain ⟨y, -, hy⟩ := hderives.yields hnumerals
  have hreads : OperandYields Hindered ts (Reads ts y) := by simpa using hy id keeps_id
  obtain ⟨hxy, hvalued⟩ : Reads ts y x := by
    obtain ⟨stack, halone⟩ := h.alone
    rcases Program.read_evaluated hts (congrArg Token.kind he) (.of_operand (.inl rfl) hreads) halone
      with ⟨t, ht⟩ | ⟨-, z, hz, hdecl⟩
    · cases ht
    · obtain rfl : x = z := by simpa using hdecl
      exact hz
  refine ⟨ts.map Token.bare, fun rest => ?_, ?_, ?_, fun us hus => ?_⟩
  · have hlex := lex_rest_append hk hok (h.uncommented k hk.ends) rest (Nat.zero_add k)
    have hbare := congrArg (List.map Outcome.bare) hcalls
    rw [List.map_map, List.map_map] at hbare
    rw [← List.range_eq_range'] at hlex
    rw [List.map_map]
    exact hlex.trans (congrArg (· ++ lex rest) hbare)
  · rw [← Cursor.bare_outcomes_ofText, hts, ← he]
    simp [Outcome.bare]
  · intro t ht hkt
    obtain ⟨u, hu, rfl⟩ := List.mem_map.mp ht
    exact hvalued.short (t := u) hu hkt
  · obtain ⟨g, hg, rfl⟩ := exists_keeps hnodup hus
    refine (hy g hg).imp fun z hz => ?_
    rw [hz.1, hxy]

/-- The text of a chain: of an operand, and of operators with the operand behind each of them. -/
def chainText (text : String) : List (TokenKind × String) → String
  | [] => text
  | (k, next) :: rest => text ++ " " ++ (mark k).lexeme ++ " " ++ chainText next rest

/-- An operator of a chain and the operand behind it, as a text and as a tree. -/
structure Joint where
  operator : TokenKind
  text : String
  tree : Expr

namespace Joint

structure IsInfix (j : Joint) : Prop where
  joins : (Binding.of j.operator).associativity.isSome
  operand : IsOperand j.text j.tree

/-- What stands of it in the text of the chain. -/
def written (j : Joint) : TokenKind × String := (j.operator, j.text)

/-- What stands of it in the tree of the chain. -/
def linked (j : Joint) : Token × Expr := (mark j.operator, j.tree.bare)

end Joint

theorem spelled_mark {k : TokenKind} (h : (Binding.of k).associativity.isSome) :
    (mark k).Spelled := by
  obtain ⟨cs, hcs⟩ := Option.isSome_iff_exists.mp (TokenKind.spelling_of_infix h)
  rw [Token.Spelled, kind_mark, mark, hcs, Option.getD_some, String.toList_ofList]

/-- An operator between blanks. -/
theorem lex_operator {k : TokenKind} (h : (Binding.of k).associativity.isSome) (rest : List Char) :
    lex ((mark k).lexeme.toList ++ ' ' :: rest) = .ok (mark k) :: lex rest := by
  have hp := piece_operator (o := mark k) h (spelled_mark h) rest
  simpa using hp

/-- The operators of a chain that is read, with their operands. -/
def readLinks (os : List (Token × Expr)) : List (Token × (Expr → Prop)) :=
  os.map fun (o, x) => (o, fun e => e.bare = x)

/-- Tokens that are read as an operand, and behind it as operators with operands. -/
def ReadsChain (us : List Token) (x : Expr) (links : List (Token × Expr)) : Prop :=
  ∃ us₁ us₂ os, us = us₁ ++ us₂ ∧ OperandYields Hindered us₁ (fun e => e.bare = x) ∧
    Operators Hindered (readLinks os) us₂ ∧ (os.map fun (o, y) => (o.bare, y)) = links

/-- A chain of operands is cut into tokens that are read as one. -/
theorem lex_chainText {text : String} {x : Expr} {js : List Joint} (h : IsOperand text x)
    (hj : ∀ j ∈ js, j.IsInfix) : ∃ ts,
      lex (chainText text (js.map Joint.written)).toList = (ts ++ [textEnd]).map .ok ∧
      (∀ t ∈ ts, t.kind = .number → ¬ Overlong t.lexeme.toList) ∧
      ∀ us, us.map Token.bare = ts → ReadsChain us x.bare (js.map Joint.linked) := by
  induction js generalizing text x with
  | nil =>
    obtain ⟨ts, ht⟩ := h.text
    refine ⟨ts, ht.last, ht.short, fun us hus => ?_⟩
    exact ⟨us, [], [], by simp, ht.reads us hus, .nil, rfl⟩
  | cons j js ih =>
    obtain ⟨hi, hoperand⟩ := hj j List.mem_cons_self
    obtain ⟨ts, ht⟩ := h.text
    obtain ⟨vs, hlex, hshort, hreads⟩ := ih hoperand fun i hi => hj i (List.mem_cons_of_mem j hi)
    refine ⟨ts ++ mark j.operator :: vs, ?_, ?_, fun us hus => ?_⟩
    · have htext : (chainText text ((j :: js).map Joint.written)).toList = text.toList ++ ' ' ::
          ((mark j.operator).lexeme.toList ++
            ' ' :: (chainText j.text (js.map Joint.written)).toList) := by
        simp [chainText, Joint.written]
      rw [htext, ht.inside, lex_operator hi, hlex]
      simp
    · intro t htm hk
      rcases List.mem_append.mp htm with htm | htm
      · exact ht.short t htm hk
      · rcases List.mem_cons.mp htm with rfl | htm
        · rw [kind_mark] at hk
          rw [hk] at hi
          cases hi
        · exact hshort t htm hk
    · obtain ⟨us₁, us', rfl, h₁, h'⟩ := List.map_eq_append_iff.mp hus
      obtain ⟨o, us', rfl, ho, h₂⟩ := List.map_eq_cons_iff.mp h'
      obtain ⟨vs₁, vs₂, os, rfl, hy, hos, hlinks⟩ := hreads us' h₂
      have hi' : (Binding.of o.kind).associativity.isSome := kind_of_bare_mark ho ▸ hi
      refine ⟨us₁, o :: vs₁ ++ vs₂, (o, j.tree.bare) :: os, by simp, ht.reads us₁ h₁,
        .cons hi' hy hos, ?_⟩
      have hlink : (o.bare, j.tree.bare) = j.linked := congrArg (·, j.tree.bare) ho
      rw [List.map_cons, List.map_cons, hlinks, ← hlink]

theorem ReadsChain.expr {us : List Token} {x : Expr} {links : List (Token × Expr)}
    (h : ReadsChain us x links) :
    ExprYields Hindered us fun e => e.bare = chainTree x links := by
  obtain ⟨us₁, us₂, os, rfl, hx, hos, rfl⟩ := h
  refine (ExprYields.of_chain (.inl rfl) hx hos).imp fun e he => ?_
  exact he.bare_eq (fun _ => id) fun a _ => ⟨rfl, fun _ => id⟩

/-- Operands behind an operator that is always the same. -/
def behindEach (k : TokenKind) (ys : List Expr) : List (Token × Expr) := ys.map fun y => (mark k, y)

theorem kind_of_behindEach {k k' : TokenKind} {ys : List Expr} (h : k' ∈ kindsOf (behindEach k ys)) :
    k' = k := by
  simp only [kindsOf, behindEach, List.map_map, List.mem_map] at h
  obtain ⟨y, -, rfl⟩ := h
  rfl

/-- The last arrow to the right is the root. -/
theorem chainTree_rightArrow (x y : Expr) (ys : List Expr) :
    chainTree x (behindEach .rightArrow (ys ++ [y])) =
      .of (.apply (mark .rightArrow) y (chainTree x (behindEach .rightArrow ys))) := by
  have hroot : IsRoot (kindsOf (behindEach .rightArrow ys)) .rightArrow [] := by
    refine ⟨fun k hk => ?_, by simp⟩
    rw [kind_of_behindEach hk]
    decide
  calc chainTree x (behindEach .rightArrow (ys ++ [y]))
      = chainTree x (behindEach .rightArrow ys ++ [(mark .rightArrow, y)]) := by
        rw [behindEach, List.map_append]
        rfl
    _ = operation (mark .rightArrow) (chainTree x (behindEach .rightArrow ys)) (chainTree y []) :=
        IsRoot.chainTree_eq hroot
    _ = _ := by
        rw [chainTree_nil]
        rfl

/-- The first arrow to the left is the root. -/
theorem chainTree_leftArrow (x y : Expr) (ys : List Expr) :
    chainTree x (behindEach .leftArrow (y :: ys)) =
      .of (.apply (mark .leftArrow) x (chainTree y (behindEach .leftArrow ys))) := by
  have hroot : IsRoot (kindsOf ([] : List (Token × Expr))) .leftArrow
      (kindsOf (behindEach .leftArrow ys)) := by
    refine ⟨by simp [kindsOf], fun k hk => ?_⟩
    rw [kind_of_behindEach hk]
    decide
  calc chainTree x (behindEach .leftArrow (y :: ys))
      = chainTree x ([] ++ (mark .leftArrow, y) :: behindEach .leftArrow ys) := rfl
    _ = operation (mark .leftArrow) (chainTree x []) (chainTree y (behindEach .leftArrow ys)) :=
        IsRoot.chainTree_eq hroot
    _ = _ := by
        rw [chainTree_nil]
        rfl

theorem called_apply (o : Token) (f x : Expr) :
    (Expr.of (.apply o f x)).called = .of (.apply (mark .leftArrow) f.called x.called) := rfl

/-- A chain of arrows to the right is the same chain backwards with arrows to the left. -/
theorem called_arrows {x z : Expr} {ys zs : List Expr} (h : (x :: ys).reverse = z :: zs) :
    (chainTree x (behindEach .rightArrow ys)).called =
      (chainTree z (behindEach .leftArrow zs)).called := by
  induction ys using List.reverseRecOn generalizing z zs with
  | nil =>
    obtain ⟨rfl, rfl⟩ := List.cons.inj h
    rfl
  | append_singleton ys y ih =>
    obtain ⟨w, ws, hw⟩ : ∃ w ws, (x :: ys).reverse = w :: ws :=
      List.exists_cons_of_ne_nil (by simp)
    rw [← List.cons_append, List.reverse_append, hw] at h
    obtain ⟨rfl, rfl⟩ := List.cons.inj h
    change _ = (chainTree y (behindEach .leftArrow (w :: ws))).called
    rw [chainTree_rightArrow, chainTree_leftArrow, called_apply, called_apply, ih hw]

theorem Decl.called_bare (d : Decl) : d.bare.called = d.called := Decl.retoken_retoken ..

namespace Program

/-- What a chain is read as, if it does not nest too deep. -/
theorem read_chainText {text : String} {x : Expr} {js : List Joint} (h : IsOperand text x)
    (hj : ∀ j ∈ js, j.IsInfix) (stack : Nat) :
    ∃ p, read stack (chainText text (js.map Joint.written)) = .ok p ∧
      ((∃ t, .grammar .nestingTooDeep t ∈ p.diagnostics) ∨ p.diagnostics = [] ∧
        p.decls.map Decl.bare = [.evaluated (chainTree x.bare (js.map Joint.linked))]) := by
  obtain ⟨ts, hlex, hshort, hreads⟩ := lex_chainText h hj
  obtain ⟨us, e, p, hus, he, hbare, hp⟩ := exists_of_lex hlex hshort stack
  refine ⟨p, hp, (read_evaluated hus he (hreads us hbare).expr hp).imp_right ?_⟩
  rintro ⟨hd, z, hz, hdecls⟩
  exact ⟨hd, by rw [hdecls, List.map_singleton, Decl.bare_evaluated, hz]⟩

theorem called_decls {p : Program} {x : Expr} (h : p.decls.map Decl.bare = [.evaluated x]) :
    p.decls.map Decl.called = [.evaluated x.called] := by
  have hc := congrArg (List.map Decl.called) h
  rwa [List.map_map, show Decl.called ∘ Decl.bare = Decl.called from funext Decl.called_bare] at hc

/-- The same where all operators are the same. -/
theorem read_behindEach {k : TokenKind} (hk : (Binding.of k).associativity.isSome)
    {a : String × Expr} {as : List (String × Expr)} (h : ∀ e ∈ a :: as, IsOperand e.1 e.2)
    (stack : Nat) : ∃ p, read stack (chainText a.1 (as.map fun e => (k, e.1))) = .ok p ∧
      ((∃ t, .grammar .nestingTooDeep t ∈ p.diagnostics) ∨ p.diagnostics = [] ∧
        p.decls.map Decl.bare =
          [.evaluated (chainTree a.2.bare (behindEach k (as.map fun e => e.2.bare)))]) := by
  have hj : ∀ j ∈ as.map fun e => Joint.mk k e.1 e.2, j.IsInfix := by
    intro j hj
    obtain ⟨e, he, rfl⟩ := List.mem_map.mp hj
    exact ⟨hk, h e (List.mem_cons_of_mem a he)⟩
  have hread := read_chainText (h a List.mem_cons_self) hj stack
  rw [List.map_map, List.map_map] at hread
  rw [behindEach, List.map_map]
  exact hread

/-- Every chain of operands is read and has, unless it nests too deep, the tree that the whole chain
tells. A chain of arrows to the right and the same chain backwards with arrows to the left are read as
the same applications. -/
theorem read_chain :
    (∀ stack {text x} {js : List Joint}, IsOperand text x → (∀ j ∈ js, j.IsInfix) →
      ∃ p, read stack (chainText text (js.map Joint.written)) = .ok p ∧
        ((∃ t, .grammar .nestingTooDeep t ∈ p.diagnostics) ∨ p.diagnostics = [] ∧
          p.decls.map Decl.bare = [.evaluated (chainTree x.bare (js.map Joint.linked))])) ∧
    ∀ stack stack' {a b : String × Expr} {as bs : List (String × Expr)},
      (a :: as).reverse = b :: bs → (∀ e ∈ a :: as, IsOperand e.1 e.2) →
      ∃ p q, read stack (chainText a.1 (as.map fun e => (.rightArrow, e.1))) = .ok p ∧
        read stack' (chainText b.1 (bs.map fun e => (.leftArrow, e.1))) = .ok q ∧
        ((∃ t, .grammar .nestingTooDeep t ∈ p.diagnostics ++ q.diagnostics) ∨
          p.diagnostics = [] ∧ q.diagnostics = [] ∧
            p.decls.map Decl.called = q.decls.map Decl.called) := by
  refine ⟨fun stack _ _ _ h hj => read_chainText h hj stack,
    fun stack stack' {a b as bs} hrev hoperand => ?_⟩
  have hoperand' : ∀ e ∈ b :: bs, IsOperand e.1 e.2 := by
    intro e he
    rw [← hrev, List.mem_reverse] at he
    exact hoperand e he
  have hbare := congrArg (List.map fun e : String × Expr => e.2.bare) hrev
  rw [List.map_reverse, List.map_cons, List.map_cons] at hbare
  obtain ⟨p, hp, hpread⟩ := read_behindEach (k := .rightArrow) rfl hoperand stack
  obtain ⟨q, hq, hqread⟩ := read_behindEach (k := .leftArrow) rfl hoperand' stack'
  refine ⟨p, q, hp, hq, ?_⟩
  rcases hpread with ⟨t, ht⟩ | ⟨hpd, hpdecls⟩
  · exact .inl ⟨t, List.mem_append_left _ ht⟩
  · rcases hqread with ⟨t, ht⟩ | ⟨hqd, hqdecls⟩
    · exact .inl ⟨t, List.mem_append_right _ ht⟩
    · refine .inr ⟨hpd, hqd, ?_⟩
      rw [called_decls hpdecls, called_decls hqdecls, called_arrows hbare]

/-- A list over two lines, a negative name and a name, in a chain and in the two ways to apply them. -/
theorem read_chain_colon :
    (∃ p, read 20 (chainText "[1,\n2]" [(.plus, "-y"), (.colon, "z"), (.minus, "z")]) = .ok p ∧
      ((∃ t, .grammar .nestingTooDeep t ∈ p.diagnostics) ∨ p.diagnostics = [] ∧
        p.decls.map Decl.bare = [.evaluated (chainTree
          (.of (.list [.of (.literal (.int 1)), .of (.literal (.int 2))]))
          [(mark .plus, .of (.unary ⟨.minus, "-", 0, 0⟩ (.of (.name ⟨.identifier, "y", 0, 0⟩)))),
            (mark .colon, .of (.name ⟨.identifier, "z", 0, 0⟩)),
            (mark .minus, .of (.name ⟨.identifier, "z", 0, 0⟩))])])) ∧
      ∃ p q, read 20 (chainText "z" [(.rightArrow, "-y")]) = .ok p ∧
        read 20 (chainText "-y" [(.leftArrow, "z")]) = .ok q ∧
        ((∃ t, .grammar .nestingTooDeep t ∈ p.diagnostics ++ q.diagnostics) ∨
          p.diagnostics = [] ∧ q.diagnostics = [] ∧
            p.decls.map Decl.called = q.decls.map Decl.called) := by
  have hnone : Newlines [] := nofun
  have hline : Newlines [⟨.newline, "\n", 2, 0⟩] := by simp [Newlines]
  have hfirst : Derives (.item .number) [⟨.number, "1", 1, 2⟩] :=
    .item hnone (.expr (.number rfl (Reading.fits_of_number (l := .int 1) rfl).1) .noOperators) hnone
  have hsecond : Derives .items [⟨.comma, ",", 1, 3⟩, ⟨.newline, "\n", 2, 0⟩, ⟨.number, "2", 2, 1⟩] :=
    .items rfl (.item hline (.expr (.number rfl (Reading.fits_of_number (l := .int 2) rfl).1)
      .noOperators) hnone) .noItems
  have hlist : IsOperand "[1,\n2]" (.of (.list [.of (.literal (.int 1)), .of (.literal (.int 2))])) :=
    ⟨⟨.other, [⟨.leftSquare, "[", 1, 1⟩, ⟨.number, "1", 1, 2⟩, ⟨.comma, ",", 1, 3⟩,
      ⟨.newline, "\n", 2, 0⟩, ⟨.number, "2", 2, 1⟩, ⟨.rightSquare, "]", 2, 2⟩],
      ⟨.endOfText, "", 2, 2⟩, by cbv, .list rfl hfirst hsecond rfl⟩, ⟨9, by cbv⟩,
      fun n _ => hash_not_mem_gap (by decide) n⟩
  have hy : IsOperand "-y" (.of (.unary ⟨.minus, "-", 1, 1⟩ (.of (.name ⟨.identifier, "y", 1, 2⟩)))) :=
    ⟨⟨_, [⟨.minus, "-", 1, 1⟩, ⟨.identifier, "y", 1, 2⟩], ⟨.endOfText, "", 1, 2⟩, by cbv,
      .unary (.inl rfl) (.name rfl)⟩, ⟨9, by cbv⟩, fun n _ => hash_not_mem_gap (by decide) n⟩
  have hz : IsOperand "z" (.of (.name ⟨.identifier, "z", 1, 1⟩)) :=
    ⟨⟨_, [⟨.identifier, "z", 1, 1⟩], ⟨.endOfText, "", 1, 1⟩, by cbv, .name rfl⟩, ⟨9, by cbv⟩,
      fun n _ => hash_not_mem_gap (by decide) n⟩
  have hplus : Joint.IsInfix ⟨.plus, _, _⟩ := ⟨rfl, hy⟩
  have hcolon : Joint.IsInfix ⟨.colon, _, _⟩ := ⟨rfl, hz⟩
  have hminus : Joint.IsInfix ⟨.minus, _, _⟩ := ⟨rfl, hz⟩
  have hboth : ∀ e ∈ [("z", Expr.of (.name ⟨.identifier, "z", 1, 1⟩)),
      ("-y", .of (.unary ⟨.minus, "-", 1, 1⟩ (.of (.name ⟨.identifier, "y", 1, 2⟩))))],
      IsOperand e.1 e.2 := by
    simpa using ⟨hz, hy⟩
  have hjoints := List.forall_mem_cons.mpr ⟨hplus, List.forall_mem_cons.mpr
    ⟨hcolon, List.forall_mem_singleton.mpr hminus⟩⟩
  have hchain := read_chain.1 20 hlist hjoints
  have harrows := read_chain.2 20 20 rfl hboth
  exact ⟨by simpa [Joint.written, Joint.linked, Expr.of, Node.typ, Expr.bare, Expr.retoken,
    Node.retoken, Token.bare] using hchain, harrows⟩

end Program
end ArrowLang
