import ArrowLang.Proofs.Strewn

/-!
# Newlines at loose places

Newlines that are inserted behind an opening bracket, in front of a closing one, or on either side of
a separator: the text is read as before if it is read without a diagnostic. The calls of the scanner
are followed from the end of the text to its start.
-/
namespace ArrowLang

open Lexeme

namespace Cursor

variable {text : String}

/-- A place behind an opening bracket, in front of a closing one, or next to a separator. -/
def LoosePlace (text : String) (p : Nat) : Prop :=
  ∃ n t, call text n = .ok t ∧ (t.kind.LooseBehind ∧ p = (after text (n + 1)).current ∨
    t.kind.LooseBefore ∧ p = (after text (n + 1)).start)

theorem current_le {i j : Nat} (h : i ≤ j) : (after text i).current ≤ (after text j).current := by
  induction j, h using Nat.le_induction with
  | base => exact Nat.le_refl _
  | succ j _ ih =>
    have hstart := start_after text j
    have hcurrent := current_after text j
    omega

theorem start_lt {n : Nat} (h : (call text n).isEnd = false) :
    (after text (n + 1)).start < (after text (n + 1)).current := by
  have hpos := List.length_pos_iff.mpr ((takes_call text n).ne_nil h)
  have hcurrent := current_after text n
  omega

/-- A loose place up to the end of what a call takes is in front of the gap that the call skips, or
behind it. -/
theorem LoosePlace.cases {k p n : Nat} (hk : FirstEnd text k) (h : LoosePlace text p) (hn : n ≤ k)
    (hle : (after text n).current ≤ p) (hlt : n < k → p < (after text (n + 1)).current) :
    (∃ m t, n = m + 1 ∧ call text m = .ok t ∧ t.kind.LooseBehind ∧ p = (after text n).current) ∨
      ∃ t, call text n = .ok t ∧ t.kind.LooseBefore ∧ p = (after text (n + 1)).start := by
  obtain ⟨m, t, ht, h⟩ := h
  have hend : t.kind ≠ .endOfText := by
    intro he
    rw [he] at h
    exact absurd h (by simp [TokenKind.LooseBehind, TokenKind.LooseBefore, TokenKind.opens,
      TokenKind.closes, TokenKind.separates])
  have hm : m < k := by
    by_contra hkm
    have hends := hk.ends
    rw [← (after_end hk.ends (Nat.le_of_not_lt hkm)).1, ht] at hends
    exact hend (of_decide_eq_true hends)
  have hstart := start_lt (hk.proceeds m hm)
  have hgap := start_after text m
  -- all places of another call are on the same side of this one
  rcases h with ⟨hkind, rfl⟩ | ⟨hkind, rfl⟩
  · have hmn : n = m + 1 := by
      rcases Nat.lt_trichotomy n (m + 1) with hnm | hnm | hnm
      · have hmono : (after text (n + 1)).current ≤ (after text (m + 1)).current := current_le hnm
        have hbefore := hlt (by omega)
        omega
      · exact hnm
      · have hmono : (after text (m + 1 + 1)).current ≤ (after text n).current := current_le hnm
        have hnext := current_lt (m + 1) (hk.proceeds (m + 1) (by omega))
        omega
    subst hmn
    exact .inl ⟨m, t, rfl, ht, hkind, rfl⟩
  · have hmn : n = m := by
      rcases Nat.lt_trichotomy n m with hnm | hnm | hnm
      · have hmono : (after text (n + 1)).current ≤ (after text m).current := current_le hnm
        have hbefore := hlt (by omega)
        omega
      · exact hnm
      · have hmono : (after text (m + 1)).current ≤ (after text n).current := current_le hnm
        omega
    subst hmn
    exact .inr ⟨t, ht, hkind, rfl⟩

/-- What is ahead of a cursor with newlines added, those right behind it included. -/
def strewnBehind (count : Nat → Nat) (text : String) (n : Nat) : List Char :=
  List.replicate (count (after text n).current) '\n' ++
    strewn count (after text n).current (after text n).rest

/-- Where newlines are added right behind the first `n` calls, they are next to a loose token: the one
of kind `kind` that stands in front, or what the next call returns. -/
def LooselyBehind (count : Nat → Nat) (text : String) (n : Nat) (kind : TokenKind) : Prop :=
  count (after text n).current ≠ 0 →
    kind.LooseBehind ∨ ∃ t, call text n = .ok t ∧ t.kind.LooseBefore

theorem looseBefore_of_call {n : Nat} {t : Token} (ht : call text n = .ok t)
    (h : ∃ u, call text n = .ok u ∧ u.kind.LooseBefore) : t.kind.LooseBefore := by
  obtain ⟨u, hu, hloose⟩ := h
  obtain rfl : t = u := Except.ok.inj (ht.symm.trans hu)
  exact hloose

section
variable {count : Nat → Nat} {k : Nat} (hk : FirstEnd text k)
  (hplaces : ∀ p, count p ≠ 0 → LoosePlace text p)
include hk hplaces

/-- In a gap newlines are added at its ends only. -/
theorem strewn_gap {n : Nat} (hn : n ≤ k) :
    ∃ b, strewn count (after text n).current (gap text n) =
        gap text n ++ List.replicate b '\n' ∧ (gap text n = [] → b = 0) ∧
      (b ≠ 0 → ∃ t, call text n = .ok t ∧ t.kind.LooseBefore) := by
  by_cases hne : gap text n = []
  · exact ⟨0, by simp [hne, strewn], fun _ => rfl, fun h => absurd rfl h⟩
  have hstart := start_after text n
  have hpos := List.length_pos_iff.mpr hne
  have hinside : ∀ q, (after text n).current < q → q ≤ (after text (n + 1)).start → count q ≠ 0 →
      q = (after text (n + 1)).start ∧ ∃ t, call text n = .ok t ∧ t.kind.LooseBefore := by
    intro q h₁ h₂ hq
    have hlt : n < k → q < (after text (n + 1)).current := fun h =>
      Nat.lt_of_le_of_lt h₂ (start_lt (hk.proceeds n h))
    rcases (hplaces q hq).cases hk hn h₁.le hlt with ⟨_, _, _, _, _, rfl⟩ | ⟨t, ht, hkind, rfl⟩
    · exact absurd h₁ (Nat.lt_irrefl _)
    · exact ⟨rfl, t, ht, hkind⟩
  refine ⟨_, strewn_end count hne fun q h₁ h₂ => ?_, fun h => absurd h hne, fun h => ?_⟩
  · by_contra hq
    have := (hinside q h₁ (by omega) hq).1
    omega
  · exact (hinside _ (by omega) (by omega) h).2

/-- In what a call takes none are added. -/
theorem strewn_span {n : Nat} (hn : n < k) :
    strewn count (after text (n + 1)).start (span text n) =
      span text n ++ List.replicate (count (after text (n + 1)).current) '\n' := by
  have he := hk.proceeds n hn
  have hcurrent := current_after text n
  rw [hcurrent]
  refine strewn_end count ((takes_call text n).ne_nil he) fun q h₁ h₂ => ?_
  by_contra hq
  have hstart := start_after text n
  rcases (hplaces q hq).cases hk hn.le (by omega) (fun _ => by omega) with
    ⟨_, _, _, _, _, rfl⟩ | ⟨_, _, _, rfl⟩ <;> omega

theorem strewnBehind_eq {n : Nat} (hn : n < k) : ∃ b,
    strewnBehind count text n = List.replicate (count (after text n).current) '\n' ++
      (gap text n ++ (List.replicate b '\n' ++ (span text n ++ strewnBehind count text (n + 1)))) ∧
      (gap text n = [] → b = 0) ∧ (b ≠ 0 → ∃ t, call text n = .ok t ∧ t.kind.LooseBefore) := by
  obtain ⟨b, hgap, hb⟩ := strewn_gap hk hplaces hn.le
  refine ⟨b, ?_, hb⟩
  rw [strewnBehind, rest_after, strewn_append, strewn_append, hgap, List.length_append,
    ← Nat.add_assoc, ← start_after, strewn_span hk hplaces hn, ← current_after]
  simp only [strewnBehind, List.append_assoc]

/-- Behind a token, newlines are added if it is loose or what follows is. -/
theorem looselyBehind_call {n : Nat} {t : Token} (hn : n < k) (ht : call text n = .ok t) :
    LooselyBehind count text (n + 1) t.kind := by
  intro hc
  have hlt : n + 1 < k → (after text (n + 1)).current < (after text (n + 1 + 1)).current := fun h =>
    current_lt (n + 1) (hk.proceeds (n + 1) h)
  rcases (hplaces _ hc).cases hk hn (Nat.le_refl _) hlt with
    ⟨m, u, hm, hu, hkind, -⟩ | ⟨u, hu, hkind, -⟩
  · obtain rfl : n = m := by omega
    obtain rfl : t = u := Except.ok.inj (ht.symm.trans hu)
    exact .inl hkind
  · exact .inr ⟨u, hu, hkind⟩

/-- Where the text ends, only a gap is ahead. -/
theorem lays_end {ts : List Token} (hts : (after text k).outcomes = ts.map .ok) (j : Nat)
    {kind : TokenKind} (hkind : j = 0 → LooselyBehind count text k kind) :
    Lays kind j ts (strewnBehind count text k) := by
  rw [outcomes_of_ends hk.ends] at hts
  obtain ⟨t, rfl, ht⟩ := List.map_eq_singleton_iff.mp hts.symm
  have ht : call text k = .ok t := ht.symm
  obtain ⟨hrest, ho, -⟩ := (takes_call text k).of_isEnd hk.ends
  obtain rfl : t = ⟨.endOfText, "", _, _⟩ := Except.ok.inj (ht.symm.trans ho)
  obtain ⟨b, hgap, -, hbefore⟩ := strewn_gap hk hplaces (Nat.le_refl k)
  obtain rfl : b = 0 := by
    by_contra hne
    exact absurd (looseBefore_of_call ht (hbefore hne))
      (show ¬ TokenKind.endOfText.LooseBefore by decide)
  have hgap' : (after text k).rest = gap text k := by
    rw [rest_skipGap, ← gap_eq, hrest, List.append_nil]
  have heq : strewnBehind count text k =
      List.replicate (count (after text k).current) '\n' ++
        (gap text k ++ (List.replicate 0 '\n' ++ [])) := by
    rw [strewnBehind, hgap', hgap]
    simp
  have hisGap := isGap_splitGap (after text k).rest
  have hnone := newline_not_mem_gap (after text k).rest
  rw [← gap_eq] at hisGap hnone
  have hlex : lex [] = .ok textEnd :: ([] : List Token).map .ok := lex_nil
  rw [heq]
  refine .token (hisGap.mono fun _ => .inl rfl) hnone (fun _ => rfl) (by simp) nofun
    (fun hj ha => ?_) hlex (.nil _)
  exact (hkind hj (by simpa using ha)).imp_right (looseBefore_of_call ht)

/-- A call in front of what is laid out. Newlines go on from it into what follows, while another token
ends those in front of it. -/
theorem lays_call {n : Nat} {t : Token} {ts : List Token} (hn : n < k) (ht : call text n = .ok t)
    (hnext : ∀ (j : Nat) {kind : TokenKind}, (j = 0 → LooselyBehind count text (n + 1) kind) →
      Lays kind j ts (strewnBehind count text (n + 1)))
    (j : Nat) {kind : TokenKind} (hkind : j = 0 → LooselyBehind count text n kind) :
    Lays kind j (t :: ts) (strewnBehind count text n) := by
  have he := hk.proceeds n hn
  obtain ⟨b, heq, hb, hbefore⟩ := strewnBehind_eq hk hplaces hn
  have hgap := isGap_call text n
  have hnone := newline_not_mem_gap (after text n).rest
  rw [← gap_eq] at hnone
  obtain ⟨c, tail, hspan, hc⟩ := head_span ht he
  rw [heq]
  by_cases hnl : t.kind = .newline
  · obtain rfl : b = 0 := by
      by_contra hne
      have hloose := looseBefore_of_call ht (hbefore hne)
      rw [hnl] at hloose
      exact absurd hloose (by decide)
    obtain ⟨i, hi⟩ := span_of_newline ht hnl
    rw [hi] at hgap ⊢
    exact .newline (hgap.mono fun _ => .inr rfl) hnone hnl fun j hj => hnext j fun h => absurd h hj
  · have hhead : ∀ r, (span text n ++ r).head? ≠ some '\n' := by
      intro r hr
      rw [hspan] at hr
      exact hnl (hc.mpr (Option.some.inj hr))
    obtain ⟨us, hus, hs⟩ := hnext 0 fun _ => looselyBehind_call hk hplaces hn ht
    refine .token (hgap.mono ?_) hnone hb (hhead _) hnl (fun hj hab => ?_)
      ((lex_span ht he (replaces_strewn count _ _ _) fun h => absurd h hnl).trans (congrArg _ hus))
      (hs [] nofun (by simp))
    · rintro (hnil | hhd)
      · rw [hspan] at hnil
        cases hnil
      · exact absurd hhd (hhead _)
    · rcases hab with ha | hb'
      · exact (hkind hj ha).imp_right (looseBefore_of_call ht)
      · exact .inr (looseBefore_of_call ht (hbefore hb'))

/-- The text ahead of a cursor, with newlines added, by induction on the calls up to its end. -/
theorem lays_after {m n : Nat} (hnm : n + m = k) {ts : List Token}
    (hts : (after text n).outcomes = ts.map .ok) (j : Nat) {kind : TokenKind}
    (hkind : j = 0 → LooselyBehind count text n kind) :
    Lays kind j ts (strewnBehind count text n) := by
  induction m generalizing n ts j kind with
  | zero =>
    obtain rfl : n = k := hnm
    exact lays_end hk hplaces hts j hkind
  | succ m ih =>
    have hn : n < k := by omega
    rw [outcomes_of_proceeds (hk.proceeds n hn)] at hts
    obtain ⟨t, ts, rfl, ht, hts⟩ := List.map_eq_cons_iff.mp hts.symm
    have hts : (after text (n + 1)).outcomes = ts.map .ok := hts.symm
    exact lays_call hk hplaces hn ht.symm (fun j _ hnext => ih (by omega) hts j hnext) j hkind

end

/-- The text with `count p` newlines inserted at every offset `p`. -/
def loosened (count : Nat → Nat) (text : String) : String :=
  String.ofList (List.replicate (count 0) '\n' ++ strewn count 0 text.toList)

end Cursor

namespace Program

/-- A text that is read without a diagnostic is read as the same declarations, and without one, after
newlines are inserted at any number of loose places, unless it nests too deep then. -/
theorem read_loosened {stack : Nat} {text : String} {count : Nat → Nat} {p : Program}
    (hplaces : ∀ i, count i ≠ 0 → Cursor.LoosePlace text i) (hp : read stack text = .ok p)
    (hd : p.diagnostics = []) :
    ∃ q, read stack (Cursor.loosened count text) = .ok q ∧
      ((∀ t, .grammar .nestingTooDeep t ∉ q.diagnostics) →
        q.diagnostics = [] ∧ q.decls.map Decl.bare = p.decls.map Decl.bare) := by
  obtain ⟨ts, hts, -⟩ := derives_of_read hp hd
  obtain ⟨k, hk⟩ := Cursor.exists_end text
  have hfirst : Cursor.LooselyBehind count text 0 .absent := by
    intro hc
    have hlt : 0 < k → 0 < (Cursor.after text 1).current := fun h =>
      Cursor.current_lt 0 (hk.proceeds 0 h)
    rcases (hplaces 0 hc).cases hk (Nat.zero_le k) (Nat.le_refl 0) hlt with
      ⟨m, _, hm, -⟩ | ⟨t, ht, hkind, -⟩
    · cases hm
    · exact .inr ⟨t, ht, hkind⟩
  obtain ⟨us, hlex, hs⟩ := Cursor.lays_after hk hplaces (Nat.zero_add k) hts 0 fun _ => hfirst
  have hb : (Cursor.ofText (Cursor.loosened count text)).outcomes.map Outcome.bare = us.map .ok := by
    rw [Cursor.bare_outcomes_ofText, ← hlex]
    exact congrArg lex String.toList_ofList
  obtain ⟨us, hus, rfl⟩ := oks_of_bare hb
  obtain ⟨q, hq, hsame⟩ := read_of_spread keeps_bare hts hus (hs [] nofun (by simp)).of_bare hp hd
  exact ⟨q, hq, fun hdeep => (hsame hdeep).imp_right Eq.symm⟩

/-- Newlines on both sides of a comma, two of them in front of it, and before the closing bracket. -/
theorem read_loosened_list :
    Cursor.loosened (fun i => if i = 2 then 2 else if i = 3 ∨ i = 5 then 1 else 0) "[1, 2]" =
        "[1\n\n,\n 2\n]" ∧
      ∃ q, read 20 "[1\n\n,\n 2\n]" = .ok q ∧ q.diagnostics = [] ∧
        q.decls.map Decl.bare =
          [.evaluated (.of (.list [.of (.literal (.int 1)), .of (.literal (.int 2))]))] := by
  have htext : Cursor.loosened (fun i => if i = 2 then 2 else if i = 3 ∨ i = 5 then 1 else 0)
      "[1, 2]" = "[1\n\n,\n 2\n]" := by decide
  have hread : read 20 "[1, 2]" = .ok ⟨[.evaluated (.of (.list [.of (.literal (.int 1)),
      .of (.literal (.int 2))]))], []⟩ := by cbv
  have hplaces : ∀ i, (if i = 2 then 2 else if i = 3 ∨ i = 5 then 1 else 0) ≠ 0 →
      Cursor.LoosePlace "[1, 2]" i := by
    intro i hi
    have hi : i = 2 ∨ i = 3 ∨ i = 5 := by
      by_contra h
      obtain ⟨h₂, h₃⟩ := not_or.mp h
      exact hi (by rw [if_neg h₂, if_neg h₃])
    rcases hi with rfl | rfl | rfl
    · exact ⟨2, ⟨.comma, ",", 1, 3⟩, by cbv, .inr ⟨by decide, by cbv⟩⟩
    · exact ⟨2, ⟨.comma, ",", 1, 3⟩, by cbv, .inl ⟨by decide, by cbv⟩⟩
    · exact ⟨4, ⟨.rightSquare, "]", 1, 6⟩, by cbv, .inr ⟨by decide, by cbv⟩⟩
  have hnew : (read 20 "[1\n\n,\n 2\n]").map Program.diagnostics = .ok [] := by cbv
  obtain ⟨q, hq, hsame⟩ := read_loosened hplaces hread rfl
  rw [htext] at hq
  rw [hq] at hnew
  exact ⟨htext, q, hq, hsame (by simp [show q.diagnostics = [] from Except.ok.inj hnew])⟩

/-- A newline is cut deeper in the stack than a bracket: behind one there may be no room for it. -/
theorem read_loosened_deep :
    Cursor.LoosePlace "(x)" 1 ∧
      read 2 "(x)" = .ok ⟨[.evaluated (.of (.name ⟨.identifier, "x", 1, 2⟩))], []⟩ ∧
      Cursor.loosened (fun i => if i = 1 then 1 else 0) "(x)" = "(\nx)" ∧
      ∃ q t, read 2 "(\nx)" = .ok q ∧ .grammar .nestingTooDeep t ∈ q.diagnostics := by
  refine ⟨⟨0, ⟨.leftParen, "(", 1, 1⟩, by cbv, .inl ⟨by decide, by cbv⟩⟩, by cbv, by decide, ?_⟩
  have hdiag : (read 2 "(\nx)").map (fun q => q.diagnostics.head?) =
      .ok (some (.grammar .nestingTooDeep ⟨.newline, "\n", 2, 0⟩)) := by cbv
  obtain ⟨q, hq, hhead⟩ := ok_of_map hdiag
  exact ⟨q, _, hq, List.mem_of_head? hhead⟩

end Program
end ArrowLang
