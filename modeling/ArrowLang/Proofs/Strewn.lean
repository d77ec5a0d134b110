import ArrowLang.Proofs.Followed
import ArrowLang.Proofs.Layout

/-!
# Newlines at loose places

Newlines that are inserted behind an opening bracket, in front of a closing one, or on either side of
a separator, leave every other token of a text as it is. So a text that is read without a diagnostic
is read as before.
-/
namespace ArrowLang

open Lexeme

theorem IsGap.mono {gap r s : List Char} (h : IsGap gap r)
    (hs : r = [] ∨ r.head? = some '\n' → s = [] ∨ s.head? = some '\n') : IsGap gap s := by
  obtain ⟨blanks, comment, hgap, hblanks, hcomment⟩ := h
  refine ⟨blanks, comment, hgap, hblanks, hcomment.imp_right ?_⟩
  rintro ⟨words, hc, hw, hr⟩
  exact ⟨words, hc, hw, hs hr⟩

/-- A gap is not cut into anything. -/
theorem lex_gap {gap r : List Char} (h : IsGap gap r) : lex (gap ++ r) = lex r := by
  obtain ⟨blanks, comment, rfl, hblanks, hcomment⟩ := h
  have hsplit : (splitGap false (blanks ++ comment ++ r)).2 = (splitGap false r).2 := by
    rw [List.append_assoc, (Filler.blanks hblanks).splitGap_eq]
    rcases hcomment with rfl | ⟨words, rfl, hw, hr⟩
    · rfl
    · exact (Filler.comment hw hr).splitGap_eq
  exact lex_congr (congrArg cutToken hsplit)

/-- Newlines are one token, if there are any. -/
theorem lex_newlines (i : Nat) {r : List Char} (hr : r.head? ≠ some '\n') :
    ∃ ms, Newlines ms ∧ (ms = [] ↔ i = 0) ∧
      lex (List.replicate i '\n' ++ r) = ms.map .ok ++ lex r := by
  cases i with
  | zero => exact ⟨[], nofun, by simp, rfl⟩
  | succ i =>
    have hrun : ∀ c ∈ List.replicate i '\n', decide (c = '\n') = true := by simp
    have hstop : ∀ c ∈ r.head?, decide (c = '\n') = false := by
      intro c hc
      rw [decide_eq_false_iff_not]
      rintro rfl
      exact hr hc
    obtain ⟨htake, hdrop⟩ := takeWhile_boundary hrun hstop
    have hcut : cut (List.replicate (i + 1) '\n' ++ r) = (.ok (newlines (List.replicate i '\n')), r) := by
      change cutToken ('\n' :: (List.replicate i '\n' ++ r)) = _
      rw [cutToken_newline, htake, hdrop]
    refine ⟨[newlines (List.replicate i '\n')], newlines_cons.mpr ⟨rfl, newlines_nil⟩, by simp, ?_⟩
    · exact lex_of_cut hcut rfl

theorem splitGap_splitGap (b : Bool) (cs : List Char) :
    splitGap false (splitGap b cs).2 = ([], (splitGap b cs).2) := by
  fun_induction splitGap b cs with
  | case1 => rfl
  | case2 b c cs hc gap rest hr ih => simpa [hr] using ih
  | case3 b cs gap rest hr hc ih => simpa [hr] using ih
  | case4 b c cs hc hc' =>
    have hg : isGapChar c = false := by
      simp only [Bool.or_eq_true, not_or, Bool.not_eq_true] at hc
      exact hc.2
    rw [splitGap, if_neg (by simp [hg]), if_neg hc']

/-- A run of newlines begins with one, and nothing else does. -/
theorem newline_of_cutToken {c : Char} {cs : List Char} {t : Token}
    (h : (cutToken (c :: cs)).1 = .ok t) : t.kind = .newline ↔ c = '\n' := by
  constructor
  · intro hk
    unfold cutToken at h
    dsimp only at h
    split at h
    · unfold cutQuoted at h
      split at h
      · cases h
      · split at h
        · cases h
        · cases h
          cases hk
    · split at h
      · next k tail ht =>
        cases h
        obtain rfl : k = .newline := hk
        exact newlines_of_tail ht c List.mem_cons_self
      · cases h
  · rintro rfl
    rw [cutToken_newline] at h
    cases h
    rfl

namespace Cursor

variable {text : String}

theorem isGap_call (text : String) (n : Nat) :
    IsGap (gap text n) (span text n ++ (after text (n + 1)).rest) := by
  rw [← (takes_call text n).rest, gap_eq]
  exact isGap_splitGap _

/-- How what a call takes begins. -/
theorem head_span {n : Nat} {t : Token} (ht : call text n = .ok t)
    (he : (call text n).isEnd = false) :
    ∃ c tail, span text n = c :: tail ∧ (t.kind = .newline ↔ c = '\n') := by
  obtain ⟨c, tail, hspan⟩ := List.exists_cons_of_ne_nil ((takes_call text n).ne_nil he)
  have hcut := congrArg Prod.fst (cutToken_call text n)
  rw [hspan, ht] at hcut
  have hk := newline_of_cutToken (t := t.bare) hcut
  exact ⟨c, tail, hspan, hk⟩

theorem Takes.newlines_of_mem {s v : Cursor} {span : List Char} {t : Token}
    (h : s.Takes span (.ok t) v) (hk : t.kind = .newline) (hm : '\n' ∈ span) :
    ∀ c ∈ span, c = '\n' := by
  cases h with
  | ended _ => cases hk
  | newlines _ _ hn => exact hn
  | lexeme _ _ _ _ hp => exact absurd hm hp.1
  | text _ _ _ => cases hk

theorem span_of_newline {n : Nat} {t : Token} (ht : call text n = .ok t) (hk : t.kind = .newline) :
    ∃ i, span text n = List.replicate (i + 1) '\n' := by
  have he : (call text n).isEnd = false := by
    rw [ht]
    simp [Outcome.isEnd, hk]
  obtain ⟨c, tail, hspan, hc⟩ := head_span ht he
  have hmem : '\n' ∈ span text n := by
    rw [hspan, hc.mp hk]
    exact List.mem_cons_self
  have hall := (ht ▸ takes_call text n).newlines_of_mem hk hmem
  exact ⟨tail.length, List.eq_replicate_iff.mpr ⟨by simp [hspan], hall⟩⟩

/-- What a call takes is cut alike if something else follows that ends it too. -/
theorem lex_span {n : Nat} {t : Token} (ht : call text n = .ok t) (he : (call text n).isEnd = false)
    {s : List Char} (hs : Replaces (after text (n + 1)).rest s)
    (hn : t.kind = .newline → s.head? = some '\n' → (after text (n + 1)).rest.head? = some '\n') :
    lex (span text n ++ s) = .ok t.bare :: lex s := by
  obtain ⟨c, tail, hspan, hc⟩ := head_span ht he
  have hcut := cutToken_call text n
  have hgap := splitGap_splitGap false (after text n).rest
  change splitGap false ([] ++ (after text n).skipGap.rest) = ([], (after text n).skipGap.rest) at hgap
  rw [(takes_call text n).rest, hspan] at hgap
  rw [hspan, ht] at hcut
  rw [ht] at he
  have hcut' := cutToken_replaces hs (fun h => hn (hc.mpr h)) hcut nofun
  have hgap' : splitGap false (c :: tail ++ s) = ([], c :: tail ++ s) :=
    splitGap_head hgap rfl
  rw [hspan]
  refine lex_of_cut ?_ he
  rw [cut, hgap']
  exact hcut'

end Cursor

theorem head_append_ne {cs : List Char} (hne : cs ≠ []) (h : '\n' ∉ cs) (r : List Char) :
    (cs ++ r).head? ≠ some '\n' := by
  obtain ⟨c, cs, rfl⟩ := List.exists_cons_of_ne_nil hne
  intro hc
  obtain rfl : c = '\n' := Option.some.inj hc
  exact h List.mem_cons_self

/-- Newlines in front of a gap and behind it. -/
theorem lex_layout (i b : Nat) {gap z : List Char} (hgap : IsGap gap (List.replicate b '\n' ++ z))
    (hn : '\n' ∉ gap) (hb : gap = [] → b = 0) (hz : z.head? ≠ some '\n') :
    ∃ ms, Newlines ms ∧ (ms = [] ↔ i = 0 ∧ b = 0) ∧
      lex (List.replicate i '\n' ++ (gap ++ (List.replicate b '\n' ++ z))) =
        ms.map .ok ++ lex z := by
  by_cases hne : gap = []
  · obtain ⟨ms, hms, hnil, hlex⟩ := lex_newlines i hz
    obtain rfl := hb hne
    subst hne
    exact ⟨ms, hms, by simpa using hnil, hlex⟩
  · obtain ⟨ms, hms, hnil, hlex⟩ := lex_newlines i (head_append_ne hne hn (List.replicate b '\n' ++ z))
    obtain ⟨ms', hms', hnil', hlex'⟩ := lex_newlines b hz
    refine ⟨ms ++ ms', newlines_append.mpr ⟨hms, hms'⟩, ?_, ?_⟩
    · rw [List.append_eq_nil_iff, hnil, hnil']
    · rw [hlex, lex_gap hgap, hlex', List.map_append, List.append_assoc]

namespace Pursuit

/-- Where the first tokens begin with a newline, more may stand in front of the second ones. -/
theorem Spread.newlines {f : Token → Token} {k : TokenKind} {t : Token} {ts us ms : List Token}
    (h : Spread f k (t :: ts) us) (ht : t.kind = .newline) (hm : Newlines ms) :
    Spread f k (t :: ts) (ms ++ us) := by
  generalize hx : t :: ts = x at h
  cases h with
  | nil => cases hx
  | @cons _ ns ms' ts' us' u u' hns hms' himp _ hu huu hs =>
    have hne : ns ≠ [] := by
      rintro rfl
      obtain ⟨rfl, -⟩ := List.cons.inj hx
      exact hu ht
    rw [← List.append_assoc]
    exact .cons hns (newlines_append.mpr ⟨hm, hms'⟩) (fun _ => by simp [himp hne])
      (fun h => absurd h hne) hu huu hs

/-- What the second tokens are up to positions matters only. -/
theorem Spread.of_bare {k : TokenKind} {ts us : List Token}
    (h : Spread Token.bare k ts (us.map Token.bare)) : Spread Token.bare k ts us := by
  generalize hv : us.map Token.bare = vs at h
  induction h generalizing us with
  | nil k =>
    obtain rfl := List.map_eq_nil_iff.mp hv
    exact .nil k
  | cons hns hms himp hloose hu huu _ ih =>
    obtain ⟨ms, rest, rfl, rfl, hrest⟩ := List.map_eq_append_iff.mp hv
    obtain ⟨u, us, rfl, rfl, hus⟩ := List.map_eq_cons_iff.mp hrest
    refine .cons hns ?_ (fun h => by simpa using himp h) (fun h hne => hloose h (by simpa using hne))
      hu huu (ih hus)
    intro m hm
    exact hms m.bare (List.mem_map_of_mem hm)

end Pursuit

open Pursuit (Spread)

/-- The text is cut into the tokens, with newlines added that mean nothing behind a token of kind
`k`. Of what stands in front of it, `j` newlines are not cut yet. -/
def Lays (k : TokenKind) (j : Nat) (ts : List Token) (cs : List Char) : Prop :=
  ∃ us, lex (List.replicate j '\n' ++ cs) = us.map .ok ∧
    ∀ ns, Newlines ns → (ns = [] ↔ j = 0) → Spread Token.bare k (ns ++ ts) us

theorem Lays.newline {k : TokenKind} {j a i : Nat} {gap cs : List Char} {t : Token}
    {ts : List Token} (hgap : IsGap gap (List.replicate (i + 1) '\n' ++ cs)) (hn : '\n' ∉ gap)
    (ht : t.kind = .newline) (h : ∀ j, j ≠ 0 → Lays k j ts cs) :
    Lays k j (t :: ts)
      (List.replicate a '\n' ++ (gap ++ (List.replicate (i + 1) '\n' ++ cs))) := by
  have hns : ∀ ns, Newlines ns → Newlines (ns ++ [t]) := by
    intro ns hns
    simpa using ⟨hns, ht⟩
  by_cases hne : gap = []
  · -- all newlines are one run, which goes on
    subst hne
    obtain ⟨us, hlex, hs⟩ := h (j + a + (i + 1)) (by omega)
    refine ⟨us, ?_, fun ns hnl _ => ?_⟩
    · rw [← hlex]
      simp only [List.nil_append, ← List.append_assoc, List.replicate_append_replicate, Nat.add_assoc]
    · simpa using hs (ns ++ [t]) (hns ns hnl) (by simp)
  · obtain ⟨ms, hms, -, hlex⟩ :=
      lex_newlines (j + a) (head_append_ne hne hn (List.replicate (i + 1) '\n' ++ cs))
    obtain ⟨us, hlex', hs⟩ := h (i + 1) (by omega)
    refine ⟨ms ++ us, ?_, fun ns hnl _ => ?_⟩
    · rw [List.map_append, ← hlex', ← lex_gap hgap, ← hlex]
      simp only [← List.append_assoc, List.replicate_append_replicate]
    · have hspread := hs (ns ++ [t]) (hns ns hnl) (by simp)
      cases ns with
      | nil => exact hspread.newlines ht hms
      | cons n ns => simpa using hspread.newlines (hnl n List.mem_cons_self) hms

theorem Lays.token {k : TokenKind} {j a b : Nat} {gap z : List Char} {t : Token}
    {ts us : List Token} (hgap : IsGap gap (List.replicate b '\n' ++ z)) (hn : '\n' ∉ gap)
    (hb : gap = [] → b = 0) (hz : z.head? ≠ some '\n') (ht : t.kind ≠ .newline)
    (hloose : j = 0 → a ≠ 0 ∨ b ≠ 0 → k.LooseBehind ∨ t.kind.LooseBefore)
    (hlex : lex z = .ok t.bare :: us.map .ok) (h : Spread Token.bare t.kind ts us) :
    Lays k j (t :: ts) (List.replicate a '\n' ++ (gap ++ (List.replicate b '\n' ++ z))) := by
  obtain ⟨ms, hms, hnil, hlay⟩ := lex_layout (j + a) b hgap hn hb hz
  refine ⟨ms ++ t.bare :: us, ?_, fun ns hns hj => ?_⟩
  · rw [← List.append_assoc, List.replicate_append_replicate, hlay, hlex]
    simp
  · refine .cons hns hms (fun hne hm => ?_) (fun hne hm => ?_) ht rfl h
    · exact hne (hj.mpr (by have := (hnil.mp hm).1; omega))
    · refine hloose (hj.mp hne) ?_
      by_contra hall
      have hj := hj.mp hne
      exact hm (hnil.mpr ⟨by omega, by omega⟩)

/-- The characters with `count p` newlines behind the character that ends at offset `p`. -/
def strewn (count : Nat → Nat) (p : Nat) : List Char → List Char
  | [] => []
  | c :: cs => c :: (List.replicate (count (p + 1)) '\n' ++ strewn count (p + 1) cs)

section
variable (count : Nat → Nat)

theorem strewn_append (p : Nat) (xs ys : List Char) :
    strewn count p (xs ++ ys) = strewn count p xs ++ strewn count (p + xs.length) ys := by
  induction xs generalizing p with
  | nil => rfl
  | cons x xs ih =>
    simp only [List.cons_append, strewn, ih, List.append_assoc, List.length_cons]
    rw [show p + (xs.length + 1) = p + 1 + xs.length by omega]

/-- Characters with newlines behind the last of them only. -/
theorem strewn_end {p : Nat} {xs : List Char} (hne : xs ≠ [])
    (h : ∀ q, p < q → q < p + xs.length → count q = 0) :
    strewn count p xs = xs ++ List.replicate (count (p + xs.length)) '\n' := by
  induction xs generalizing p with
  | nil => exact absurd rfl hne
  | cons x xs ih =>
    cases xs with
    | nil => simp [strewn]
    | cons y ys =>
      have hnone : count (p + 1) = 0 := h _ (by omega) (by simp)
      have hrest := ih (List.cons_ne_nil y ys) (p := p + 1) fun q h₁ h₂ =>
        h q (by omega) (by simp only [List.length_cons] at h₂ ⊢; omega)
      rw [strewn, hnone, hrest]
      simp only [List.replicate_zero, List.nil_append, List.cons_append, List.length_cons]
      rw [show p + 1 + (ys.length + 1) = p + (ys.length + 1 + 1) by omega]

/-- Where something ends, it still does. -/
theorem replaces_strewn (a p : Nat) (r : List Char) :
    Replaces r (List.replicate a '\n' ++ strewn count p r) := by
  have hsevers : Severs '\n' := by simp [Severs]
  cases a with
  | succ a =>
    refine ⟨fun c hc => .inr ?_, fun d s hs => ?_⟩
    · obtain rfl : '\n' = c := Option.some.inj hc
      exact hsevers
    · exact absurd (List.cons.inj hs).1 (by decide)
  | zero =>
    cases r with
    | nil => exact .refl []
    | cons c r =>
      refine ⟨fun d hd => .inl hd, fun d s hs => ?_⟩
      obtain ⟨rfl, hrest⟩ := List.cons.inj hs
      cases hc : count (p + 1) with
      | zero =>
        rw [hc] at hrest
        cases r with
        | nil => cases hrest
        | cons e r =>
          obtain rfl := (List.cons.inj hrest).1
          exact .inr ⟨r, rfl⟩
      | succ i =>
        rw [hc] at hrest
        obtain rfl := (List.cons.inj hrest).1
        exact .inl hsevers

end

end ArrowLang
