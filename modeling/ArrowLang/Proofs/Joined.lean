import ArrowLang.Proofs.Lookahead

/-!
# Texts joined by a newline

A newline between two texts ends the last piece of the first one, unless that is a string without
its closing quote. So the cuts of the joined text are those of its two parts, with one run of
newlines between them.
-/
namespace ArrowLang
namespace Lexeme

variable {b : List Char}

theorem splitGap_join (inComment : Bool) (a : List Char) :
    (splitGap inComment (a ++ '\n' :: b)).2 = (splitGap inComment a).2 ++ '\n' :: b := by
  fun_induction splitGap inComment a with
  | case1 ic => simp [splitGap, isGapChar]
  | case2 ic c cs h gap rest hr ih =>
    rw [List.cons_append, splitGap, if_pos h]
    simpa [hr] using ih
  | case3 ic cs gap rest hr h ih =>
    rw [List.cons_append, splitGap, if_neg h, if_pos rfl]
    simpa [hr] using ih
  | case4 ic c cs h h' =>
    rw [List.cons_append, splitGap, if_neg h, if_neg h']

theorem tail_newline (a : List Char) :
    tail? '\n' a = some (.newline, a.takeWhile (· = '\n')) := by
  rfl

end Lexeme

open Lexeme

theorem drop_takeWhile_length (p : Char → Bool) (a : List Char) :
    a.drop (a.takeWhile p).length = a.dropWhile p := by
  induction a with
  | nil => rfl
  | cons c a ih => by_cases h : p c <;> simp [h, ih]

/-- The token of a run of newlines, without its position. -/
def newlines (a : List Char) : Token := ⟨.newline, String.ofList ('\n' :: a), 0, 0⟩

theorem cutToken_newline (a : List Char) : cutToken ('\n' :: a) =
    (.ok (newlines (a.takeWhile (· = '\n'))), a.dropWhile (· = '\n')) := by
  rw [cutToken, if_neg (by decide), tail_newline, ← drop_takeWhile_length]
  rfl

/-- Every string of the text has its closing quote. -/
def Closed (a : List Char) : Prop := .error ⟨.unterminatedString, 0, 0⟩ ∉ lex a

/-- What follows the cuts that a text shares with all its extensions by a newline. -/
inductive LastCuts (a : List Char) : List Outcome → Prop where
  | bare : LastCuts a [.ok textEnd]
  | newlines (x : List Char) : ['\n'] <:+ a → LastCuts a [.ok (newlines x), .ok textEnd]

theorem LastCuts.of_suffix {a c : List Char} {l : List Outcome} (h : LastCuts c l) (hc : c <:+ a) :
    LastCuts a l := by
  cases h with
  | bare => exact .bare
  | newlines x hx => exact .newlines x (hx.trans hc)

theorem splitGap_suffix (a : List Char) : (splitGap false a).2 <:+ a :=
  ⟨_, splitGap_append false a⟩

theorem cutToken_cons_suffix (c : Char) (a : List Char) : (cutToken (c :: a)).2 <:+ a := by
  unfold cutToken
  dsimp only
  split
  · have hq : (splitQuoted a).2 <:+ a := ⟨_, splitQuoted_append a⟩
    unfold cutQuoted
    split
    · exact List.nil_suffix
    · next q rest hr =>
      have hr : rest <:+ a := (List.suffix_cons q rest).trans (hr ▸ hq)
      split <;> exact hr
  · split
    · exact List.drop_suffix _ _
    · exact List.suffix_rfl

theorem cutToken_suffix (a : List Char) : (cutToken a).2 <:+ a := by
  cases a with
  | nil => exact List.suffix_rfl
  | cons c a => exact (cutToken_cons_suffix c a).trans (List.suffix_cons c a)

/-- A newline behind a text ends the first cut where it ended, unless that is a run of newlines. -/
theorem cutToken_join {c : Char} {a b : List Char} (hc : c ≠ '\n')
    (hu : (cutToken (c :: a)).1 ≠ .error ⟨.unterminatedString, 0, 0⟩) :
    cutToken (c :: a ++ '\n' :: b) =
      ((cutToken (c :: a)).1, (cutToken (c :: a)).2 ++ '\n' :: b) := by
  obtain ⟨tail, htail⟩ := cutToken_cons_suffix c a
  rcases hcut : cutToken (c :: a) with ⟨o, r⟩
  rw [hcut] at htail hu
  subst htail
  have hr := replaces_append r [] (show Severs '\n' by simp [Severs]) b
  rw [List.append_nil] at hr
  simpa using cutToken_replaces hr (fun h => absurd h hc) hcut hu

theorem cut_suffix (a : List Char) : (cut a).2 <:+ a :=
  (cutToken_suffix _).trans (splitGap_suffix a)

theorem mem_lex {a : List Char} {o : Outcome} (h : o ∈ lex a) :
    ∃ s, s <:+ a ∧ (cutToken s).1 = o := by
  fun_induction lex a with
  | case1 a ha ih =>
    rcases List.mem_cons.mp h with rfl | h
    · exact ⟨_, splitGap_suffix a, rfl⟩
    · obtain ⟨s, hs, ho⟩ := ih h
      exact ⟨s, hs.trans (cut_suffix a), ho⟩
  | case2 a ha =>
    rw [List.mem_singleton.mp h]
    exact ⟨_, splitGap_suffix a, rfl⟩

/-- A token of a kind with one spelling stands in the text as it is spelled. -/
theorem spelling_of_cutToken {s x : List Char} {t : Token} (h : (cutToken s).1 = .ok t)
    (hx : t.kind.spelling? = some x) : x <+: s ∧ t.lexeme = String.ofList x := by
  cases s with
  | nil =>
    obtain rfl := Except.ok.inj h
    simp [TokenKind.spelling?] at hx
  | cons c s =>
    unfold cutToken at h
    dsimp only at h
    split at h
    · unfold cutQuoted at h
      split at h
      · simp at h
      · split at h
        · simp at h
        · obtain rfl := Except.ok.inj h
          simp [TokenKind.spelling?] at hx
    · split at h
      · next kind tail ht =>
        obtain rfl := Except.ok.inj h
        rcases tail_spelling ht with rfl | rfl | rfl | hk
        · simp [TokenKind.spelling?] at hx
        · simp [TokenKind.spelling?] at hx
        · simp [TokenKind.spelling?] at hx
        · obtain rfl := Option.some.inj (hx.symm.trans hk)
          exact ⟨by simpa using tail_isPrefix ht, rfl⟩
      · simp at h

/-- Only a quote can begin a string that is left open. -/
theorem quote_of_unterminated {s : List Char} {line col : Nat}
    (h : (cutToken s).1 = .error ⟨.unterminatedString, line, col⟩) : '"' ∈ s := by
  cases s with
  | nil => simp [cutToken] at h
  | cons c s =>
    by_cases hc : c = '"'
    · simp [hc]
    · rw [cutToken, if_neg hc] at h
      split at h <;> simp at h

theorem suffix_of_newlines {a s : List Char} (hs : '\n' :: s <:+ a)
    (hd : s.dropWhile (· = '\n') = []) : ['\n'] <:+ a := by
  refine List.IsSuffix.trans ?_ hs
  rcases List.eq_nil_or_concat s with rfl | ⟨t, c, rfl⟩
  · exact List.suffix_rfl
  · have hc : c = '\n' := by simpa using List.dropWhile_eq_nil_iff.mp hd c (by simp)
    subst hc
    exact ⟨'\n' :: t, by simp⟩

theorem takeWhile_newlines_append {s : List Char} (hd : s.dropWhile (· = '\n') ≠ [])
    (x : List Char) : (s ++ x).takeWhile (· = '\n') = s.takeWhile (· = '\n') ∧
      (s ++ x).dropWhile (· = '\n') = s.dropWhile (· = '\n') ++ x := by
  induction s with
  | nil => simp at hd
  | cons c s ih =>
    by_cases hc : c = '\n'
    · subst hc
      have hs := ih (by simpa using hd)
      simp [hs.1, hs.2]
    · simp [hc]

/-- The cuts of two texts joined by a newline: those of the first, up to its last ones, a run of
newlines, and those of the second behind its first newlines. -/
def Joins (a b : List Char) : Prop :=
  ∃ l last x, LastCuts a last ∧ lex a = l ++ last ∧ (∀ o ∈ l, o.isEnd = false) ∧
    lex (a ++ '\n' :: b) = l ++ .ok (newlines x) :: lex (b.dropWhile (· = '\n')) ∧
    Behind (a ++ '\n' :: b) (b.dropWhile (· = '\n'))

/-- One cut that both texts begin with. -/
theorem Joins.step {a b rest : List Char} {o : Outcome} (hc : cut a = (o, rest))
    (ho : o.isEnd = false) (hj : cut (a ++ '\n' :: b) = (o, rest ++ '\n' :: b))
    (h : Joins rest b) : Joins a b := by
  obtain ⟨l, last, x, hlast, hl, hends, hlj, hb⟩ := h
  have hrest : rest <:+ a := by simpa [hc] using cut_suffix a
  refine ⟨o :: l, last, x, hlast.of_suffix hrest, ?_, by simpa using ⟨ho, hends⟩, ?_, ?_⟩
  · rw [lex_of_cut hc ho, hl, List.cons_append]
  · rw [lex_of_cut hj ho, hlj, List.cons_append]
  · exact .head (by rwa [hj])

theorem lex_join {a : List Char} (ha : Closed a) (b : List Char) : Joins a b := by
  generalize hn : a.length = n
  induction n using Nat.strongRecOn generalizing a with
  | _ n ih =>
    have step : ∀ o rest, cut a = (o, rest) → o.isEnd = false →
        cut (a ++ '\n' :: b) = (o, rest ++ '\n' :: b) → Joins a b := by
      intro o rest hc ho hj
      have hlt : rest.length < n := by
        have hlt := length_cut (hc ▸ ho : (cut a).1.isEnd = false)
        rwa [hc, hn] at hlt
      have hrest : Closed rest := fun h => ha (lex_of_cut hc ho ▸ List.mem_cons_of_mem _ h)
      exact .step hc ho hj (ih _ hlt hrest rfl)
    have hj : cut (a ++ '\n' :: b) = cutToken ((splitGap false a).2 ++ '\n' :: b) := by
      rw [cut, splitGap_join]
    have hs := splitGap_suffix a
    rcases hg : (splitGap false a).2 with _ | ⟨c, s⟩
    · refine ⟨[], [.ok textEnd], b.takeWhile (· = '\n'), .bare, ?_, by simp, ?_⟩
      · exact lex_of_end (by rw [cut, hg]; rfl) rfl
      · rw [hg, List.nil_append, cutToken_newline] at hj
        exact ⟨lex_of_cut hj rfl, .head (by rw [hj]; exact .refl _)⟩
    · rw [hg] at hj hs
      have hc : cut a = cutToken (c :: s) := by rw [cut, hg]
      by_cases hcn : c = '\n'
      · subst hcn
        rw [cutToken_newline] at hc
        rw [List.cons_append, cutToken_newline] at hj
        by_cases hd : s.dropWhile (· = '\n') = []
        · refine ⟨[], [.ok (newlines (s.takeWhile (· = '\n'))), .ok textEnd],
            (s ++ '\n' :: b).takeWhile (· = '\n'), .newlines _ (suffix_of_newlines hs hd), ?_,
            by simp, ?_⟩
          · rw [lex_of_cut hc rfl, hd, lex_nil]
            rfl
          · have hdrop : (s ++ '\n' :: b).dropWhile (· = '\n') = b.dropWhile (· = '\n') := by
              rw [List.dropWhile_append, hd]
              rfl
            rw [hdrop] at hj
            exact ⟨lex_of_cut hj rfl, .head (by rw [hj]; exact .refl _)⟩
        · rw [(takeWhile_newlines_append hd _).1, (takeWhile_newlines_append hd _).2] at hj
          exact step _ _ hc rfl hj
      · have ho : (cutToken (c :: s)).1.isEnd = false := by
          rw [← Bool.not_eq_true, cutToken_isEnd]
          exact List.cons_ne_nil c s
        have hu : (cutToken (c :: s)).1 ≠ .error ⟨.unterminatedString, 0, 0⟩ := by
          intro hu
          refine ha ?_
          rw [lex, dif_pos (hc ▸ ho), hc, hu]
          exact List.mem_cons_self
        rw [cutToken_join hcn hu] at hj
        exact step _ _ hc ho hj

end ArrowLang
