import ArrowLang.Proofs.Cuts
import Mathlib.Data.List.TakeWhile

/-!
# What stands behind a lexeme

A lexeme is ended by the first one or two characters behind it. So it stays the same if something
else follows that goes on with the same characters, with a gap or with a newline.
-/
namespace ArrowLang

open Lexeme

/-- A character with which a gap begins, or a newline: no lexeme but a run of newlines goes on with
it. -/
def Severs (c : Char) : Prop := c = ' ' ∨ c = '\t' ∨ c = '\r' ∨ c = '#' ∨ c = '\n'

theorem Severs.isDigit {g : Char} (h : Severs g) : g.isDigit = false := by
  rcases h with rfl | rfl | rfl | rfl | rfl <;> rfl

theorem Severs.isWordChar {g : Char} (h : Severs g) : isWordChar g = false := by
  rcases h with rfl | rfl | rfl | rfl | rfl <;> rfl

/-- Behind a lexeme that is no run of newlines, `s` may stand in place of `r`. -/
structure Replaces (r s : List Char) : Prop where
  head : ∀ c ∈ s.head?, c ∈ r.head? ∨ Severs c
  point : ∀ d s', s = '.' :: d :: s' → Severs d ∨ ∃ r', r = '.' :: d :: r'

theorem Replaces.refl (r : List Char) : Replaces r r :=
  ⟨fun _ h => .inl h, fun _ r' h => .inr ⟨r', h⟩⟩

/-- Two texts that have characters in common, behind which the second one ends a lexeme. -/
theorem replaces_append (a z : List Char) {g : Char} (hg : Severs g) (y : List Char) :
    Replaces (a ++ z) (a ++ g :: y) := by
  have hpoint : ¬ Severs '.' := by simp [Severs]
  rcases a with _ | ⟨c, _ | ⟨d, a⟩⟩
  · refine ⟨by simpa using .inr hg, fun d s' h => ?_⟩
    cases h
    exact absurd hg hpoint
  · refine ⟨by simp, fun d s' h => ?_⟩
    cases h
    exact .inl hg
  · refine ⟨by simp, fun e s' h => ?_⟩
    cases h
    exact .inr ⟨a ++ z, rfl⟩

section
variable {r s : List Char}

theorem Replaces.head_false {p : Char → Bool} (h : Replaces r s) (hp : ∀ g, Severs g → p g = false)
    (hr : ∀ c ∈ r.head?, p c = false) : ∀ c ∈ s.head?, p c = false := by
  intro c hc
  exact (h.head c hc).elim (hr c) (hp c)

namespace Lexeme

theorem takeWhile_boundary {p : Char → Bool} {cs rest : List Char} (hc : ∀ c ∈ cs, p c)
    (hr : ∀ c ∈ rest.head?, p c = false) : (cs ++ rest).takeWhile p = cs ∧
      (cs ++ rest).dropWhile p = rest := by
  have hrest : rest.takeWhile p = [] ∧ rest.dropWhile p = rest := by
    cases rest with
    | nil => exact ⟨rfl, rfl⟩
    | cons c r => simp [hr c rfl]
  rw [List.takeWhile_append_of_pos hc, List.dropWhile_append_of_pos hc, hrest.1, hrest.2]
  simp

theorem head_of_takeWhile {p : Char → Bool} {cs rest : List Char}
    (h : (cs ++ rest).takeWhile p = cs) : ∀ c ∈ rest.head?, p c = false := by
  have hc : ∀ c ∈ cs, p c := fun c hc => List.mem_takeWhile_imp (h.symm ▸ hc)
  rw [List.takeWhile_append_of_pos hc] at h
  have h := List.append_right_eq_self.mp h
  intro c hc
  obtain ⟨t, rfl⟩ := List.head?_eq_some_iff.mp hc
  by_contra hp
  simp [hp] at h

theorem takeWhile_replaces {p : Char → Bool} {tail : List Char}
    (hs : (∀ c ∈ r.head?, p c = false) → ∀ c ∈ s.head?, p c = false)
    (h : (tail ++ r).takeWhile p = tail) : (tail ++ s).takeWhile p = tail :=
  (takeWhile_boundary (fun _ hc => List.mem_takeWhile_imp (h.symm ▸ hc))
    (hs (head_of_takeWhile h))).1

theorem numberTail_append {ds : List Char} (hd : ∀ d ∈ ds, d.isDigit) (r : List Char) :
    numberTail (ds ++ r) = ds ++ numberTail r := by
  unfold numberTail
  rw [List.takeWhile_append_of_pos hd, List.dropWhile_append_of_pos hd]
  dsimp only
  split
  · split <;> simp
  · rfl

theorem numberTail_point {f : Char} (hf : f.isDigit) (r : List Char) :
    numberTail ('.' :: f :: r) = '.' :: f :: r.takeWhile Char.isDigit := by
  simp [numberTail, hf]

/-- Where a number ends. -/
theorem numberTail_eq_nil {r : List Char} : numberTail r = [] ↔
    (∀ c ∈ r.head?, c.isDigit = false) ∧ ∀ d t, r = '.' :: d :: t → d.isDigit = false := by
  rcases r with _ | ⟨c, r⟩
  · simp [numberTail]
  · by_cases hc : c.isDigit
    · have h := numberTail_append (List.forall_mem_singleton.mpr hc) r
      rw [List.singleton_append] at h
      simp [h, hc]
    · unfold numberTail
      simp only [List.takeWhile_cons_of_neg hc, List.dropWhile_cons_of_neg hc]
      split
      · next d t h =>
        cases h
        by_cases hd : d.isDigit <;> simp [hd]
      · next h =>
        simp only [true_iff]
        refine ⟨by simpa using hc, fun d t ht => absurd ht (h d t)⟩

theorem numberTail_replaces (hs : Replaces r s) (h : numberTail r = []) : numberTail s = [] := by
  obtain ⟨hhead, hpoint⟩ := numberTail_eq_nil.mp h
  refine numberTail_eq_nil.mpr ⟨hs.head_false (fun _ => Severs.isDigit) hhead, fun d t ht => ?_⟩
  rcases hs.point d t ht with hd | ⟨t', hr⟩
  · exact hd.isDigit
  · exact hpoint d t' hr

/-- What the rest of a number can be. -/
theorem numberTail_cases (cs : List Char) : (∀ d ∈ numberTail cs, d.isDigit) ∨
    ∃ ds f fs, numberTail cs = ds ++ '.' :: f :: fs ∧ (∀ d ∈ ds, d.isDigit) ∧
      f.isDigit ∧ ∀ d ∈ fs, d.isDigit := by
  have hdigits : ∀ cs : List Char, ∀ d ∈ cs.takeWhile Char.isDigit, d.isDigit :=
    fun _ _ hd => List.mem_takeWhile_imp hd
  unfold numberTail
  dsimp only
  split
  · next f rest hd =>
    split
    · next hf => exact .inr ⟨_, f, _, rfl, hdigits cs, hf, hdigits rest⟩
    · exact .inl (hdigits cs)
  · exact .inl (hdigits cs)

theorem number_replaces (hs : Replaces r s) {tail : List Char}
    (h : numberTail (tail ++ r) = tail) : numberTail (tail ++ s) = tail := by
  have hcases := numberTail_cases (tail ++ r)
  rw [h] at hcases
  rcases hcases with hd | ⟨ds, f, fs, rfl, hd, hf, hfs⟩
  · rw [numberTail_append hd] at h ⊢
    rw [numberTail_replaces hs (List.append_right_eq_self.mp h), List.append_nil]
  · have happ : ∀ x, numberTail (ds ++ '.' :: f :: fs ++ x) =
        ds ++ '.' :: f :: (fs ++ x).takeWhile Char.isDigit := by
      intro x
      rw [List.append_assoc, numberTail_append hd, List.cons_append, List.cons_append,
        numberTail_point hf]
    rw [happ] at h ⊢
    have h : (fs ++ r).takeWhile Char.isDigit = fs := by simpa using h
    rw [takeWhile_replaces (hs.head_false fun _ => Severs.isDigit) h]

/-- No operator goes on with a gap or a newline. -/
theorem not_severs_of_compound {c : Char} {pairs : List (Char × TokenKind)} {alone : TokenKind}
    (h : TokenKind.compound? c = some (pairs, alone)) : ∀ p ∈ pairs, ¬ Severs p.1 := by
  unfold TokenKind.compound? at h
  split at h <;> simp only [Option.some.injEq, Prod.mk.injEq, reduceCtorEq] at h <;>
    obtain ⟨rfl, rfl⟩ := h <;> simp [Severs]

theorem operatorTail_replaces (hs : Replaces r s) {c : Char} {k : TokenKind} {tail : List Char}
    (h : operatorTail? c (tail ++ r) = some (k, tail)) :
    operatorTail? c (tail ++ s) = some (k, tail) := by
  unfold operatorTail? at h ⊢
  split at h
  · exact h
  · rcases hc : TokenKind.compound? c with _ | ⟨pairs, alone⟩ <;> rw [hc] at h
    · exact h
    · simp only [Option.map_some, Option.some.injEq] at h ⊢
      cases tail with
      | cons d tail => exact h
      | nil =>
        rw [List.nil_append] at h ⊢
        split at h
        · simp at h
        · next hnone =>
          rw [List.find?_eq_none] at hnone
          have hfind : pairs.find? (fun p => s.head? == some p.1) = none := by
            rw [List.find?_eq_none]
            intro p hp hhead
            rcases hs.head p.1 (by simpa using hhead) with hr | hg
            · exact hnone p hp (by simpa using hr)
            · exact not_severs_of_compound hc p hp hg
          rw [hfind]
          exact h

/-- A lexeme ends where it ended. A run of newlines does so if no newline is put behind it. -/
theorem tail_replaces (hs : Replaces r s) {c : Char} {k : TokenKind} {tail : List Char}
    (hn : c = '\n' → s.head? = some '\n' → r.head? = some '\n')
    (h : tail? c (tail ++ r) = some (k, tail)) : tail? c (tail ++ s) = some (k, tail) := by
  unfold tail? at h ⊢
  by_cases hd : c.isDigit
  · rw [if_pos hd] at h ⊢
    simp only [Option.some.injEq, Prod.mk.injEq] at h ⊢
    exact ⟨h.1, number_replaces hs h.2⟩
  rw [if_neg hd] at h ⊢
  by_cases hw : isWordStart c
  · rw [if_pos hw] at h ⊢
    simp only [Option.some.injEq, Prod.mk.injEq] at h ⊢
    rw [takeWhile_replaces (hs.head_false fun _ => Severs.isWordChar) h.2]
    rw [h.2] at h
    exact h
  rw [if_neg hw] at h ⊢
  by_cases hc : c = '\n'
  · have hhead : (∀ c ∈ r.head?, decide (c = '\n') = false) →
        ∀ c ∈ s.head?, decide (c = '\n') = false := by
      intro hr d hd
      rw [decide_eq_false_iff_not]
      rintro rfl
      exact absurd (hr '\n' (hn hc hd)) (by decide)
    rw [if_pos hc] at h ⊢
    simp only [Option.some.injEq, Prod.mk.injEq] at h ⊢
    exact ⟨h.1, takeWhile_replaces hhead h.2⟩
  rw [if_neg hc] at h ⊢
  exact operatorTail_replaces hs h

/-- What begins no lexeme begins none whatever follows. -/
theorem tail_eq_none {c : Char} (h : tail? c r = none) (s : List Char) : tail? c s = none := by
  unfold tail? at h ⊢
  split_ifs at h ⊢
  unfold operatorTail? at h ⊢
  split at h
  · cases h
  · rw [Option.map_eq_none_iff] at h ⊢
    exact h

/-- What closes a quoted body is a quote. -/
theorem splitQuoted_cases (cs : List Char) : (splitQuoted cs).2 = [] ∨
    ∃ rest, (splitQuoted cs).2 = '"' :: rest := by
  fun_induction splitQuoted cs <;> simp_all

theorem splitQuoted_plain {c : Char} (hq : c ≠ '"') (hb : c ≠ '\\') (cs : List Char) :
    splitQuoted (c :: cs) = (c :: (splitQuoted cs).1, (splitQuoted cs).2) := by
  rw [splitQuoted]
  · exact hq
  · intro d t h
    exact absurd h hb

/-- A body that a quote closes is closed whatever follows the quote. -/
theorem splitQuoted_closed {body : List Char}
    (h : splitQuoted (body ++ '"' :: r) = (body, '"' :: r)) (s : List Char) :
    splitQuoted (body ++ '"' :: s) = (body, '"' :: s) := by
  fun_induction splitQuoted body with
  | case1 => rfl
  | case2 cs => simp [splitQuoted] at h
  | case3 c cs b x hb ih =>
    rw [List.cons_append, List.cons_append, splitQuoted] at h ⊢
    simp only [Prod.mk.injEq, List.cons.injEq, true_and] at h
    rw [ih (Prod.ext h.1 h.2)]
  | case4 c cs hq hb b x hx ih =>
    by_cases hc : c = '\\'
    · -- the backslash is the last of the body, so it would take the quote
      subst hc
      cases cs with
      | nil => simp [splitQuoted] at h
      | cons d cs => exact (hb d cs rfl rfl).elim
    · rw [List.cons_append, splitQuoted_plain hq hc] at h ⊢
      simp only [Prod.mk.injEq, List.cons.injEq, true_and] at h
      rw [ih (Prod.ext h.1 h.2)]

/-- A gap ends where it ended if the same character follows. -/
theorem splitGap_head {b : Bool} {gap : List Char} (h : splitGap b (gap ++ r) = (gap, r))
    (hs : s.head? = r.head?) : splitGap b (gap ++ s) = (gap, s) := by
  induction gap generalizing b with
  | nil =>
    cases r with
    | nil =>
      obtain rfl : s = [] := by simpa using hs
      exact h
    | cons c r =>
      obtain ⟨t, rfl⟩ := List.head?_eq_some_iff.mp hs
      rw [List.nil_append, splitGap] at h ⊢
      split at h
      · simp at h
      · next hg =>
        rw [if_neg hg]
        split at h
        · simp at h
        · next hc => rw [if_neg hc]
  | cons c gap ih =>
    rw [List.cons_append, splitGap] at h ⊢
    split_ifs at h ⊢ with hg hc
    · have h := Prod.mk.inj h
      rw [ih (Prod.ext (List.cons.inj h.1).2 h.2)]
    · have h := Prod.mk.inj h
      rw [ih (Prod.ext (List.cons.inj h.1).2 h.2)]
    · simp at h

end Lexeme

theorem cutQuoted_replaces {tail : List Char} {o : Outcome} (h : cutQuoted (tail ++ r) = (o, r))
    (hu : o ≠ .error ⟨.unterminatedString, 0, 0⟩) (s : List Char) :
    cutQuoted (tail ++ s) = (o, s) := by
  have happ := splitQuoted_append (tail ++ r)
  unfold cutQuoted at h
  rcases hq : splitQuoted (tail ++ r) with ⟨body, rest⟩
  rw [hq] at h happ
  have hcases := splitQuoted_cases (tail ++ r)
  rw [hq] at hcases
  rcases hcases with rfl | ⟨rest, rfl⟩
  · exact absurd (congrArg Prod.fst h).symm hu
  · have hrest : rest = r := by
      dsimp only at h
      split at h <;> exact congrArg Prod.snd h
    subst hrest
    have htail : tail = body ++ ['"'] := List.append_cancel_right (by simpa using happ.symm)
    subst htail
    have hs := splitQuoted_closed (by simpa using hq) s
    unfold cutQuoted
    rw [List.append_assoc, List.singleton_append, hs]
    dsimp only at h ⊢
    split at h <;> exact congrArg (fun p => (p.1, s)) h

/-- A cut gives the same if what stands behind it is replaced. -/
theorem cutToken_replaces (hs : Replaces r s) {c : Char} {tail : List Char} {o : Outcome}
    (hn : c = '\n' → s.head? = some '\n' → r.head? = some '\n')
    (h : cutToken (c :: tail ++ r) = (o, r)) (hu : o ≠ .error ⟨.unterminatedString, 0, 0⟩) :
    cutToken (c :: tail ++ s) = (o, s) := by
  rw [List.cons_append] at h ⊢
  unfold cutToken at h ⊢
  dsimp only at h ⊢
  by_cases hq : c = '"'
  · rw [if_pos hq] at h ⊢
    exact cutQuoted_replaces h hu s
  rw [if_neg hq] at h ⊢
  cases ht : tail? c (tail ++ r) with
  | none =>
    rw [ht] at h
    have htail : tail = [] := List.append_left_eq_self.mp (congrArg Prod.snd h)
    subst htail
    rw [tail_eq_none ht]
    exact congrArg (fun p => (p.1, s)) h
  | some p =>
    obtain ⟨k, tail'⟩ := p
    rw [ht] at h
    obtain ⟨r', hr'⟩ := tail_isPrefix ht
    have hdrop : r' = r := by
      have hd := congrArg Prod.snd h
      dsimp only at hd
      rwa [← hr', List.drop_left] at hd
    subst hdrop
    obtain rfl := List.append_cancel_right hr'
    rw [tail_replaces hs hn ht]
    simpa using congrArg Prod.fst h

end
end ArrowLang
