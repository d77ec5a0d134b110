import ArrowLang.Grammar.Window
import ArrowLang.Proofs.Spelling
import Mathlib.Logic.Relation

/-!
# The tokens ahead of a window

A window over a text sees its current token and, behind it, the tokens that are still to be cut. One
move drops the first of these and reports the lexical errors up to the next. A move for which the
stack has no room stops in front of the next cut, or behind what it was about to build.
-/
namespace ArrowLang

/-- Cuts that end with the end of the text, which stands nowhere else. -/
inductive Terminated : List Outcome → Prop where
  | last (t : Token) : t.kind = .endOfText → Terminated [.ok t]
  | cons (o : Outcome) (l : List Outcome) : o.isEnd = false → Terminated l → Terminated (o :: l)

theorem Terminated.ne_nil {l : List Outcome} (h : Terminated l) : l ≠ [] := by
  cases h <;> simp

namespace Outcome

/-- A cut that ends the text is its end token. -/
theorem isEnd_iff {o : Outcome} : o.isEnd = true ↔ ∃ t, o = .ok t ∧ t.kind = .endOfText := by
  cases o <;> simp [isEnd]

def error? : Outcome → Option LexicalError
  | .ok _ => none
  | .error e => some e

theorem frames_le (o : Outcome) : o.frames ≤ 5 := by
  unfold frames
  split <;> split <;> decide

/-- An error of a quoted string. -/
def inString : Outcome → Bool
  | .ok _ => false
  | .error e => match e.fault with
    | .unrecognizedEscape _ | .unterminatedString => true
    | _ => false

end Outcome

namespace Lexeme

/-- The part up to a bad escape begins the body that it is in. -/
theorem badPart?_prefix {cs part : List Char} (h : badPart? cs = some part) : part <+: cs := by
  fun_induction badPart? cs generalizing part with
  | case1 => cases h
  | case2 => cases h
  | case3 c cs hc ih =>
    obtain ⟨p, hp, rfl⟩ := Option.map_eq_some_iff.mp h
    exact List.cons_prefix_cons.mpr ⟨rfl, List.cons_prefix_cons.mpr ⟨rfl, ih hp⟩⟩
  | case4 c cs hc =>
    obtain rfl := Option.some.inj h
    exact ⟨cs, rfl⟩
  | case5 c cs _ _ ih =>
    obtain ⟨p, hp, rfl⟩ := Option.map_eq_some_iff.mp h
    exact List.cons_prefix_cons.mpr ⟨rfl, ih hp⟩

/-- An escape is bad where it ends the part up to the first bad one. -/
theorem badPart?_isSome (cs : List Char) (at' : Nat × Nat) :
    (badPart? cs).isSome = (badEscape? cs at').isSome := by
  fun_induction badPart? cs generalizing at' with
  | case1 => rfl
  | case2 => rfl
  | case3 c cs hc ih => rw [badEscape?, if_pos hc, Option.isSome_map, ih]
  | case4 c cs hc => rw [badEscape?, if_neg hc]; rfl
  | case5 c cs h₁ h₂ ih => rw [badEscape?.eq_4 _ _ _ _ h₁ h₂, Option.isSome_map, ih]

end Lexeme

namespace Cursor

theorem terminated_outcomes (s : Cursor) : Terminated s.outcomes := by
  unfold outcomes
  fun_induction cuts s with
  | case1 s h ih => exact .cons _ _ h ih
  | case2 s h =>
    obtain ⟨t, ht, hk⟩ := Outcome.isEnd_iff.mp (by simpa using h)
    simpa [ht] using Terminated.last t hk

variable {s v : Cursor} {t : Token} {e : LexicalError}

theorem outcomes_of_end (h : s.next = (.ok t, v)) (ht : t.kind = .endOfText) :
    s.outcomes = [.ok t] := by
  simp [outcomes, cuts, h, Outcome.isEnd, ht]

theorem outcomes_of_ok (h : s.next = (.ok t, v)) (ht : t.kind ≠ .endOfText) :
    s.outcomes = .ok t :: v.outcomes := by
  rw [outcomes, cuts, dif_pos (by simp [h, Outcome.isEnd, ht]), h]
  rfl

theorem outcomes_of_error (h : s.next = (.error e, v)) : s.outcomes = .error e :: v.outcomes := by
  rw [outcomes, cuts, dif_pos (by simp [h, Outcome.isEnd]), h]
  rfl

/-- A cut takes a character at least, but for the one that finds the end. -/
theorem length_outcomes_le (s : Cursor) : s.outcomes.length ≤ s.rest.length + 1 := by
  unfold outcomes
  fun_induction cuts s with
  | case1 s h ih =>
    have hlt := length_rest_next s h
    simp only [List.length_map, List.length_cons] at ih ⊢
    omega
  | case2 s h => simp

theorem length_rest_token_le (s : Cursor) : s.token.2.rest.length ≤ s.rest.length := by
  by_cases h : s.rest = []
  · simp [token, h]
  · exact Nat.le_of_lt (length_rest_token_of_ne s h)

theorem length_rest_next_le (s : Cursor) : s.next.2.rest.length ≤ s.rest.length :=
  Nat.le_trans s.skipGap.length_rest_token_le s.length_rest_skipGap

/-- Behind what cannot be built no more is left than before. -/
theorem length_rest_broken_le (s : Cursor) : s.broken.rest.length ≤ s.rest.length := by
  have hnext := s.length_rest_next_le
  have hgap := s.length_rest_skipGap
  simp only [broken]
  split
  · next cs hcs =>
    rw [hcs, List.length_cons] at hgap
    split
    · simp only [List.length_drop]
      omega
    · exact hnext
  · exact hnext

theorem inString_quoted {cs : List Char} (h : (s.quoted cs).1 = .error e) :
    Outcome.inString (.error e) = true := by
  unfold quoted at h
  dsimp only at h
  split at h
  · cases h
    rfl
  · split at h <;> cases h
    rfl

theorem quoted_of_badPart {cs part : List Char} (h : Lexeme.badPart? (Lexeme.splitQuoted cs).1 = some part) :
    ∃ e, (s.quoted cs).1 = .error e := by
  have hbad := Lexeme.badPart?_isSome (Lexeme.splitQuoted cs).1 (s.line, s.col + 1)
  rw [h] at hbad
  obtain ⟨⟨c, line, col⟩, hc⟩ := Option.isSome_iff_exists.mp hbad.symm
  unfold quoted
  dsimp only
  split
  · exact ⟨_, rfl⟩
  · rw [hc]
    exact ⟨_, rfl⟩

/-- What cannot be built is passed as a whole, unless it is an error of a string. -/
theorem broken_eq_next (h : Outcome.inString s.next.1 = false) : s.broken = s.next.2 := by
  simp only [broken]
  split
  · next cs hcs =>
    split
    · next part hpart =>
      obtain ⟨e, he⟩ := quoted_of_badPart (s := s.skipGap) hpart
      have hn : s.next.1 = .error e := by
        rw [next, token, hcs]
        exact he
      rw [hn, inString_quoted he] at h
      cases h
    · rfl
  · rfl

theorem broken_of_ok (h : s.next.1 = .ok t) : s.broken = s.next.2 :=
  broken_eq_next (by rw [h]; rfl)

theorem rest_of_end (h : s.token.1 = .ok t) (ht : t.kind = .endOfText) : s.rest = [] := by
  unfold token at h
  split at h
  · assumption
  · next c cs hr =>
    split at h
    · unfold quoted at h
      dsimp only at h
      split at h
      · cases h
      · split at h <;> cases h
        cases ht
    · split at h
      · next k tail htail =>
        cases h
        exact absurd ht (Lexeme.tail_kind_ne htail).1
      · cases h

/-- The end of the text is found again. -/
theorem next_of_end (h : s.next = (.ok t, v)) (ht : t.kind = .endOfText) : v.next = (.ok t, v) := by
  have hr : s.skipGap.rest = [] := rest_of_end (congrArg Prod.fst h) ht
  have hs : s.next = (.ok ⟨.endOfText, "", s.skipGap.line, s.skipGap.col⟩, s.skipGap) := by
    rw [next, token, hr]
  obtain ⟨ho, rfl⟩ := Prod.mk.inj (h.symm.trans hs)
  obtain rfl := Except.ok.inj ho
  have hgap : s.skipGap.skipGap = s.skipGap := by
    rw [skipGap, hr]
    simp only [skipGap] at hr ⊢
    simp [Lexeme.splitGap, hr]
  rw [next, hgap, token, hr]

/-- Behind a cut that gets lost are the cuts behind it. -/
theorem outcomes_broken (h : Outcome.inString s.next.1 = false) :
    s.outcomes = s.next.1 :: s.broken.outcomes ∨ s.broken.outcomes = s.outcomes := by
  have hb := broken_eq_next h
  rcases hn : s.next with ⟨e | t, v⟩ <;> rw [hn] at hb
  · rw [hb]
    exact .inl (outcomes_of_error hn)
  · by_cases ht : t.kind = .endOfText
    · exact .inr (by rw [hb, outcomes_of_end hn ht, outcomes_of_end (next_of_end hn ht) ht])
    · rw [hb]
      exact .inl (outcomes_of_ok hn ht)

end Cursor

/-- The stack ran out before this was built, which the scan had passed. -/
def Loss {α : Type} (r : Except Failure α) (o : Outcome) : Prop := r = .error (.tooDeep (some o))

@[simp] theorem not_loss_ok {α : Type} (x : α) (o : Outcome) : ¬ Loss (.ok x) o := by simp [Loss]

@[simp] theorem not_loss_none {α : Type} (o : Outcome) :
    ¬ Loss (.error (.tooDeep none) : Except Failure α) o := by simp [Loss]

namespace Window

/-- The cuts that are still to be made. -/
def rest (w : Window) : List Outcome :=
  if w.current.kind = .endOfText then [] else w.cursor.outcomes

/-- The current token and the tokens behind it. -/
def ahead (w : Window) : List Token := w.current :: w.rest.filterMap Except.toOption

section
variable {w : Window}

theorem rest_of_end (hc : w.current.kind = .endOfText) : w.rest = [] := if_pos hc

theorem rest_of_ne (hc : w.current.kind ≠ .endOfText) : w.rest = w.cursor.outcomes := if_neg hc

theorem terminated_rest (hc : w.current.kind ≠ .endOfText) : Terminated w.rest :=
  rest_of_ne hc ▸ w.cursor.terminated_outcomes

theorem ahead_of_end (hc : w.current.kind = .endOfText) : w.ahead = [w.current] := by
  simp [ahead, rest_of_end hc]

theorem length_rest_le (w : Window) : w.rest.length ≤ w.remaining := by
  by_cases hc : w.current.kind = .endOfText
  · simp [rest_of_end hc]
  · rw [rest_of_ne hc, remaining, if_neg hc]
    exact w.cursor.length_outcomes_le

theorem advance_of_end (hc : w.current.kind = .endOfText) :
    w.advance = { w with previous := w.current } := by
  simp [advance, move, hc]

/-- A window behind a lexical error. -/
def pass (w : Window) (e : LexicalError) (v : Cursor) : Window :=
  { w with cursor := v, diagnostics := w.diagnostics.push (.ofLexical e) }

theorem pull_eq (stack : Stack) (p c : Token) (s : Cursor) (ds : Array Diagnostic) :
    pull stack p c s ds =
      if stack.holds scanFrames = true then
        if stack.holds (Outcome.frames s.next.1) = true then
          match s.next with
          | (.ok t, v) => (.ok (), ⟨p, t, v, ds⟩)
          | (.error e, v) => pull stack p c v (ds.push (.ofLexical e))
        else (.error (.tooDeep (some s.next.1)), ⟨p, c, s.broken, ds⟩)
      else (.error (.tooDeep none), ⟨p, c, s, ds⟩) := by
  rw [pull]
  refine ite_congr rfl (fun _ => ?_) fun _ => rfl
  split
  next o v hn =>
  have ho : s.next.1 = o := congrArg Prod.fst hn
  rw [ho]
  refine ite_congr rfl (fun _ => ?_) fun _ => rfl
  cases o <;> simp [hn]

theorem advance_of_ok {t : Token} {v : Cursor} (hc : w.current.kind ≠ .endOfText)
    (h : w.cursor.next = (.ok t, v)) : w.advance = ⟨w.current, t, v, w.diagnostics⟩ := by
  rw [advance, move, if_neg hc, pull_eq, h]
  rfl

theorem advance_of_error {e : LexicalError} {v : Cursor} (hc : w.current.kind ≠ .endOfText)
    (h : w.cursor.next = (.error e, v)) : w.advance = (w.pass e v).advance := by
  rw [advance, move, if_neg hc, pull_eq, h, advance, move,
    if_neg (show (w.pass e v).current.kind ≠ .endOfText from hc)]
  rfl

/-- What holds of a window at a token, and of one at an error if behind it, holds wherever the text
is not at its end. -/
theorem advance_induction {motive : (w : Window) → w.current.kind ≠ .endOfText → Prop}
    (token : ∀ (w : Window) (hc : w.current.kind ≠ .endOfText) (t : Token) (v : Cursor),
      w.cursor.next = (.ok t, v) → motive w hc)
    (error : ∀ (w : Window) (hc : w.current.kind ≠ .endOfText) (e : LexicalError) (v : Cursor),
      w.cursor.next = (.error e, v) → motive (w.pass e v) hc → motive w hc)
    (w : Window) (hc : w.current.kind ≠ .endOfText) : motive w hc := by
  generalize hn : w.cursor.rest.length = n
  induction n using Nat.strongRecOn generalizing w with
  | _ n ih =>
    rcases h : w.cursor.next with ⟨e | t, v⟩
    · have hlt := w.cursor.length_rest_next (by rw [h]; rfl)
      rw [h, hn] at hlt
      exact error w hc e v h (ih _ hlt (w.pass e v) hc rfl)
    · exact token w hc t v h

@[simp] theorem previous_advance (w : Window) : w.advance.previous = w.current := by
  by_cases hc : w.current.kind = .endOfText
  · rw [advance_of_end hc]
  · induction w, hc using advance_induction with
    | token w hc t v h => rw [advance_of_ok hc h]
    | error w hc e v h ih => rw [advance_of_error hc h, ih]; rfl

theorem rest_of_ok {t : Token} {v : Cursor} (hc : w.current.kind ≠ .endOfText)
    (h : w.cursor.next = (.ok t, v)) : w.rest = .ok t :: w.advance.rest := by
  rw [advance_of_ok hc h, rest_of_ne hc]
  by_cases ht : t.kind = .endOfText
  · rw [Cursor.outcomes_of_end h ht, rest_of_end ht]
  · rw [Cursor.outcomes_of_ok h ht, rest_of_ne ht]

theorem rest_of_error {e : LexicalError} {v : Cursor} (hc : w.current.kind ≠ .endOfText)
    (h : w.cursor.next = (.error e, v)) : w.rest = .error e :: (w.pass e v).rest := by
  rw [rest_of_ne hc, Cursor.outcomes_of_error h]
  exact congrArg _ (if_neg hc).symm

theorem length_rest_advance (hc : w.current.kind ≠ .endOfText) :
    w.advance.rest.length < w.rest.length := by
  induction w, hc using advance_induction with
  | token w hc t v h =>
    rw [rest_of_ok hc h]
    exact Nat.lt_succ_self _
  | error w hc e v h ih =>
    rw [advance_of_error hc h, rest_of_error hc h]
    exact Nat.lt_succ_of_lt ih

/-- A move drops the first of the tokens ahead. -/
theorem ahead_eq (hc : w.current.kind ≠ .endOfText) : w.ahead = w.current :: w.advance.ahead := by
  induction w, hc using advance_induction with
  | token w hc t v h =>
    rw [ahead, rest_of_ok hc h, ahead, advance_of_ok hc h]
    rfl
  | error w hc e v h ih =>
    rw [advance_of_error hc h, ← show (w.pass e v).current = w.current from rfl, ← ih, ahead, ahead,
      rest_of_error hc h]
    rfl

end

/-- One step of a move: the token over which the window moves is the previous one from then on, the
errors behind it are reported one by one, and the next token comes in. -/
inductive Step : Window → Window → Prop where
  | pass (w : Window) : Step w { w with previous := w.current }
  | error {w : Window} {e : LexicalError} {v : Cursor} : w.current.kind ≠ .endOfText →
      w.cursor.next = (.error e, v) → Step w (w.pass e v)
  | token {w : Window} {t : Token} {v : Cursor} : w.current.kind ≠ .endOfText →
      w.cursor.next = (.ok t, v) → Step w ⟨w.current, t, v, w.diagnostics⟩

/-- A step, or the loss of what is next, of which `lost` tells what it may be. -/
inductive Slip (lost : Outcome → Prop) : Window → Window → Prop where
  | step {w v : Window} : w.Step v → Slip lost w v
  | lose {w : Window} : w.current.kind ≠ .endOfText → lost w.cursor.next.1 →
      Slip lost w { w with cursor := w.cursor.broken }

/-- A window that some steps lead to. -/
def Reaches : Window → Window → Prop := Relation.ReflTransGen Step

/-- A window to which steps lead where something may get lost. -/
def Strays (lost : Outcome → Prop) : Window → Window → Prop := Relation.ReflTransGen (Slip lost)

section
variable {lost : Outcome → Prop} {u v w : Window}

theorem Reaches.refl (w : Window) : w.Reaches w := Relation.ReflTransGen.refl

theorem Strays.refl (w : Window) : w.Strays lost w := Relation.ReflTransGen.refl

theorem Reaches.trans (h : u.Reaches v) (h' : v.Reaches w) : u.Reaches w :=
  Relation.ReflTransGen.trans h h'

theorem Strays.trans (h : u.Strays lost v) (h' : v.Strays lost w) : u.Strays lost w :=
  Relation.ReflTransGen.trans h h'

theorem Reaches.strays (h : w.Reaches v) : w.Strays lost v :=
  Relation.ReflTransGen.mono (fun _ _ => Slip.step) _ _ h

/-- Where nothing gets lost. -/
theorem Reaches.safely (h : w.Reaches v) : w.Strays (fun _ => False) v := h.strays

theorem Strays.mono {lost' : Outcome → Prop} (h : w.Strays lost v) (hl : ∀ o, lost o → lost' o) :
    w.Strays lost' v := by
  refine Relation.ReflTransGen.mono (fun a b hs => ?_) _ _ h
  cases hs with
  | step hs => exact .step hs
  | lose hc ho => exact .lose hc (hl _ ho)

/-- Where nothing may get lost there are steps alone. -/
theorem Strays.reaches (h : w.Strays lost v) (hl : ∀ o, ¬ lost o) : w.Reaches v := by
  refine Relation.ReflTransGen.mono (fun a b hs => ?_) _ _ h
  cases hs with
  | step hs => exact hs
  | lose hc ho => exact absurd ho (hl _)

/-- What a step keeps, any number of steps keeps. -/
theorem Reaches.preserves {P : Window → Prop} (step : ∀ u v, Step u v → P u → P v)
    (h : w.Reaches v) (hw : P w) : P v := by
  induction h with
  | refl => exact hw
  | tail _ hs ih => exact step _ _ hs ih

theorem Strays.preserves {P : Window → Prop} (step : ∀ u v, Slip lost u v → P u → P v)
    (h : w.Strays lost v) (hw : P w) : P v := by
  induction h with
  | refl => exact hw
  | tail _ hs ih => exact step _ _ hs ih

theorem remaining_of_ne (hc : w.current.kind ≠ .endOfText) :
    w.remaining = w.cursor.rest.length + 1 := if_neg hc

theorem Slip.remaining_le (h : w.Slip lost v) : v.remaining ≤ w.remaining := by
  cases h with
  | step h => cases h with
    | pass => exact Nat.le_refl _
    | @error e s hc hn =>
      have hlt := w.cursor.length_rest_next (by rw [hn]; rfl)
      rw [hn] at hlt
      rw [remaining_of_ne hc, remaining_of_ne (w := w.pass e s) hc]
      exact Nat.succ_le_succ (Nat.le_of_lt hlt)
    | @token t s hc hn =>
      have hlt := remaining_advance hc
      rw [advance_of_ok hc hn] at hlt
      exact Nat.le_of_lt hlt
  | lose hc =>
    have hle := w.cursor.length_rest_broken_le
    rw [remaining_of_ne hc, remaining_of_ne (w := { w with cursor := w.cursor.broken }) hc]
    exact Nat.succ_le_succ hle

/-- A window is never farther from the end of the text than those before it. -/
theorem Strays.remaining_le (h : w.Strays lost v) : v.remaining ≤ w.remaining :=
  h.preserves (P := fun v => v.remaining ≤ w.remaining)
    (fun _ _ hs hv => Nat.le_trans hs.remaining_le hv) (Nat.le_refl _)

theorem Reaches.remaining_le (h : w.Reaches v) : v.remaining ≤ w.remaining :=
  h.safely.remaining_le

/-- The end of the text is never left. -/
theorem Strays.current_eq (h : w.Strays lost v) (hw : w.current.kind = .endOfText) :
    v.current = w.current := by
  refine h.preserves (P := fun v => v.current = w.current) ?_ rfl
  intro u v hs hu
  cases hs with
  | step hs => cases hs with
    | pass => exact hu
    | error hc _ => exact absurd (hu ▸ hw) hc
    | token hc _ => exact absurd (hu ▸ hw) hc
  | lose => exact hu

theorem Strays.ended (h : w.Strays lost v) (hw : w.current.kind = .endOfText) :
    v.current.kind = .endOfText := by
  rw [h.current_eq hw, hw]

theorem Reaches.current_eq (h : w.Reaches v) (hw : w.current.kind = .endOfText) :
    v.current = w.current := h.safely.current_eq hw

theorem Reaches.ended (h : w.Reaches v) (hw : w.current.kind = .endOfText) :
    v.current.kind = .endOfText := h.safely.ended hw

theorem Step.rest_suffix (h : w.Step v) : v.rest <:+ w.rest := by
  cases h with
  | pass => exact List.suffix_rfl
  | error hc hn =>
    rw [rest_of_error hc hn]
    exact List.suffix_cons _ _
  | token hc hn =>
    rw [rest_of_ok hc hn, advance_of_ok hc hn]
    exact List.suffix_cons _ _

theorem rest_broken (hc : w.current.kind ≠ .endOfText)
    (h : Outcome.inString w.cursor.next.1 = false) :
    w.rest = w.cursor.next.1 :: { w with cursor := w.cursor.broken }.rest ∨
      { w with cursor := w.cursor.broken }.rest = w.rest := by
  rw [rest_of_ne hc, rest_of_ne (w := { w with cursor := w.cursor.broken }) hc]
  exact Cursor.outcomes_broken h

/-- As long as no error of a string gets lost, the cuts that are left are the last ones of those
before. -/
theorem Strays.rest_suffix (h : w.Strays lost v) (hl : ∀ o, lost o → o.inString = false) :
    v.rest <:+ w.rest := by
  refine h.preserves (P := fun v => v.rest <:+ w.rest) (fun u v hs hv => ?_) List.suffix_rfl
  refine List.IsSuffix.trans ?_ hv
  cases hs with
  | step hs => exact hs.rest_suffix
  | lose hc ho =>
    rcases rest_broken hc (hl _ ho) with hr | hr
    · rw [hr]
      exact List.suffix_cons _ _
    · exact hr ▸ List.suffix_rfl

theorem Reaches.rest_suffix (h : w.Reaches v) : v.rest <:+ w.rest :=
  h.safely.rest_suffix fun _ => False.elim

theorem Reaches.length_rest_le (h : w.Reaches v) : v.rest.length ≤ w.rest.length :=
  h.rest_suffix.length_le

theorem Step.ahead (h : w.Step v) : v.ahead <:+ w.ahead := by
  cases h with
  | pass => exact List.suffix_rfl
  | error hc hn =>
    rw [Window.ahead, Window.ahead, rest_of_error hc hn]
    exact List.suffix_rfl
  | token hc hn =>
    rw [ahead_eq hc, advance_of_ok hc hn]
    exact List.suffix_cons _ _

/-- What is ahead only gets less. -/
theorem Reaches.ahead (h : w.Reaches v) : v.ahead <:+ w.ahead :=
  h.preserves (P := fun v => v.ahead <:+ w.ahead) (fun _ _ hs hv => hs.ahead.trans hv)
    List.suffix_rfl

/-- Tokens that get lost are missing ahead, and nothing else changes. -/
theorem Strays.ahead (h : w.Strays lost v) (hl : ∀ o, lost o → o.inString = false) :
    v.ahead.Sublist w.ahead := by
  refine h.preserves (P := fun v => v.ahead.Sublist w.ahead) (fun u v hs hv => ?_) (.refl _)
  refine List.Sublist.trans ?_ hv
  cases hs with
  | step hs => exact hs.ahead.sublist
  | lose hc ho =>
    rw [Window.ahead, Window.ahead]
    rcases rest_broken hc (hl _ ho) with hr | hr
    · rw [hr]
      exact ((List.sublist_cons_self _ _).filterMap _).cons_cons _
    · exact hr ▸ .refl _

theorem Step.reports (h : w.Step v) : ∃ es : List LexicalError,
    v.diagnostics.toList = w.diagnostics.toList ++ es.map Diagnostic.ofLexical ∧
      w.rest.filterMap Outcome.error? = es ++ v.rest.filterMap Outcome.error? := by
  cases h with
  | pass => exact ⟨[], by simp, rfl⟩
  | @error e s hc hn => exact ⟨[e], by simp [Window.pass], by rw [rest_of_error hc hn]; rfl⟩
  | token hc hn => exact ⟨[], by simp, by rw [rest_of_ok hc hn, advance_of_ok hc hn]; rfl⟩

/-- What is reported on the way are lexical errors: all that are passed, in order, unless one gets
lost. -/
theorem Strays.reports (h : w.Strays lost v) : ∃ es : List LexicalError,
    v.diagnostics.toList = w.diagnostics.toList ++ es.map Diagnostic.ofLexical ∧
      ((∀ e, ¬ lost (.error e)) →
        w.rest.filterMap Outcome.error? = es ++ v.rest.filterMap Outcome.error?) := by
  refine h.preserves (P := fun v => ∃ es : List LexicalError,
    v.diagnostics.toList = w.diagnostics.toList ++ es.map Diagnostic.ofLexical ∧
      ((∀ e, ¬ lost (.error e)) →
        w.rest.filterMap Outcome.error? = es ++ v.rest.filterMap Outcome.error?)) ?_
    ⟨[], by simp, fun _ => rfl⟩
  rintro u v hs ⟨es, hds, hes⟩
  cases hs with
  | step hs =>
    obtain ⟨fs, hds', hfs⟩ := hs.reports
    exact ⟨es ++ fs, by simp [hds', hds], fun hl => by rw [hes hl, hfs, List.append_assoc]⟩
  | lose hc ho =>
    refine ⟨es, hds, fun hl => ?_⟩
    rcases hn : u.cursor.next.1 with e | t
    · exact absurd (hn ▸ ho) (hl e)
    · rw [hes hl]
      rcases rest_broken hc (by rw [hn]; rfl) with hr | hr
      · rw [hr, hn]
        rfl
      · rw [hr]

theorem Reaches.reports (h : w.Reaches v) : ∃ es : List LexicalError,
    v.diagnostics.toList = w.diagnostics.toList ++ es.map Diagnostic.ofLexical ∧
      w.rest.filterMap Outcome.error? = es ++ v.rest.filterMap Outcome.error? := by
  obtain ⟨es, hds, hes⟩ := h.safely.reports
  exact ⟨es, hds, hes fun _ => id⟩

/-- No diagnostic is ever taken back. -/
theorem Strays.diagnostics (h : w.Strays lost v) :
    w.diagnostics.toList <+: v.diagnostics.toList := by
  obtain ⟨es, hds, -⟩ := h.reports
  rw [hds]
  exact List.prefix_append _ _

theorem Reaches.diagnostics (h : w.Reaches v) : w.diagnostics.toList <+: v.diagnostics.toList :=
  h.safely.diagnostics

end

/-- Where something leads that is done at a window: steps, and the loss that it reports, of a cut that
was still to be made. -/
structure Leads {α : Type} (w : Window) (r : Except Failure α × Window) : Prop where
  strays : w.Strays (Loss r.1) r.2
  mem : ∀ o, Loss r.1 o → o ∈ w.rest

section
variable {α : Type} {u v w : Window}

theorem Reaches.leads (h : w.Reaches v) {r : Except Failure α} (hr : ∀ o, ¬ Loss r o) :
    w.Leads (r, v) :=
  ⟨h.strays, fun o ho => absurd ho (hr o)⟩

theorem Reaches.andLeads (h : u.Reaches w) {r : Except Failure α × Window} (hr : w.Leads r) :
    u.Leads r :=
  ⟨h.strays.trans hr.strays, fun o ho => h.rest_suffix.mem (hr.mem o ho)⟩

theorem Leads.reaches {x : α} (h : w.Leads (.ok x, v)) : w.Reaches v :=
  h.strays.reaches (not_loss_ok x)

theorem leads_lost (hc : w.current.kind ≠ .endOfText) :
    w.Leads ((.error (.tooDeep (some w.cursor.next.1)) : Except Failure α),
      { w with cursor := w.cursor.broken }) := by
  refine ⟨.single (.lose hc rfl), fun o ho => ?_⟩
  obtain rfl : w.cursor.next.1 = o := by simpa [Loss] using ho
  rw [rest_of_ne hc, Cursor.outcomes, Cursor.cuts]
  split <;> exact List.mem_cons_self

theorem leads_pull (stack : Stack) (hc : w.current.kind ≠ .endOfText)
    (hp : w.previous = w.current) :
    w.Leads (pull stack w.previous w.current w.cursor w.diagnostics) := by
  have hlost := leads_lost (α := Unit) hc
  induction w, hc using advance_induction with
  | token w hc t v hn =>
    rw [pull_eq]
    split
    · split
      · rw [hn]
        exact Reaches.leads (.single (hp ▸ .token hc hn)) (not_loss_ok _)
      · exact hlost
    · exact (Reaches.refl w).leads not_loss_none
  | error w hc e v hn ih =>
    rw [pull_eq]
    split
    · split
      · rw [hn]
        exact Reaches.andLeads (.single (.error hc hn)) (ih hp (leads_lost hc))
      · exact hlost
    · exact (Reaches.refl w).leads not_loss_none

section
variable {stack : Stack} {t : Token} {e : LexicalError} {s : Cursor}

theorem move_stalls (hc : w.current.kind ≠ .endOfText) (hs : stack.holds scanFrames = false) :
    w.move stack = (.error (.tooDeep none), { w with previous := w.current }) := by
  rw [move, if_neg hc, pull_eq, if_neg (by simp [hs])]

theorem move_loses (hc : w.current.kind ≠ .endOfText) (hs : stack.holds scanFrames = true)
    (hf : stack.holds (Outcome.frames w.cursor.next.1) = false) :
    w.move stack = (.error (.tooDeep (some w.cursor.next.1)),
      { w with previous := w.current, cursor := w.cursor.broken }) := by
  rw [move, if_neg hc, pull_eq, if_pos hs, if_neg (by simp [hf])]

theorem move_takes (hc : w.current.kind ≠ .endOfText) (hs : stack.holds scanFrames = true)
    (hf : stack.holds (Outcome.frames (.ok t)) = true) (hn : w.cursor.next = (.ok t, s)) :
    w.move stack = (.ok (), w.advance) := by
  rw [advance_of_ok hc hn, move, if_neg hc, pull_eq, if_pos hs, hn, if_pos hf]

theorem move_passes (hc : w.current.kind ≠ .endOfText) (hs : stack.holds scanFrames = true)
    (hf : stack.holds (Outcome.frames (.error e)) = true) (hn : w.cursor.next = (.error e, s)) :
    w.move stack = (w.pass e s).move stack := by
  rw [move, if_neg hc, pull_eq, if_pos hs, hn, if_pos hf, move,
    if_neg (show (w.pass e s).current.kind ≠ .endOfText from hc)]
  rfl

end

theorem move_of_end (stack : Stack) (hc : w.current.kind = .endOfText) :
    w.move stack = (.ok (), w.advance) := by
  rw [advance_of_end hc, move, if_pos hc]

theorem leads_move (stack : Stack) (w : Window) : w.Leads (w.move stack) := by
  have hpass : w.Reaches { w with previous := w.current } := .single (.pass w)
  by_cases hc : w.current.kind = .endOfText
  · rw [move_of_end stack hc, advance_of_end hc]
    exact hpass.leads (not_loss_ok _)
  · rw [move, if_neg hc]
    exact hpass.andLeads (leads_pull (w := { w with previous := w.current }) stack hc rfl)

theorem pull_covers {s s' : Stack} (h : Stack.Covers 5 s s') (p c : Token) (r : Cursor)
    (ds : Array Diagnostic) : pull s' p c r ds = pull s p c r ds ∨
      ∃ lost, (pull s p c r ds).1 = .error (.tooDeep lost) := by
  fun_induction pull s p c r ds with
  | case1 r ds hscan v t _ hn hcut =>
    refine .inl ?_
    rw [pull_eq, hn, if_pos (h _ (by decide) hscan), if_pos (h _ (Outcome.frames_le _) hcut)]
  | case2 r ds hscan v e _ hn hcut ih =>
    rw [pull_eq, hn, if_pos (h _ (by decide) hscan), if_pos (h _ (Outcome.frames_le _) hcut)]
    exact ih
  | case3 => exact .inr ⟨_, rfl⟩
  | case4 => exact .inr ⟨_, rfl⟩

/-- A move does the same wherever there is room for it. -/
theorem move_covers {s s' : Stack} (h : Stack.Covers 5 s s') (w : Window) :
    w.move s' = w.move s ∨ ∃ lost, (w.move s).1 = .error (.tooDeep lost) := by
  by_cases hc : w.current.kind = .endOfText
  · exact .inl (by rw [move_of_end s' hc, move_of_end s hc])
  · rw [move, move, if_neg hc, if_neg hc]
    exact pull_covers h ..

theorem move_cases (stack : Stack) (w : Window) :
    w.move stack = (.ok (), w.advance) ∨ ∃ lost, (w.move stack).1 = .error (.tooDeep lost) := by
  rw [← move_none w]
  exact (move_covers (Stack.covers_none _ _) w).imp_left Eq.symm

theorem move_eq_advance {stack : Stack} (h : w.move stack = (.ok (), v)) : v = w.advance := by
  rcases w.move_cases stack with hm | ⟨lost, hm⟩
  · exact (congrArg Prod.snd (h.symm.trans hm)).trans rfl
  · rw [h] at hm
    cases hm

theorem reaches_advance (w : Window) : w.Reaches w.advance :=
  (move_none w ▸ leads_move none w).reaches

theorem passNewlines_of_ne (stack : Stack) (hc : w.current.kind ≠ .newline) :
    w.passNewlines stack = (.ok (), w) := by
  rw [passNewlines, dif_neg hc]

theorem passNewlines_of_ok (stack : Stack) (hc : w.current.kind = .newline)
    (h : w.move (stack.inside 2) = (.ok (), v)) :
    w.passNewlines stack = v.passNewlines stack := by
  rw [passNewlines, dif_pos hc, h]
  rfl

theorem passNewlines_of_error {stack : Stack} {f : Failure} (hc : w.current.kind = .newline)
    (h : w.move (stack.inside 2) = (.error f, v)) : w.passNewlines stack = (.error f, v) := by
  rw [passNewlines, dif_pos hc, h]
  rfl

/-- Newlines are passed one move after the other, and nothing is left to do behind them. -/
theorem newlines_induction {motive : Window → Prop}
    (newline : ∀ w : Window, w.current.kind = .newline → motive w.advance → motive w)
    (last : ∀ w : Window, w.current.kind ≠ .newline → motive w) (w : Window) : motive w := by
  generalize hn : w.remaining = n
  induction n using Nat.strongRecOn generalizing w with
  | _ n ih =>
    by_cases hc : w.current.kind = .newline
    · exact newline w hc (ih _ (hn ▸ remaining_advance (by rw [hc]; decide)) _ rfl)
    · exact last w hc

theorem passNewlines_none (w : Window) : w.passNewlines none = (.ok (), w.skipNewlines) := by
  refine Prod.ext ?_ rfl
  induction w using newlines_induction with
  | newline w hc ih => rwa [passNewlines_of_ok none hc (move_none w)]
  | last w hc => rw [passNewlines_of_ne none hc]

theorem skipNewlines_of_newline (hc : w.current.kind = .newline) :
    w.skipNewlines = w.advance.skipNewlines := by
  rw [skipNewlines, passNewlines_of_ok none hc (move_none w), skipNewlines]

theorem skipNewlines_of_ne (hc : w.current.kind ≠ .newline) : w.skipNewlines = w := by
  rw [skipNewlines, passNewlines_of_ne none hc]

theorem passNewlines_covers {s s' : Stack} (h : Stack.Covers 7 s s') (w : Window) :
    w.passNewlines s' = w.passNewlines s ∨
      ∃ lost, (w.passNewlines s).1 = .error (.tooDeep lost) := by
  induction w using newlines_induction with
  | newline w hc ih =>
    rcases hm : w.move (s.inside 2) with ⟨f | x, v⟩
    · rcases w.move_cases (s.inside 2) with ha | ⟨lost, ha⟩ <;> rw [hm] at ha
      · cases ha
      · exact .inr ⟨lost, by rw [passNewlines_of_error hc hm]; exact ha⟩
    · rcases move_covers (Stack.Covers.inside (n := 5) (j := 2) h) w with ha | ⟨lost, ha⟩
      · obtain rfl := move_eq_advance hm
        rw [passNewlines_of_ok _ hc hm, passNewlines_of_ok _ hc (ha.trans hm)]
        exact ih
      · rw [hm] at ha
        cases ha
  | last w hc => exact .inl (by rw [passNewlines_of_ne s hc, passNewlines_of_ne s' hc])

theorem leads_passNewlines (stack : Stack) (w : Window) : w.Leads (w.passNewlines stack) := by
  induction w using newlines_induction with
  | newline w hc ih =>
    have hl := leads_move (stack.inside 2) w
    rcases w.move_cases (stack.inside 2) with hm | ⟨lost, hm⟩
    · rw [passNewlines_of_ok _ hc hm]
      exact w.reaches_advance.andLeads ih
    · rw [passNewlines_of_error hc (Prod.ext hm rfl), ← hm]
      exact hl
  | last w hc => exact (passNewlines_of_ne stack hc) ▸ (Reaches.refl w).leads (not_loss_ok _)

theorem reaches_skipNewlines (w : Window) : w.Reaches w.skipNewlines :=
  (passNewlines_none w ▸ leads_passNewlines none w).reaches

theorem skipLine_of_ne (hn : w.current.kind ≠ .newline) (he : w.current.kind ≠ .endOfText) :
    w.skipLine = w.advance.skipLine := by
  rw [skipLine, dif_pos ⟨hn, he⟩]

theorem skipLine_of_stop (h : w.current.kind = .newline ∨ w.current.kind = .endOfText) :
    w.skipLine = w := by
  rw [skipLine, dif_neg]
  rintro ⟨hn, he⟩
  exact h.elim hn he

theorem reaches_skipLine (w : Window) : w.Reaches w.skipLine := by
  fun_induction skipLine w with
  | case1 w h ih => exact w.reaches_advance.trans ih
  | case2 w h => exact .refl w

/-- Behind the newlines stands something else. -/
theorem skipNewlines_current_ne (w : Window) : w.skipNewlines.current.kind ≠ .newline := by
  induction w using newlines_induction with
  | newline w hc ih => rwa [skipNewlines_of_newline hc]
  | last w hc => rwa [skipNewlines_of_ne hc]

end

end Window

/-- The tokens behind a run of newlines. -/
def dropNewlines (ts : List Token) : List Token := ts.dropWhile (·.kind = .newline)

theorem Window.ahead_skipNewlines (w : Window) : w.skipNewlines.ahead = dropNewlines w.ahead := by
  induction w using Window.newlines_induction with
  | newline w hc ih =>
    rw [Window.skipNewlines_of_newline hc, ih, Window.ahead_eq (w := w) (by rw [hc]; decide)]
    simp [dropNewlines, hc]
  | last w hc =>
    rw [Window.skipNewlines_of_ne hc]
    simp [dropNewlines, ahead, hc]

end ArrowLang
