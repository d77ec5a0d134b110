import ArrowLang.Proofs.Alike

/-!
# Windows over the same text

Where two windows stand in front of the same text, up to blanks, they move alike on the same stack
whatever gets lost. Two places of one text with the same number of cuts left have the same text
behind them.
-/
namespace ArrowLang

open Lexeme

namespace Cursor

variable {s s' : Cursor}

theorem skipGap_congr (h : s.rest = s'.rest) : s.skipGap.rest = s'.skipGap.rest := by
  simp only [skipGap, h]

/-- The next cut depends on nothing in front of it. -/
theorem next_congr (h : s.skipGap.rest = s'.skipGap.rest) :
    Outcome.bare s.next.1 = Outcome.bare s'.next.1 ∧ s.next.2.rest = s'.next.2.rest := by
  have hs : (Outcome.bare s.next.1, s.next.2.rest) = (Outcome.bare s'.next.1, s'.next.2.rest) :=
    (bare_token s.skipGap).trans (h ▸ (bare_token s'.skipGap).symm)
  exact Prod.mk.inj hs

theorem broken_congr (h : s.skipGap.rest = s'.skipGap.rest) : s.broken.rest = s'.broken.rest := by
  have hn := (next_congr h).2
  simp only [broken]
  rw [h]
  split
  · split
    · rfl
    · exact hn
  · exact hn

end Cursor

/-- The same text is ahead of both windows, and the second one has the diagnostics of the first one
behind those of `pre`. -/
structure Mirrors (pre : List Diagnostic) (w w' : Window) : Prop where
  bare : w.current.bare = w'.current.bare
  rest : w.current.kind ≠ .endOfText → w.cursor.skipGap.rest = w'.cursor.skipGap.rest
  reported : w'.reported = pre ++ w.reported

namespace Mirrors

variable {pre : List Diagnostic} {w w' : Window}

theorem kind (h : Mirrors pre w w') : w.current.kind = w'.current.kind :=
  Token.kind_eq_of_bare h.bare

theorem report (h : Mirrors pre w w') {d d' : Diagnostic} (hd : d.bare = d'.bare) :
    Mirrors pre (w.report d) (w'.report d') :=
  ⟨h.bare, h.rest, by simp [h.reported, hd]⟩

/-- Whatever the previous tokens are, and with cursors in front of the same text. -/
theorem moved (h : Mirrors pre w w') {p p' : Token} {s s' : Cursor} (hs : s.rest = s'.rest) :
    Mirrors pre { w with previous := p, cursor := s } { w' with previous := p', cursor := s' } :=
  ⟨h.bare, fun _ => Cursor.skipGap_congr hs, h.reported⟩

theorem frames (h : Mirrors pre w w') (hc : w.current.kind ≠ .endOfText) :
    Outcome.frames w.cursor.next.1 = Outcome.frames w'.cursor.next.1 := by
  rw [← Outcome.frames_bare, (Cursor.next_congr (h.rest hc)).1, Outcome.frames_bare]

/-- A move of windows over the same text: both have room for the next cut, or both lose it. -/
theorem move_cases (h : Mirrors pre w w') (hc : w.current.kind ≠ .endOfText) (stack : Stack) :
    (stack.holds scanFrames = true ∧ stack.holds (Outcome.frames w.cursor.next.1) = true ∧
        stack.holds (Outcome.frames w'.cursor.next.1) = true) ∨
      (Pair.parallel (Mirrors pre) fun _ => False).Meets (fun _ _ : Unit => True) (w.move stack)
        (w'.move stack) := by
  have hc' : w'.current.kind ≠ .endOfText := h.kind ▸ hc
  have hframes := h.frames hc
  cases hs : stack.holds scanFrames with
  | false =>
    rw [Window.move_stalls hc hs, Window.move_stalls hc' hs]
    exact .inr (.failed rfl rfl rfl ⟨h.bare, h.rest, h.reported⟩)
  | true =>
    cases hf : stack.holds (Outcome.frames w.cursor.next.1) with
    | false =>
      rw [Window.move_loses hc hs hf, Window.move_loses hc' hs (hframes ▸ hf)]
      exact .inr (.error rfl (fun _ _ => trivial) (fun _ _ => trivial)
        (h.moved (Cursor.broken_congr (h.rest hc))))
    | true => exact .inl ⟨rfl, rfl, hframes ▸ hf⟩

theorem move (h : Mirrors pre w w') (stack : Stack) :
    (Pair.parallel (Mirrors pre) fun _ => False).Meets (fun _ _ : Unit => True) (w.move stack)
      (w'.move stack) := by
  by_cases hc : w.current.kind = .endOfText
  · have hc' : w'.current.kind = .endOfText := h.kind ▸ hc
    rw [Window.move_of_end stack hc, Window.move_of_end stack hc', Window.advance_of_end hc,
      Window.advance_of_end hc']
    exact .ok trivial ⟨h.bare, h.rest, h.reported⟩
  · induction w, hc using Window.advance_induction generalizing w' with
    | token w hc t v hn =>
      have hc' : w'.current.kind ≠ .endOfText := h.kind ▸ hc
      obtain ⟨hb, hr⟩ := Cursor.next_congr (h.rest hc)
      rcases h.move_cases hc stack with ⟨hs, hf, hf'⟩ | hm
      · rw [hn] at hb hr hf
        obtain ⟨t', ht', hbt⟩ := Outcome.bare_eq_ok hb.symm
        have hn' : w'.cursor.next = (.ok t', w'.cursor.next.2) := Prod.ext ht' rfl
        rw [Window.move_takes hc hs hf hn, Window.move_takes hc' hs (ht' ▸ hf') hn',
          Window.advance_of_ok hc hn, Window.advance_of_ok hc' hn']
        exact .ok trivial ⟨hbt.symm, fun _ => Cursor.skipGap_congr hr, h.reported⟩
      · exact hm
    | error w hc e v hn ih =>
      have hc' : w'.current.kind ≠ .endOfText := h.kind ▸ hc
      obtain ⟨hb, hr⟩ := Cursor.next_congr (h.rest hc)
      rcases h.move_cases hc stack with ⟨hs, hf, hf'⟩ | hm
      · rw [hn] at hb hr hf
        obtain ⟨e', he', hbe⟩ := Outcome.bare_eq_error hb.symm
        have hn' : w'.cursor.next = (.error e', w'.cursor.next.2) := Prod.ext he' rfl
        rw [Window.move_passes hc hs hf hn, Window.move_passes hc' hs (he' ▸ hf') hn']
        refine ih ⟨h.bare, fun _ => Cursor.skipGap_congr hr, ?_⟩
        have hd := Diagnostic.bare_ofLexical hbe
        have hrep := h.reported
        simp only [Window.reported] at hrep
        simp [Window.reported, Window.pass, hrep, hd]
      · exact hm

def copy (pre : List Diagnostic) : Copy pre where
  near := Mirrors pre
  drops _ := False
  bare h := h.bare
  reported h := h.reported
  report h hd := h.report hd
  move h stack := h.move stack

/-- All that is read from the same text is the same. -/
theorem forms {stack : Stack} {depth : Nat} (h : Mirrors pre w w') :
    bareDecls (w.forms stack depth).1 = bareDecls (w'.forms stack depth).1 ∧
      ∀ ds, (w.forms stack depth).1 = .ok ds →
        (w'.forms stack depth).2.reported = pre ++ (w.forms stack depth).2.reported :=
  Copy.forms (C := copy pre) h fun _ _ => id

end Mirrors

namespace Window

variable {cs : List Char} {lost : Outcome → Prop} {stack : Stack} {depth : Nat} {v w : Window}

/-- As long as no error of a string gets lost, a window stands behind some of the cuts. -/
theorem Strays.behind (h : w.Strays lost v) (hl : ∀ o, lost o → o.inString = false)
    (hw : Behind cs w.cursor.rest) : Behind cs v.cursor.rest := by
  have hcut : ∀ s : Cursor, s.next.2.rest = (cut s.rest).2 := fun s => congrArg Prod.snd s.bare_next
  refine h.preserves (P := fun v => Behind cs v.cursor.rest) (fun u v hs hu => ?_) hw
  cases hs with
  | step hs => cases hs with
    | pass => exact hu
    | error _ hn =>
      have hr := hcut u.cursor
      rw [hn] at hr
      exact hr ▸ hu.cut
    | token _ hn =>
      have hr := hcut u.cursor
      rw [hn] at hr
      exact hr ▸ hu.cut
  | lose _ ho =>
    rw [Cursor.broken_eq_next (hl _ ho), hcut]
    exact hu.cut

theorem Reaches.behind (h : w.Reaches v) (hw : Behind cs w.cursor.rest) : Behind cs v.cursor.rest :=
  h.safely.behind (fun _ => False.elim) hw

theorem behind_turn (hl : ∀ o, Loss ((Reading.declaration (Reading.expression depth)).on stack w).1 o →
    o.inString = false) (hw : Behind cs w.cursor.rest) :
    Behind cs (w.turn stack depth).2.cursor.rest :=
  turn_preserves (P := fun v => Behind cs v.cursor.rest) (fun h hv => h.behind hl hv) id hw

end Window

/-- Windows in one text with the same cuts left have the same text ahead. -/
theorem Echoes.mirrors {pre : List Diagnostic} {w w' : Window} (h : Echoes pre w w') {cs : List Char}
    (hw : Behind cs w.cursor.rest) (hw' : Behind cs w'.cursor.rest) : Mirrors pre w w' := by
  have hb : w.current.bare = w'.current.bare := Alike.bare h
  refine ⟨hb, fun hc => ?_, Alike.reported h⟩
  have hc' : w'.current.kind ≠ .endOfText := Token.kind_eq_of_bare hb ▸ hc
  have hr := (List.cons.inj (Echoes.iff.mp h).1).2
  rw [Window.rest_of_ne hc, Window.rest_of_ne hc', Cursor.bare_outcomes, Cursor.bare_outcomes] at hr
  exact hw.eq_of_length hw' (congrArg List.length hr.symm)

end ArrowLang
