import ArrowLang.Proofs.Joined
import ArrowLang.Proofs.Nested

/-!
# Windows over the same cuts

Two windows are alike when the same cuts are left to both up to a point, and the same diagnostics
were reported. On the same stack they move alike until they come to that point, unless an error of a
string gets lost: what is cut behind that depends on the string.
-/
namespace ArrowLang

theorem Outcome.frames_bare (o : Outcome) : o.bare.frames = o.frames := by
  cases o <;> rfl

theorem Outcome.inString_bare (o : Outcome) : o.bare.inString = o.inString := by
  cases o <;> rfl

namespace Window

/-- The cuts from the current token on, without positions. -/
def left (w : Window) : List Outcome := .ok w.current.bare :: w.rest.map Outcome.bare

/-- The diagnostics, without positions. -/
def reported (w : Window) : List Diagnostic := w.diagnostics.toList.map Diagnostic.bare

@[simp] theorem left_report (w : Window) (d : Diagnostic) : (w.report d).left = w.left := rfl

@[simp] theorem reported_report (w : Window) (d : Diagnostic) :
    (w.report d).reported = w.reported ++ [d.bare] := by
  simp [reported, report]

theorem current_of_left {w : Window} {o : Outcome} {l : List Outcome} (h : w.left = o :: l) :
    .ok w.current.bare = o :=
  (List.cons.inj h).1

theorem kind_of_left {w : Window} {t : Token} {l : List Outcome} (h : w.left = .ok t :: l) :
    w.current.kind = t.kind := by
  have := current_of_left h
  simp only [Except.ok.injEq] at this
  rw [← this, Token.kind_bare]

theorem isEnd_of_left {w : Window} {c : Outcome} {l : List Outcome} (h : w.left = c :: l) :
    c.isEnd = decide (w.current.kind = .endOfText) := by
  rw [← current_of_left h]
  rfl

section
variable {w : Window} {c o : Outcome} {l : List Outcome}

theorem ne_end_of_left (h : w.left = c :: l) (hc : c.isEnd = false) :
    w.current.kind ≠ .endOfText := by
  rw [isEnd_of_left h] at hc
  exact of_decide_eq_false hc

/-- The cuts behind the first one that is left. -/
theorem next_of_left (h : w.left = c :: o :: l) :
    Outcome.bare w.cursor.next.1 = o ∧
      (o.isEnd = false → w.cursor.next.2.outcomes.map Outcome.bare = l) ∧
      (o.isEnd = true → l = [] ∧ w.cursor.broken.outcomes = w.cursor.outcomes) := by
  have hr : w.rest.map Outcome.bare = o :: l := (List.cons.inj h).2
  have hc : w.current.kind ≠ .endOfText := by
    intro hc
    rw [rest_of_end hc] at hr
    cases hr
  rw [rest_of_ne hc] at hr
  rcases hn : w.cursor.next with ⟨e | t, s⟩
  · rw [Cursor.outcomes_of_error hn] at hr
    obtain ⟨rfl, rfl⟩ := List.cons.inj hr
    exact ⟨rfl, fun _ => rfl, nofun⟩
  · by_cases ht : t.kind = .endOfText
    · rw [Cursor.outcomes_of_end hn ht] at hr
      obtain ⟨rfl, rfl⟩ := List.cons.inj hr
      have hb := Cursor.broken_of_ok (congrArg Prod.fst hn)
      refine ⟨rfl, fun ho => ?_, fun _ => ⟨rfl, ?_⟩⟩
      · simp [Outcome.bare, Outcome.isEnd, ht] at ho
      · rw [hb, hn, Cursor.outcomes_of_end hn ht, Cursor.outcomes_of_end (Cursor.next_of_end hn ht) ht]
    · rw [Cursor.outcomes_of_ok hn ht] at hr
      obtain ⟨rfl, rfl⟩ := List.cons.inj hr
      refine ⟨rfl, fun _ => rfl, fun ho => ?_⟩
      simp [Outcome.bare, Outcome.isEnd, ht] at ho

theorem left_of_cursor (h : w.left = c :: l) (hc : c.isEnd = false) (p : Token) (s : Cursor)
    (ds : Array Diagnostic) : (⟨p, w.current, s, ds⟩ : Window).left = c :: s.outcomes.map Outcome.bare := by
  have hk := ne_end_of_left h hc
  rw [left, rest_of_ne (w := ⟨p, w.current, s, ds⟩) hk, ← current_of_left h]

/-- What is left where the next cut gets lost: the cuts behind it, or the end of the text again. -/
theorem left_of_loss (h : w.left = c :: o :: l) (hc : c.isEnd = false) (ho : o.inString = false)
    (p : Token) : { w with previous := p, cursor := w.cursor.broken }.left =
      if o.isEnd = true then w.left else c :: l := by
  obtain ⟨hb, hl, he⟩ := next_of_left h
  rw [left_of_cursor h hc]
  split
  · next hend =>
    rw [(he hend).2, left, rest_of_ne (ne_end_of_left h hc), ← current_of_left h]
  · next hend =>
    have hbroken := Cursor.broken_eq_next (s := w.cursor) (by rw [← Outcome.inString_bare, hb, ho])
    rw [hbroken, hl (by simpa using hend)]

/-- What is left where the next cut is a token that comes in. -/
theorem left_advance {t : Token} (h : w.left = c :: .ok t :: l) (hc : c.isEnd = false) :
    (∃ u s, w.cursor.next = (.ok u, s) ∧ u.bare = t) ∧ w.advance.left = .ok t :: l ∧
      w.advance.reported = w.reported := by
  obtain ⟨hb, hl, he⟩ := next_of_left h
  obtain ⟨u, hu, rfl⟩ := Outcome.bare_eq_ok hb
  have hn : w.cursor.next = (.ok u, w.cursor.next.2) := Prod.ext hu rfl
  refine ⟨⟨u, _, hn, rfl⟩, ?_, ?_⟩ <;> rw [advance_of_ok (ne_end_of_left h hc) hn]
  · rw [left]
    by_cases hk : u.kind = .endOfText
    · rw [rest_of_end hk, (he (decide_eq_true hk)).1]
      rfl
    · rw [rest_of_ne hk]
      exact congrArg _ (hl (decide_eq_false hk))
  · rfl

theorem move_of_room {t : Token} {stack : Stack} (h : w.left = c :: .ok t :: l)
    (hc : c.isEnd = false) (hs : stack.holds scanFrames = true)
    (hf : stack.holds (Outcome.frames (.ok t)) = true) : w.move stack = (.ok (), w.advance) := by
  obtain ⟨⟨u, s, hn, rfl⟩, -⟩ := left_advance h hc
  exact move_takes (ne_end_of_left h hc) hs (Outcome.frames_bare (.ok u) ▸ hf) hn

/-- A move where the next cut is a token. -/
theorem move_of_left {t : Token} (h : w.left = c :: .ok t :: l) (hc : c.isEnd = false)
    (stack : Stack) :
    (stack.holds scanFrames = false ∧ ∃ v : Window, w.move stack = (.error (.tooDeep none), v) ∧
        v.left = w.left ∧ v.reported = w.reported) ∨
      (stack.holds scanFrames = true ∧ stack.holds (Outcome.frames (.ok t)) = false ∧
        ∃ (u : Token) (v : Window), w.move stack = (.error (.tooDeep (some (.ok u))), v) ∧
          u.bare = t ∧ v.left = (if Outcome.isEnd (.ok t) = true then w.left else c :: l) ∧
          v.reported = w.reported) ∨
      (stack.holds scanFrames = true ∧ stack.holds (Outcome.frames (.ok t)) = true ∧
        w.move stack = (.ok (), w.advance) ∧ w.advance.left = .ok t :: l ∧
        w.advance.reported = w.reported) := by
  have hk := ne_end_of_left h hc
  obtain ⟨⟨u, s, hn, rfl⟩, hv, hr⟩ := left_advance h hc
  have hframes : Outcome.frames (.ok u.bare) = Outcome.frames w.cursor.next.1 := by
    rw [hn]
    exact Outcome.frames_bare (.ok u)
  cases hs : stack.holds scanFrames with
  | false => exact .inl ⟨rfl, _, move_stalls hk hs, rfl, rfl⟩
  | true =>
    cases hf : stack.holds (Outcome.frames (.ok u.bare)) with
    | false =>
      have hm := move_loses hk hs (hframes ▸ hf)
      refine .inr (.inl ⟨rfl, rfl, u, { w with previous := w.current, cursor := w.cursor.broken }, ?_,
        rfl, left_of_loss h hc rfl w.current, rfl⟩)
      rw [hm, hn]
    | true => exact .inr (.inr ⟨rfl, rfl, move_of_room h hc hs hf, hv, hr⟩)

end

end Window

theorem Diagnostic.bare_ofLexical {e f : LexicalError} (h : e.bare = f.bare) :
    (Diagnostic.ofLexical e).bare = (Diagnostic.ofLexical f).bare := by
  have : e.fault = f.fault := by simpa [LexicalError.bare] using h
  simp [ofLexical, Diagnostic.bare, this]

/-- The cuts `l` are left to both windows, with `x` behind them in the one and `x'` in the other, and
the second window has the diagnostics of the first one behind those of `pre`. -/
structure Alike (pre : List Diagnostic) (x x' l : List Outcome) (w w' : Window) : Prop where
  left : w.left = l ++ x
  left' : w'.left = l ++ x'
  reported : w'.reported = pre ++ w.reported

section
variable {pre : List Diagnostic} {x x' l : List Outcome} {w w' : Window}

theorem Alike.report (h : Alike pre x x' l w w') {d d' : Diagnostic} (hd : d.bare = d'.bare) :
    Alike pre x x' l (w.report d) (w'.report d') where
  left := h.left
  left' := h.left'
  reported := by simp [h.reported, hd]

theorem Alike.bare {o : Outcome} (h : Alike pre x x' (o :: l) w w') :
    w.current.bare = w'.current.bare := by
  have hc := Window.current_of_left h.left
  have hc' := Window.current_of_left h.left'
  simpa using hc.trans hc'.symm

theorem Alike.kind (h : Alike pre x x' [] w w') {t : Token} {y : List Outcome}
    (hx : x = .ok t :: y) : w.current.kind = t.kind :=
  Window.kind_of_left (h.left.trans hx)

theorem Alike.kind' (h : Alike pre x x' [] w w') {t : Token} {y : List Outcome}
    (hx : x' = .ok t :: y) : w'.current.kind = t.kind :=
  Window.kind_of_left (h.left'.trans hx)

/-- How both windows move that are alike from a cut `c` on, with `l` behind it. -/
inductive Moved (pre : List Diagnostic) (x x' : List Outcome) (stack : Stack) (c : Outcome)
    (l : List Outcome) : Except Failure Unit × Window → Except Failure Unit × Window → Prop where
  | goes {m v v'} : m ≠ [] → m <:+ l → Alike pre x x' m v v' →
      Moved pre x x' stack c l (.ok (), v) (.ok (), v')
  | stalls {m v v'} : m <:+ l → Alike pre x x' (c :: m) v v' →
      Moved pre x x' stack c l (.error (.tooDeep none), v) (.error (.tooDeep none), v')
  | loses {o o' m v v'} : o.bare = o'.bare → o.bare ∈ l → m <:+ l → Alike pre x x' (c :: m) v v' →
      Moved pre x x' stack c l (.error (.tooDeep (some o)), v) (.error (.tooDeep (some o')), v')
  | breaks {o o' v v'} : o.bare ∈ l → o.inString = true → o'.inString = true →
      Moved pre x x' stack c l (.error (.tooDeep (some o)), v) (.error (.tooDeep (some o')), v')
  /-- Nothing of `l` is left. -/
  | arrives {v v'} : Alike pre x x' [c] v v' → Moved pre x x' stack c l (v.move stack) (v'.move stack)

theorem Moved.mono {stack : Stack} {c : Outcome} {m : List Outcome}
    {r r' : Except Failure Unit × Window} (h : Moved pre x x' stack c m r r') (hm : m <:+ l) :
    Moved pre x x' stack c l r r' := by
  cases h with
  | goes hne hs ha => exact .goes hne (hs.trans hm) ha
  | stalls hs ha => exact .stalls (hs.trans hm) ha
  | loses hb ho hs ha => exact .loses hb (hm.mem ho) (hs.trans hm) ha
  | breaks hm' ho ho' => exact .breaks (hm.mem hm') ho ho'
  | arrives ha => exact .arrives ha

/-- The next cut is lost in both. -/
theorem Alike.loses {stack : Stack} {c o : Outcome} (h : Alike pre x x' (c :: o :: l) w w')
    (hc : c.isEnd = false) :
    Moved pre x x' stack c (o :: l)
      (.error (.tooDeep (some w.cursor.next.1)), { w with previous := w.current, cursor := w.cursor.broken })
      (.error (.tooDeep (some w'.cursor.next.1)),
        { w' with previous := w'.current, cursor := w'.cursor.broken }) := by
  obtain ⟨hb, -⟩ := Window.next_of_left h.left
  obtain ⟨hb', -⟩ := Window.next_of_left h.left'
  have hmem : Outcome.bare w.cursor.next.1 ∈ o :: l := hb ▸ List.mem_cons_self
  cases ho : o.inString with
  | true =>
    exact .breaks hmem (by rw [← Outcome.inString_bare, hb, ho])
      (by rw [← Outcome.inString_bare, hb', ho])
  | false =>
    have hv := Window.left_of_loss h.left hc ho w.current
    have hv' := Window.left_of_loss h.left' hc ho w'.current
    cases hend : o.isEnd with
    | true =>
      rw [if_pos hend] at hv hv'
      exact .loses (hb.trans hb'.symm) hmem List.suffix_rfl
        ⟨hv.trans h.left, hv'.trans h.left', h.reported⟩
    | false =>
      rw [if_neg (by simp [hend])] at hv hv'
      exact .loses (hb.trans hb'.symm) hmem (List.suffix_cons _ _) ⟨hv, hv', h.reported⟩

theorem Alike.move {c : Outcome} (h : Alike pre x x' (c :: l) w w') (hc : c.isEnd = false)
    (stack : Stack) : Moved pre x x' stack c l (w.move stack) (w'.move stack) := by
  induction l generalizing w w' with
  | nil => exact .arrives h
  | cons o l ih =>
    obtain ⟨hb, hl, he⟩ := Window.next_of_left h.left
    obtain ⟨hb', hl', he'⟩ := Window.next_of_left h.left'
    have hk := Window.ne_end_of_left h.left hc
    have hk' := Window.ne_end_of_left h.left' hc
    cases hs : stack.holds scanFrames with
    | false =>
      rw [Window.move_stalls hk hs, Window.move_stalls hk' hs]
      exact .stalls (List.suffix_rfl) ⟨h.left, h.left', h.reported⟩
    | true =>
      have hframes : Outcome.frames w.cursor.next.1 = Outcome.frames w'.cursor.next.1 := by
        rw [← Outcome.frames_bare, hb, ← hb', Outcome.frames_bare]
      cases hf : stack.holds (Outcome.frames w.cursor.next.1) with
      | false =>
        rw [Window.move_loses hk hs hf, Window.move_loses hk' hs (hframes ▸ hf)]
        exact h.loses hc
      | true =>
        have hf' : stack.holds (Outcome.frames w'.cursor.next.1) = true := hframes ▸ hf
        rcases o with e | t
        · obtain ⟨f, hn, hfb⟩ := Outcome.bare_eq_error hb
          obtain ⟨f', hn', hfb'⟩ := Outcome.bare_eq_error hb'
          rw [Window.move_passes hk hs (hn ▸ hf) (Prod.ext hn rfl),
            Window.move_passes hk' hs (hn' ▸ hf') (Prod.ext hn' rfl)]
          refine (ih ?_).mono (List.suffix_cons _ _)
          refine ⟨?_, ?_, ?_⟩
          · exact (Window.left_of_cursor h.left hc _ _ _).trans (congrArg _ (hl rfl))
          · exact (Window.left_of_cursor h.left' hc _ _ _).trans (congrArg _ (hl' rfl))
          · have hd := Diagnostic.bare_ofLexical (hfb'.trans hfb.symm)
            have hr := h.reported
            simp only [Window.reported] at hr
            simp [Window.reported, Window.pass, hr, hd]
        · obtain ⟨⟨u, s, hn, rfl⟩, hv, hr⟩ := Window.left_advance h.left hc
          obtain ⟨⟨u', s', hn', hu⟩, hv', hr'⟩ := Window.left_advance h.left' hc
          rw [Window.move_takes hk hs (by rwa [hn] at hf) hn,
            Window.move_takes hk' hs (by rwa [hn'] at hf') hn']
          exact .goes (List.cons_ne_nil _ _) List.suffix_rfl ⟨hv, hv', by rw [hr, hr', h.reported]⟩

end

/-- Two runs that never part: `near` is kept by every move on the same stack, unless the second run
loses what it is not to lose. -/
def Pair.parallel (near : Window → Window → Prop) (drops : Outcome → Prop) : Pair where
  near := near
  seam _ _ := False
  off _ _ _ _ := False
  misses _ := True
  drops := drops

/-- A relation of windows whose current tokens agree, and whose diagnostics do so behind those of
`pre`, that the moves keep. -/
structure Copy (pre : List Diagnostic) where
  near : Window → Window → Prop
  drops : Outcome → Prop
  bare : ∀ {w w'}, near w w' → w.current.bare = w'.current.bare
  reported : ∀ {w w'}, near w w' → w'.reported = pre ++ w.reported
  report : ∀ {w w'} {d d' : Diagnostic}, near w w' → d.bare = d'.bare →
    near (w.report d) (w'.report d')
  move : ∀ {w w'}, near w w' → ∀ stack : Stack,
    (Pair.parallel near drops).Meets (fun _ _ : Unit => True) (w.move stack) (w'.move stack)

/-- Declarations that were read, without positions. -/
def bareDecls (x : Except Abort (List Decl)) : Except Abort (List Decl) := x.map (·.map Decl.bare)

theorem bareDecls_eq_ok {x y : Except Abort (List Decl)} {ds : List Decl}
    (h : bareDecls x = bareDecls y) (hx : x = .ok ds) :
    ∃ es, y = .ok es ∧ es.map Decl.bare = ds.map Decl.bare := by
  rw [hx] at h
  exact ok_of_map h.symm

theorem bareDecls_append {x x' : Except Abort (List Decl)} (h : bareDecls x = bareDecls x')
    {d d' : Option Decl} (hd : d.map Decl.bare = d'.map Decl.bare) :
    bareDecls (x.map (d.toList ++ ·)) = bareDecls (x'.map (d'.toList ++ ·)) := by
  have hd : d.toList.map Decl.bare = d'.toList.map Decl.bare := by
    rw [← Option.toList_map, hd, Option.toList_map]
  cases x <;> cases x' <;> simp_all [bareDecls, Except.map]

namespace Copy

variable {pre : List Diagnostic} (C : Copy pre) {w w' : Window}

def twin : NestedTwin where
  toPair := Pair.parallel C.near C.drops
  bare h _ := C.bare h
  move h _ := C.move h
  stop := False.elim
  dangle _ := False.elim
  astray := False.elim
  lost _ := False
  lost_end := False.elim
  lost_advance := False.elim
  seam_pass _ := False.elim
  seam_fault _ := False.elim
  lost_fault := False.elim
  lost_tooDeep := False.elim

variable {C}

theorem skipNewlines (h : C.near w w') : C.near w.skipNewlines w'.skipNewlines := by
  rcases Twin.near_skipNewlines (T := C.twin.toTwin) h with h | ⟨u, u', -, hs, -, -⟩
  · exact h.1
  · exact hs.elim

theorem turn (h : C.near w w') (stack : Stack) (depth : Nat) :
    C.twin.TurnMeets stack depth C.near w w' :=
  Twin.turn_meets (T := C.twin.toTwin) (Twin.lockstep C.twin.brackets depth)
    (fun hv => skipNewlines hv)
    (fun g hv ht => skipNewlines (Twin.advance (T := C.twin.toTwin)
      (C.report hv (by simp [Diagnostic.bare, ht])) id))
    (fun hv => skipNewlines (Twin.near_skipLine (T := C.twin.toTwin)
      (C.report hv (by simp [Diagnostic.bare, C.bare hv])))) h

/-- All that is read is the same, unless too much is lost. -/
theorem forms {stack : Stack} {depth : Nat} (h : C.near w w')
    (hl : ∀ o, w'.Loses stack depth o → ¬ C.drops o) :
    bareDecls (w.forms stack depth).1 = bareDecls (w'.forms stack depth).1 ∧
      ∀ ds, (w.forms stack depth).1 = .ok ds →
        (w'.forms stack depth).2.reported = pre ++ (w.forms stack depth).2.reported := by
  induction w using Window.forms_induction stack depth generalizing w' with
  | last w hc =>
    have hc' : w'.current.kind = .endOfText := Token.kind_eq_of_bare (C.bare h) ▸ hc
    rw [Window.forms_of_end hc, Window.forms_of_end hc']
    exact ⟨rfl, fun _ _ => C.reported h⟩
  | turn w hc ih =>
    have hc' : w'.current.kind ≠ .endOfText := Token.kind_eq_of_bare (C.bare h) ▸ hc
    rw [Window.forms_of_turn hc, Window.forms_of_turn hc']
    cases turn h stack depth with
    | @goes d d' v v' ht ht' hd hv _ _ =>
      rw [ht] at ih
      obtain ⟨hds, hr⟩ := ih hv fun o ho => hl o (ho.of_turn hc' ht')
      rw [ht, ht']
      refine ⟨bareDecls_append hds hd, fun ds hok => ?_⟩
      obtain ⟨ds, hok, -⟩ := ok_of_map hok
      exact hr ds hok
    | aborts ht ht' =>
      rw [ht, ht']
      exact ⟨rfl, nofun⟩
    | off _ _ ho => exact ho.elim
    | dropped ho hdrop => exact absurd hdrop (hl _ ⟨[], w', .here w', hc', ho⟩)

end Copy

/-- The same cuts are left to both windows. -/
def Echoes (pre : List Diagnostic) (w w' : Window) : Prop := Alike pre [] [] w.left w w'

namespace Echoes

variable {pre : List Diagnostic} {w w' : Window}

theorem iff : Echoes pre w w' ↔ w'.left = w.left ∧ w'.reported = pre ++ w.reported := by
  refine ⟨fun h => ⟨by simpa using h.left', h.reported⟩, fun h => ⟨?_, ?_, h.2⟩⟩
  · rw [List.append_nil]
  · rw [List.append_nil, h.1]

theorem of_alike {l : List Outcome} (h : Alike pre [] [] l w w') : Echoes pre w w' := by
  have hl := h.left
  rw [List.append_nil] at hl
  rwa [Echoes, hl]

theorem advance (h : Echoes pre w w') (hc : w.current.kind = .endOfText) :
    Echoes pre w.advance w'.advance := by
  have hc' : w'.current.kind = .endOfText := Token.kind_eq_of_bare (Alike.bare h) ▸ hc
  rw [Window.advance_of_end hc, Window.advance_of_end hc']
  exact ⟨h.left, h.left', h.reported⟩

/-- On the same stack the same cuts are moved over, unless an error of a string gets lost. -/
theorem move (h : Echoes pre w w') (stack : Stack) :
    (Pair.parallel (Echoes pre) (·.inString = true)).Meets (fun _ _ : Unit => True)
      (w.move stack) (w'.move stack) := by
  by_cases hc : w.current.kind = .endOfText
  · have hc' : w'.current.kind = .endOfText := Token.kind_eq_of_bare (Alike.bare h) ▸ hc
    rw [Window.move_of_end stack hc, Window.move_of_end stack hc']
    exact .ok trivial (h.advance hc)
  · have hm := Alike.move h (decide_eq_false hc) stack
    generalize hr : w.move stack = r at hm
    generalize hr' : w'.move stack = r' at hm
    cases hm with
    | goes _ _ ha => exact .ok trivial (of_alike ha)
    | stalls _ ha => exact .error rfl (fun _ _ => trivial) (fun _ _ => trivial) (of_alike ha)
    | loses _ _ _ ha => exact .error rfl (fun _ _ => trivial) (fun _ _ => trivial) (of_alike ha)
    | breaks _ _ ho' => exact .dropped ho'
    | @arrives v v' ha =>
      have hl : v.left = [.ok w.current.bare] := by simpa using ha.left
      have hv := Window.ne_end_of_left hl (decide_eq_false hc)
      exact absurd (List.map_eq_nil_iff.mp (List.cons.inj hl).2) (Window.terminated_rest hv).ne_nil

def copy (pre : List Diagnostic) : Copy pre where
  near := Echoes pre
  drops o := o.inString = true
  bare h := Alike.bare h
  reported h := Alike.reported h
  report h hd := Alike.report h hd
  move h stack := h.move stack

theorem skipNewlines (h : Echoes pre w w') : Echoes pre w.skipNewlines w'.skipNewlines :=
  Copy.skipNewlines (C := copy pre) h

/-- All that is read from the same cuts is the same, as long as no error of a string gets lost. -/
theorem forms {stack : Stack} {depth : Nat} (h : Echoes pre w w')
    (hl : ∀ o, w'.Loses stack depth o → o.inString = false) :
    bareDecls (w.forms stack depth).1 = bareDecls (w'.forms stack depth).1 ∧
      ∀ ds, (w.forms stack depth).1 = .ok ds →
        (w'.forms stack depth).2.reported = pre ++ (w.forms stack depth).2.reported :=
  Copy.forms (C := copy pre) h fun o ho hdrop => absurd ((hl o ho).symm.trans hdrop) Bool.false_ne_true

end Echoes

/-- Which token is the current one matters to a move only where the text ends. -/
theorem Window.advance_current {w : Window} {t : Token} (hc : w.current.kind ≠ .endOfText)
    (ht : t.kind ≠ .endOfText) :
    w.advance = { ({ w with current := t } : Window).advance with previous := w.current } := by
  induction w, hc using Window.advance_induction with
  | token w hc u v h =>
    rw [advance_of_ok hc h, advance_of_ok (w := { w with current := t }) ht h]
  | error w hc e v h ih =>
    rw [advance_of_error hc h, advance_of_error (w := { w with current := t }) ht h]
    exact ih

namespace Echoes

variable {pre : List Diagnostic} {w w' : Window}

/-- Windows with the same cuts behind their current tokens move to windows with the same cuts. -/
theorem of_rest (hc : w.current.kind ≠ .endOfText) (hc' : w'.current.kind ≠ .endOfText)
    (hr : w.rest.map Outcome.bare = w'.rest.map Outcome.bare)
    (hd : w'.reported = pre ++ w.reported) : Echoes pre w.advance w'.advance := by
  have hk : Token.absent.kind ≠ .endOfText := by decide
  have h : Echoes pre { w with current := .absent } { w' with current := .absent } := by
    refine iff.mpr ⟨?_, hd⟩
    rw [Window.left, Window.left, Window.rest_of_ne (w := { w with current := .absent }) hk,
      Window.rest_of_ne (w := { w' with current := .absent }) hk]
    rw [Window.rest_of_ne hc, Window.rest_of_ne hc'] at hr
    exact congrArg _ hr.symm
  have ha := Twin.advance (T := (copy pre).twin.toTwin) h id
  rw [Window.advance_current hc hk, Window.advance_current hc' hk]
  exact ⟨ha.left, ha.left', ha.reported⟩

end Echoes

end ArrowLang
