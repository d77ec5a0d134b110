import ArrowLang.Proofs.Alike

/-!
# A text and what follows it

One run reads a text and the other the same text with a newline and more text behind it. Where the
first run comes to its last cuts, the second one comes to a newline.
-/
namespace ArrowLang

/-- What is behind the newline that follows the first text, and what the first text may be cut into. -/
structure Junction where
  tail : List Outcome
  admits : Outcome → Prop
  /-- The first text ends with a newline of its own. -/
  ended : Prop

namespace Junction

/-- The last cuts of the first text. -/
inductive Last (J : Junction) : List Outcome → Prop where
  | bare : ¬ J.ended → Last J [.ok textEnd]
  | newline {t : Token} : t.kind = .newline → Last J [.ok t, .ok textEnd]

/-- What is left to the second run where the first one comes to its last cuts. -/
inductive Joint (J : Junction) : List Outcome → Prop where
  | mk {t : Token} : t.kind = .newline → Joint J (.ok t :: J.tail)

variable (J : Junction)

/-- The cuts `l` of the first text are left to both windows. -/
structure Before (l : List Outcome) (w w' : Window) : Prop where
  admits : ∀ o ∈ l, o.isEnd = false ∧ J.admits o
  alike : ∃ last joint, J.Last last ∧ J.Joint joint ∧ Alike [] last joint l w w'

def Near (w w' : Window) : Prop := ∃ l, J.Before l w w'

/-- The windows are at the junction. -/
def Seam (w w' : Window) : Prop := J.Before [] w w'

/-- The first run is at its end and the second one behind the newline. -/
def Crossed (w w' : Window) : Prop :=
  w.current.kind = .endOfText ∧ ∃ (u : Window) (joint : List Outcome), J.Joint joint ∧
    u.left = joint ∧ u.reported = w.reported ∧ w' = u.skipNewlines

variable {J} {w w' : Window}

/-- Away from the junction there is a cut of the first text. -/
theorem Near.exists_cons (h : J.Near w w') (hs : ¬ J.Seam w w') : ∃ c l, J.Before (c :: l) w w' := by
  obtain ⟨_ | ⟨c, l⟩, h⟩ := h
  · exact absurd h hs
  · exact ⟨c, l, h⟩

theorem Before.bare {c : Outcome} {l : List Outcome} (h : J.Before (c :: l) w w') :
    w.current.bare = w'.current.bare := by
  obtain ⟨_, _, -, -, ha⟩ := h.alike
  exact ha.bare

/-- Away from the junction the current tokens are the same and admitted. -/
theorem Near.current (h : J.Near w w') (hs : ¬ J.Seam w w') :
    w.current.bare = w'.current.bare ∧ w.current.kind ≠ .endOfText ∧
      J.admits (.ok w.current.bare) := by
  obtain ⟨c, l, h⟩ := h.exists_cons hs
  obtain ⟨_, _, -, -, ha⟩ := h.alike
  have hc := Window.current_of_left ha.left
  obtain ⟨ho, hadmits⟩ := h.admits c (by simp)
  exact ⟨h.bare, Window.ne_end_of_left ha.left ho, hc ▸ hadmits⟩

theorem Before.report {l : List Outcome} (h : J.Before l w w') {d d' : Diagnostic}
    (hd : d.bare = d'.bare) : J.Before l (w.report d) (w'.report d') := by
  obtain ⟨last, joint, hlast, hjoint, ha⟩ := h.alike
  exact ⟨h.admits, last, joint, hlast, hjoint, ha.report hd⟩

theorem Near.report (h : J.Near w w') {d d' : Diagnostic} (hd : d.bare = d'.bare) :
    J.Near (w.report d) (w'.report d') := by
  obtain ⟨l, h⟩ := h
  exact ⟨l, h.report hd⟩

theorem Seam.report (h : J.Seam w w') {d d' : Diagnostic} (hd : d.bare = d'.bare) :
    J.Seam (w.report d) (w'.report d') :=
  Before.report h hd

theorem Seam.kind' (h : J.Seam w w') : w'.current.kind = .newline := by
  obtain ⟨_, _, -, ⟨ht⟩, ha⟩ := h.alike
  exact (ha.kind' rfl).trans ht

theorem Seam.kind (h : J.Seam w w') :
    w.current.kind = .endOfText ∨ w.current.kind = .newline := by
  obtain ⟨_, _, hlast, -, ha⟩ := h.alike
  cases hlast with
  | bare _ => exact .inl (ha.kind rfl)
  | newline ht => exact .inr ((ha.kind rfl).trans ht)

theorem Seam.isStop (h : J.Seam w w') : w.current.kind.isStop := by
  rcases h.kind with hk | hk <;> rw [hk] <;> rfl

theorem Seam.stops (h : J.Seam w w') : w.current.kind.isStop ∧ w'.current.kind.isStop :=
  ⟨h.isStop, by rw [h.kind']; rfl⟩

/-- Behind a newline of its last cuts the first run is at its end. -/
theorem advance_end {t : Token} (h : w.left = [.ok t, .ok textEnd]) (ht : t.kind = .newline) :
    w.current.kind = .newline ∧ w.advance.current.kind = .endOfText ∧
      w.advance.reported = w.reported := by
  have hk := (Window.kind_of_left h).trans ht
  obtain ⟨-, hl, hr⟩ := Window.left_advance h (decide_eq_false (by rw [ht]; decide))
  exact ⟨hk, Window.kind_of_left hl, hr⟩

/-- Behind the newlines of its last cuts the first run is at its end. -/
theorem Seam.skipNewlines_end (h : J.Seam w w') :
    w.skipNewlines.current.kind = .endOfText ∧ w.skipNewlines.reported = w.reported := by
  obtain ⟨_, _, hlast, -, ha⟩ := h.alike
  have hl := ha.left
  cases hlast with
  | bare _ =>
    have hk := Window.kind_of_left hl
    rw [Window.skipNewlines_of_ne (by rw [hk]; decide)]
    exact ⟨hk, rfl⟩
  | newline ht =>
    obtain ⟨hk, hke, hr⟩ := advance_end hl ht
    rw [Window.skipNewlines_of_newline hk, Window.skipNewlines_of_ne (by rw [hke]; decide)]
    exact ⟨hke, hr⟩

theorem Seam.crossed (h : J.Seam w w') : J.Crossed w.skipNewlines w'.skipNewlines := by
  obtain ⟨hk, hr⟩ := h.skipNewlines_end
  obtain ⟨_, joint, -, hjoint, ha⟩ := h.alike
  exact ⟨hk, w', joint, hjoint, ha.left', ha.reported.trans hr.symm, rfl⟩

/-- A move at the junction crosses it too. -/
theorem Seam.crossed_advance (h : J.Seam w w') :
    J.Crossed w.advance.skipNewlines w'.advance.skipNewlines := by
  rw [← Window.skipNewlines_of_newline h.kind']
  rcases h.kind with hk | hk
  · have hs : J.Seam w.advance w' := by
      obtain ⟨last, joint, hlast, hjoint, ha⟩ := h.alike
      rw [Window.advance_of_end hk]
      exact ⟨h.admits, last, joint, hlast, hjoint, ha.left, ha.left', ha.reported⟩
    exact hs.crossed
  · rw [← Window.skipNewlines_of_newline hk]
    exact h.crossed

/-- At the last cuts a move of both runs leads to the junction. -/
theorem near_advance {c : Outcome} (h : J.Before [c] w w') : J.Near w.advance w'.advance := by
  obtain ⟨_, _, hlast, hjoint, ha⟩ := h.alike
  have hc := (h.admits c (by simp)).1
  have hl := ha.left
  obtain ⟨ht⟩ := hjoint
  obtain ⟨-, hv', hr'⟩ := Window.left_advance ha.left' hc
  refine ⟨[], by simp, ?_⟩
  cases hlast with
  | bare hn =>
    obtain ⟨-, hv, hr⟩ := Window.left_advance hl hc
    exact ⟨_, _, .bare hn, .mk ht, hv, hv', by rw [hr, hr', ha.reported]⟩
  | newline hn =>
    obtain ⟨-, hv, hr⟩ := Window.left_advance hl hc
    exact ⟨_, _, .newline hn, .mk ht, hv, hv', by rw [hr, hr', ha.reported]⟩

/-- How both windows move where a cut of the first text is left. -/
inductive Steps (J : Junction) (stack : Stack) :
    Except Failure Unit × Window → Except Failure Unit × Window → Prop where
  | goes {v v'} : J.Near v v' → Steps J stack (.ok (), v) (.ok (), v')
  | stalls {v v'} : J.Near v v' →
      Steps J stack (.error (.tooDeep none), v) (.error (.tooDeep none), v')
  | loses {o o' v v'} : o.bare = o'.bare → o.bare.isEnd = false ∧ J.admits o.bare → J.Near v v' →
      Steps J stack (.error (.tooDeep (some o)), v) (.error (.tooDeep (some o')), v')
  | breaks {o o' v v'} : J.admits o.bare → o.inString = true → o'.inString = true →
      Steps J stack (.error (.tooDeep (some o)), v) (.error (.tooDeep (some o')), v')
  /-- One cut is left. -/
  | arrives {c v v'} : J.Before [c] v v' → Steps J stack (v.move stack) (v'.move stack)

theorem Before.steps {c : Outcome} {l : List Outcome} (h : J.Before (c :: l) w w') (stack : Stack) :
    J.Steps stack (w.move stack) (w'.move stack) := by
  obtain ⟨hadmits, last, joint, hlast, hjoint, ha⟩ := h
  have hl : ∀ o ∈ l, o.isEnd = false ∧ J.admits o := fun o ho => hadmits o (List.mem_cons_of_mem c ho)
  have near : ∀ {m v v'}, m <:+ l → Alike [] last joint (c :: m) v v' → J.Near v v' :=
    fun hm hv => ⟨_, List.forall_mem_cons.mpr ⟨hadmits c List.mem_cons_self,
      fun o ho => hl o (hm.mem ho)⟩, last, joint, hlast, hjoint, hv⟩
  have hmove := ha.move (hadmits c List.mem_cons_self).1 stack
  generalize w.move stack = r, w'.move stack = r' at hmove ⊢
  cases hmove with
  | goes _ hm hv => exact .goes ⟨_, fun o ho => hl o (hm.mem ho), last, joint, hlast, hjoint, hv⟩
  | stalls hm hv => exact .stalls (near hm hv)
  | loses hb ho hm hv => exact .loses hb (hl _ ho) (near hm hv)
  | breaks ho hstring hstring' => exact .breaks (hl _ ho).2 hstring hstring'
  | arrives hv =>
    exact .arrives ⟨List.forall_mem_singleton.mpr (hadmits c List.mem_cons_self), last, joint, hlast,
      hjoint, hv⟩

theorem Near.steps (h : J.Near w w') (hs : ¬ J.Seam w w') (stack : Stack) :
    J.Steps stack (w.move stack) (w'.move stack) := by
  obtain ⟨c, l, h⟩ := h.exists_cons hs
  exact h.steps stack

theorem frames_newline {t : Token} (ht : t.kind = .newline) : Outcome.frames (.ok t) = 5 := by
  rw [Outcome.frames, ht]

/-- Where there is room for a newline, there is room for the last cuts of the first run. -/
theorem Last.move {c : Outcome} {last : List Outcome} (h : J.Last last) (hl : w.left = c :: last)
    (hc : c.isEnd = false) {stack : Stack} (hs : stack.holds 5 = true) :
    w.move stack = (.ok (), w.advance) := by
  have hscan := Stack.holds_of_le hs (show scanFrames ≤ 5 by decide)
  cases h with
  | bare _ => exact Window.move_of_room hl hc hscan (Stack.holds_of_le hs (by decide))
  | newline ht => exact Window.move_of_room hl hc hscan (frames_newline ht ▸ hs)

/-- The windows at which the texts begin. -/
theorem near_start {a c : String} {l last joint : List Outcome} (hlast : J.Last last)
    (hjoint : J.Joint joint) (habsent : J.admits (.ok Token.absent)) (ha : lex a.toList = l ++ last)
    (hc : lex c.toList = l ++ joint) (hl : ∀ o ∈ l, o.isEnd = false ∧ J.admits o) :
    J.Near (Window.ofText a).advance (Window.ofText c).advance := by
  have hleft : ∀ text : String, (Window.ofText text).left = .ok Token.absent :: lex text.toList := by
    intro text
    rw [Window.left, Window.rest_ofText, Cursor.bare_outcomes_ofText]
    rfl
  have h : J.Before (.ok Token.absent :: l) (Window.ofText a) (Window.ofText c) :=
    ⟨List.forall_mem_cons.mpr ⟨⟨rfl, habsent⟩, hl⟩, last, joint, hlast, hjoint,
      by rw [hleft, ha]; rfl, by rw [hleft, hc]; rfl, rfl⟩
  have hm := h.steps none
  generalize hr : (Window.ofText a).move none = r, hr' : (Window.ofText c).move none = r' at hm
  rw [Window.move_none] at hr hr'
  cases hm with
  | goes hv =>
    obtain ⟨-, rfl⟩ := Prod.mk.inj hr
    obtain ⟨-, rfl⟩ := Prod.mk.inj hr'
    exact hv
  | arrives hv =>
    rw [Window.move_none] at hr hr'
    rw [(Prod.mk.inj hr).2, (Prod.mk.inj hr').2]
    exact near_advance hv
  | stalls => cases hr
  | loses => cases hr
  | breaks => cases hr

theorem lex_newline (b : List Char) : lex ('\n' :: b) =
    .ok (newlines (b.takeWhile (· = '\n'))) :: lex (b.dropWhile (· = '\n')) :=
  lex_of_cut (cutToken_newline b) rfl

/-- Behind the junction the second run reads what a run through the text behind it reads. -/
theorem echoes_start {u : Window} {t : Token} (ht : t.kind = .newline) {b : String}
    (h : u.left = .ok t :: lex (b.toList.dropWhile (· = '\n'))) :
    Echoes u.reported (Window.start b) u.skipNewlines := by
  have hk : u.current.kind = .newline := (Window.kind_of_left h).trans ht
  have hr : u.rest.map Outcome.bare = lex (b.toList.dropWhile (· = '\n')) := (List.cons.inj h).2
  have ho : (Window.ofText b).rest.map Outcome.bare = lex b.toList := by
    rw [Window.rest_ofText, Cursor.bare_outcomes_ofText]
  have hd : u.reported = u.reported ++ (Window.ofText b).reported := by
    simp [Window.ofText, Window.reported]
  rw [Window.skipNewlines_of_newline hk, Window.start]
  by_cases hb : ∃ cs, b.toList = '\n' :: cs
  · obtain ⟨cs, hb⟩ := hb
    rw [hb, List.dropWhile_cons_of_pos (by simp)] at hr
    have hleft : (Window.ofText b).left = .ok Token.absent ::
        .ok (newlines (cs.takeWhile (· = '\n'))) :: lex (cs.dropWhile (· = '\n')) := by
      rw [Window.left, ho, hb, lex_newline]
      rfl
    obtain ⟨-, hl, hrep⟩ := Window.left_advance hleft rfl
    have hvk : (Window.ofText b).advance.current.kind = .newline := Window.kind_of_left hl
    rw [Window.skipNewlines_of_newline hvk]
    refine (Echoes.of_rest (by simp [hvk]) (by simp [hk]) ?_ ?_).skipNewlines
    · exact (List.cons.inj hl).2.trans hr.symm
    · rw [hrep]
      exact hd
  · have hb' : b.toList.dropWhile (· = '\n') = b.toList := by
      cases hc : b.toList with
      | nil => rfl
      | cons c cs =>
        have : c ≠ '\n' := fun h => hb ⟨cs, h ▸ hc⟩
        simp [this]
    rw [hb'] at hr
    exact (Echoes.of_rest (by simp [Window.ofText, Token.absent]) (by simp [hk])
      (ho.trans hr.symm) hd).skipNewlines

end Junction
end ArrowLang
