import ArrowLang.Proofs.Composition
import ArrowLang.Proofs.Mirrored

/-!
# Where a line overruns its end

After a fault one more token is skipped, and after nesting too deep the rest of the line. In a text
without brackets and strings this stays within the line of the fault, with one exception: where the
newline that ends the text was moved over already, or is lost as the stack runs out, a run that reads
on behind it skips a part of the next line.
-/
namespace ArrowLang

open Reading (declaration expression missing)

namespace Window

/-- A failure behind the newline that ends a text: no newline is ahead any more, or the end of the
text is lost. -/
def Spent (w : Window) (f : Failure) : Prop :=
  (∀ t ∈ w.ahead, t.kind ≠ .newline) ∨ ∃ t, f = .tooDeep (some (.ok t)) ∧ t.kind = .endOfText

variable {w : Window}

theorem mem_left {t : Token} (h : t ∈ w.ahead) : .ok t.bare ∈ w.left := by
  rcases List.mem_cons.mp h with rfl | h
  · exact List.mem_cons_self
  · obtain ⟨o, ho, ht⟩ := List.mem_filterMap.mp h
    refine List.mem_cons_of_mem _ (List.mem_map.mpr ⟨o, ho, ?_⟩)
    cases o with
    | ok u => exact congrArg (fun u => Except.ok u.bare) (Option.some.inj ht)
    | error e => cases ht

theorem exists_mem_ahead {t : Token} (h : .ok t ∈ w.left) : ∃ u ∈ w.ahead, u.bare = t := by
  rcases List.mem_cons.mp h with h | h
  · exact ⟨w.current, List.mem_cons_self, (Except.ok.inj h).symm⟩
  · obtain ⟨o, ho, ht⟩ := List.mem_map.mp h
    obtain ⟨u, rfl, rfl⟩ := Outcome.bare_eq_ok ht
    exact ⟨u, List.mem_cons_of_mem _ (List.mem_filterMap.mpr ⟨_, ho, rfl⟩), rfl⟩

/-- Where only other tokens are left, no newline is ahead. -/
theorem spent_of_left {l : List Token} (h : w.left = l.map .ok)
    (hts : ∀ t ∈ l, t.kind ≠ .newline) (f : Failure) : w.Spent f := by
  refine .inl fun t ht => ?_
  have hm := mem_left ht
  rw [h] at hm
  obtain ⟨u, hu, he⟩ := List.mem_map.mp hm
  rw [← Token.kind_bare t, ← Except.ok.inj he]
  exact hts u hu

theorem not_spent {f : Failure} {t : Token} (h : .ok t ∈ w.left) (ht : t.kind = .newline)
    (hf : ∀ o, f = .tooDeep (some o) → o.isEnd = false) : ¬ w.Spent f := by
  rintro (hn | ⟨u, rfl, hu⟩)
  · obtain ⟨u, hu, rfl⟩ := exists_mem_ahead h
    exact hn u hu ht
  · have hend := hf _ rfl
    simp [Outcome.isEnd, hu] at hend

end Window

/-- The cuts of a text without brackets and strings. -/
def Unbracketed (o : Outcome) : Prop :=
  (∀ t, o = .ok t → t.kind ≠ .leftParen ∧ t.kind ≠ .leftSquare ∧ t.kind ≠ .leftBrace) ∧
    o.inString = false

theorem Binding.operand_of_bracket {k : TokenKind} {form : Operand}
    (h : (Binding.of k).operand = some form) (hf : form = .group ∨ form = .list ∨ form = .function) :
    k = .leftParen ∨ k = .leftSquare ∨ k = .leftBrace := by
  revert h
  cases k <;> rcases hf with rfl | rfl | rfl <;> simp [Binding.of, begins, left, right, none]

namespace Junction

variable {J : Junction} {w w' : Window} {stack : Stack} {depth : Nat}

/-- How the second run fails where the first one overruns its last newline: it has lost the newline
that follows the text, or an expression is missing before that newline. -/
inductive Skids (J : Junction) : Option Failure → Window → Prop where
  | lost {o c : Outcome} {v : Window} : c.isEnd = false → c.isNewline = false →
      v.left = c :: J.tail → Skids J (some (.tooDeep (some o))) v
  | missed {stack : Stack} {joint : List Outcome} {u v : Window} {r : Except Failure Expr} :
      J.Joint joint → u.left = joint → stack.holds 1 = true →
      (stack.inside 1).holds scanFrames = true → missing.on stack u = (r, v) →
      Skids J (failure? r) v

/-- The two runs over a text without brackets. The first one goes off only where it overruns its last
newline, and the second one skids there. -/
def linePair (J : Junction) : Pair where
  near := J.Near
  seam := J.Seam
  off f v r v' := v.Spent f ∧ J.Skids r v'
  misses o := o.isEnd = false ∧ o.inString = false
  drops _ := False

/-- The second run never succeeds where it skids. -/
theorem Skids.ne_none {v : Window} : ¬ J.Skids none v := by
  generalize hr : (none : Option Failure) = r
  rintro (_ | @⟨stack, joint, u, v, r, _, _, _, _, hm⟩)
  · cases hr
  · cases r with
    | ok e => exact Reading.missing_ne_ok hm
    | error f => cases hr

/-- At the junction both runs stall before the first cut, or the first one overruns its newline. -/
theorem Seam.missing_meets (hJ : J.ended) (h : J.Seam w w') (stack : Stack) :
    J.linePair.Meets (fun e e' : Expr => e.bare = e'.bare) (missing.on stack w)
      (missing.on stack w') := by
  obtain ⟨last, joint, hlast, hjoint, ha⟩ := h.alike
  obtain ⟨ht⟩ := id hjoint
  have hne' := Window.ne_end_of_left ha.left' (decide_eq_false (by rw [ht]; decide))
  cases hlast with
  | bare hn => exact absurd hJ hn
  | @newline n hn =>
    have hc : Outcome.isEnd (.ok n) = false := decide_eq_false (by rw [hn]; decide)
    have near : ∀ {v v' : Window}, v.left = w.left → v'.left = w'.left →
        v'.reported = v.reported → J.Near v v' := fun hv hv' hr =>
      ⟨[], by simp, _, _, .newline hn, hjoint, hv.trans ha.left, hv'.trans ha.left', hr⟩
    cases hs : stack.holds 1 with
    | false =>
      rw [Reading.missing_of_full hs, Reading.missing_of_full hs]
      exact .failed rfl rfl rfl (near rfl rfl ha.reported)
    | true =>
      have hskid : (stack.inside 1).holds scanFrames = true →
          J.Skids (failure? (missing.on stack w').1) (missing.on stack w').2 :=
        fun hscan => .missed hjoint ha.left' hs hscan rfl
      rcases Window.move_of_left ha.left hc (stack.inside 1) with ⟨hscan, -⟩ |
        ⟨hscan, -, u, v, hm, hu, -⟩ | ⟨hscan, hcut, hm, hv, -⟩
      · rw [Reading.missing_of_error hs (Window.move_stalls (Window.ne_end_of_left ha.left hc) hscan),
          Reading.missing_of_error hs (Window.move_stalls hne' hscan)]
        exact .failed rfl rfl rfl (near rfl rfl ha.reported)
      · have huk : u.kind = .endOfText := by rw [← Token.kind_bare u, hu]; rfl
        rw [Reading.missing_of_error hs hm]
        exact .off ⟨.inr ⟨u, rfl, huk⟩, hskid hscan⟩
      · have hroom : stack.holds Reading.lookupFrames = true := by
          cases stack with
          | none => rfl
          | some k =>
            simp only [Stack.inside_some, Stack.holds_some, decide_eq_true_eq] at hcut ⊢
            exact Nat.le_trans hcut (Nat.sub_le _ _)
        rw [Reading.missing_of_move hs hm, if_pos hroom]
        exact .off ⟨Window.spent_of_left (l := [textEnd]) hv (by simp [textEnd]) _, hskid hscan⟩

/-- Over its last cut the first run comes to the junction, or it overruns its newline where the second
one loses the newline behind it. -/
theorem Before.move_line (hJ : J.ended) {c : Outcome} (h : J.Before [c] w w') (stack : Stack) :
    J.linePair.Meets (fun _ _ : Unit => True) (w.move stack) (w'.move stack) := by
  have hadvance := near_advance h
  obtain ⟨_, _, hlast, ⟨ht⟩, ha⟩ := h.alike
  have hc := (h.admits c List.mem_cons_self).1
  have hend : ∀ {t : Token}, t.kind = .newline → Outcome.isEnd (.ok t) = false :=
    fun ht => decide_eq_false (by rw [ht]; decide)
  cases hlast with
  | bare hn => exact absurd hJ hn
  | @newline n hn =>
    rcases Window.move_of_left ha.left' hc stack with ⟨hscan, -⟩ |
      ⟨hscan, hcut, t', x', hm', htn', hx', hr'⟩ | ⟨hscan, hcut, hm', -⟩
    · rw [Window.move_stalls (Window.ne_end_of_left ha.left hc) hscan,
        Window.move_stalls (Window.ne_end_of_left ha.left' hc) hscan]
      exact .failed rfl rfl rfl
        ⟨[c], h.admits, _, _, .newline hn, .mk ht, ha.left, ha.left', ha.reported⟩
    · rw [frames_newline ht] at hcut
      rcases Window.move_of_left ha.left hc stack with ⟨hf, -⟩ | ⟨-, -, t, x, hm, htn, hx, hr⟩ |
        ⟨-, hf, -⟩
      · exact absurd (hf.symm.trans hscan) Bool.false_ne_true
      · rw [hm, hm']
        rw [if_neg (by rw [hend hn]; decide)] at hx
        rw [if_neg (by rw [hend ht]; decide)] at hx'
        obtain ⟨t₀, rfl⟩ : ∃ t₀ : Token, c = .ok t₀ := ⟨_, (Window.current_of_left hx).symm⟩
        -- a newline that is left as the current token takes the place of the one that is lost
        by_cases hcn : t₀.kind = .newline
        · have hmiss : ∀ {x y : Token} {o : Outcome}, x.bare = y → y.kind = .newline →
              Failure.tooDeep (some (.ok x)) = .tooDeep (some o) →
              o.isEnd = false ∧ o.inString = false := by
            intro x y o hxy hy ho
            obtain rfl : (Except.ok x : Outcome) = o := by simpa using ho
            exact ⟨hend (by rw [← Token.kind_bare x, hxy, hy]), rfl⟩
          refine .error rfl (fun o => hmiss htn hn) (fun o => hmiss htn' ht)
            ⟨[], by simp, _, _, .newline hcn, .mk hcn, hx, hx', ?_⟩
          rw [hr, hr', ha.reported]
        · refine .off ⟨Window.spent_of_left (l := [t₀, textEnd]) hx ?_ _,
            .lost hc (decide_eq_false hcn) hx'⟩
          simp [textEnd, hcn]
      · rw [frames_newline hn] at hf
        exact absurd (hcut.symm.trans hf) Bool.false_ne_true
    · have hlast : J.Last [.ok n, .ok textEnd] := .newline hn
      rw [hm', hlast.move ha.left hc (frames_newline ht ▸ hcut)]
      exact .ok trivial hadvance

theorem Near.move_line (hJ : J.ended) (hU : J.admits = Unbracketed) (h : J.Near w w')
    (hs : ¬ J.Seam w w') (stack : Stack) :
    J.linePair.Meets (fun _ _ : Unit => True) (w.move stack) (w'.move stack) := by
  have hm := h.steps hs stack
  generalize w.move stack = r, w'.move stack = r' at hm ⊢
  cases hm with
  | goes hn => exact .ok trivial hn
  | stalls hn => exact .failed rfl rfl rfl hn
  | @loses o o' _ _ hb ho hn =>
    rw [hU] at ho
    have hmiss : ∀ x : Outcome, x.bare = o.bare → x.isEnd = false ∧ x.inString = false := by
      intro x hx
      rw [← Outcome.isEnd_bare, ← Outcome.inString_bare, hx]
      exact ⟨ho.1, ho.2.2⟩
    refine .error rfl (fun x hx => hmiss x ?_) (fun x hx => hmiss x ?_) hn
    · rw [← (by simpa using hx : o = x)]
    · rw [← (by simpa using hx : o' = x), hb]
  | breaks ho hstring =>
    rw [hU] at ho
    exact absurd (ho.2.symm.trans ((Outcome.inString_bare _).trans hstring)) Bool.false_ne_true
  | arrives hv => exact hv.move_line hJ stack

def lineTwin (J : Junction) (hJ : J.ended) (hU : J.admits = Unbracketed) : Twin where
  toPair := J.linePair
  bare h hs := (h.current hs).1
  move := Near.move_line hJ hU
  stop := @Seam.stops J
  dangle _ hs := hs.missing_meets hJ
  astray h := absurd h.2 Skids.ne_none

theorem lineTwin_brackets (hJ : J.ended) (hU : J.admits = Unbracketed) :
    (J.lineTwin hJ hU).Brackets := by
  intro depth _ form hform stack w w' hw hs hf
  have ha := (Near.current hw hs).2.2
  rw [hU] at ha
  obtain ⟨h₁, h₂, h₃⟩ := ha.1 _ rfl
  rcases Binding.operand_of_bracket hf hform with h | h | h <;> contradiction

/-- Where the first run is spent, the second one skids. -/
theorem Near.skids (hJ : J.ended) (hU : J.admits = Unbracketed) (h : J.Near w w') {f : Failure}
    {v : Window} (hd : (declaration (expression depth)).on stack w = (.error f, v)) (hf : v.Spent f) :
    ∃ r v', (declaration (expression depth)).on stack w' = (r, v') ∧ J.Skids (failure? r) v' := by
  have hlock := Twin.lockstep (lineTwin_brackets hJ hU) depth
  have hm : (J.lineTwin hJ hU).Meets _ ((declaration (expression depth)).on stack w) _ :=
    hlock.declaration h
  rw [hd] at hm
  generalize hd' : (declaration (expression depth)).on stack w' = b at hm
  cases hm with
  | @error f f' v v' hb hmiss _ hn =>
    obtain ⟨l, -, last, joint, hlast, -, ha⟩ := hn
    cases hlast with
    | bare hn => exact absurd hJ hn
    | @newline n hn =>
      have hmem : .ok n ∈ v.left := by simp [ha.left]
      exact absurd hf (Window.not_spent hmem hn fun o ho => (hmiss o ho).1)
  | off ho => exact ⟨_, _, rfl, ho.2⟩
  | dropped ho => exact ho.elim

/-- The first run is at its end and the second one behind the newline, whatever was reported. -/
def Passed (J : Junction) (w w' : Window) : Prop :=
  w.current.kind = .endOfText ∧ ∃ (u : Window) (joint : List Outcome), J.Joint joint ∧
    u.left = joint ∧ w' = u.skipNewlines

theorem Crossed.passed (h : J.Crossed w w') : J.Passed w w' := by
  obtain ⟨hk, u, joint, hjoint, hl, -, hw⟩ := h
  exact ⟨hk, u, joint, hjoint, hl, hw⟩

def InLine (J : Junction) (w w' : Window) : Prop :=
  (J.Near w w' ∧ ¬ J.Seam w w') ∨ J.Passed w w'

theorem Near.inLine (hJ : J.ended) (hU : J.admits = Unbracketed) (h : J.Near w w') :
    J.InLine w.skipNewlines w'.skipNewlines := by
  rcases Twin.near_skipNewlines (T := (J.lineTwin hJ hU)) h with h | ⟨u, u', -, hs, hu, hu'⟩
  · exact .inl h
  · rw [hu, hu']
    exact .inr hs.crossed.passed

theorem Near.turn_inLine (hJ : J.ended) (hU : J.admits = Unbracketed) (h : J.Near w w') :
    (J.lineTwin hJ hU).TurnMeets stack depth J.InLine w w' := by
  refine Twin.turn_meets (Twin.lockstep (lineTwin_brackets hJ hU) depth)
    (Near.inLine hJ hU) (fun {v v' t t'} g hv ht => ?_) (fun {v v'} hv => ?_) h
  · have hd : (Diagnostic.grammar g t).bare = (Diagnostic.grammar g t').bare := by
      simp [Diagnostic.bare, ht]
    have hr := Near.report hv hd
    by_cases hs : J.Seam (v.report (.grammar g t)) (v'.report (.grammar g t'))
    · exact .inr hs.crossed_advance.passed
    · exact (Twin.advance (T := (J.lineTwin hJ hU)) hr hs).inLine hJ hU
  · by_cases hs : J.Seam v v'
    · have hk : v.current.kind = .newline ∨ v.current.kind = .endOfText := hs.kind.symm
      rw [Window.skipLine_of_stop (w := v.report _) hk,
        Window.skipLine_of_stop (w := v'.report _) (.inl hs.kind')]
      obtain ⟨_, joint, -, hjoint, ha⟩ := hs.alike
      refine .inr ⟨?_, v'.report _, joint, hjoint, ha.left', rfl⟩
      exact (hs.report (d := .grammar .nestingTooDeep v.current) rfl).skipNewlines_end.1
    · have hb := (Near.current hv hs).1
      have hd : (Diagnostic.grammar .nestingTooDeep v.current).bare =
          (Diagnostic.grammar .nestingTooDeep v'.current).bare := by simp [Diagnostic.bare, hb]
      have hr := Near.report hv hd
      exact Near.inLine hJ hU (Twin.near_skipLine (T := (J.lineTwin hJ hU)) hr)

end Junction

namespace Window

variable {w : Window} {stack : Stack} {depth : Nat}

/-- A declaration fails behind the newline that ends the text. -/
def Overruns (stack : Stack) (depth : Nat) (w : Window) : Prop :=
  ∃ ds v f u, w.Visits stack depth ds v ∧ v.current.kind ≠ .endOfText ∧
    (declaration (expression depth)).on stack v = (.error f, u) ∧ u.Spent f

theorem Overruns.of_turn {d : Option Decl} {v : Window} (hc : w.current.kind ≠ .endOfText)
    (ht : w.turn stack depth = (.ok d, v)) (h : v.Overruns stack depth) :
    w.Overruns stack depth := by
  obtain ⟨ds, u, f, x, hu, hrest⟩ := h
  exact ⟨_, u, f, x, .behind hc ht hu, hrest⟩

end Window

namespace Junction

variable {J : Junction} {w w' : Window} {stack : Stack} {depth : Nat}

/-- Unless the first run overruns its last newline, the second one goes on behind the junction. -/
theorem InLine.forms (hJ : J.ended) (hU : J.admits = Unbracketed) (h : J.InLine w w')
    (hno : ¬ w.Overruns stack depth) {cs : List Char} (hb : Behind cs w'.cursor.rest)
    {es : List Decl} (hok : (w'.forms stack depth).1 = .ok es) :
    ∃ (u : Window) (joint : List Outcome) (ds : List Decl), J.Joint joint ∧ u.left = joint ∧
      Behind cs u.skipNewlines.cursor.rest ∧
      (w'.forms stack depth).1 = (u.skipNewlines.forms stack depth).1.map (ds ++ ·) := by
  induction w using Window.forms_induction stack depth generalizing w' es with
  | last w hc =>
    rcases h with ⟨h, hs⟩ | ⟨-, u, joint, hjoint, hl, rfl⟩
    · exact absurd hc (h.current hs).2.1
    · exact ⟨u, joint, [], hjoint, hl, hb, by rw [map_nil_append]⟩
  | turn w hc ih =>
    rcases h with ⟨h, hs⟩ | ⟨hk, -⟩
    · have hc' : w'.current.kind ≠ .endOfText := Token.kind_eq_of_bare (h.current hs).1 ▸ hc
      rw [Window.forms_of_turn hc'] at hok
      cases (h.turn_inLine hJ hU : (J.lineTwin hJ hU).TurnMeets stack depth J.InLine w w') with
      | @goes d d' v v' ht ht' _ hv _ hmiss =>
        have hb' := Window.behind_turn (fun o ho => (hmiss o ho).2) hb
        rw [ht'] at hb' hok
        rw [ht] at ih
        obtain ⟨es, hes, -⟩ := ok_of_map hok
        obtain ⟨u, joint, ds, hjoint, hl, hbu, hf⟩ :=
          ih hv (fun ho => hno (ho.of_turn hc ht)) hb' hes
        refine ⟨u, joint, d'.toList ++ ds, hjoint, hl, hbu, ?_⟩
        rw [Window.forms_of_turn hc', ht']
        simp only [hf, map_append]
      | aborts _ ht' =>
        rw [ht'] at hok
        cases hok
      | off hd _ ho => exact absurd ⟨[], w, _, _, .here w, hc, hd, ho.1⟩ hno
      | dropped _ ho => exact ho.elim
    · exact absurd hk hc

/-- Where the first run overruns its last newline, the second one skids there, whatever is behind the
junction: up to there the same declarations are read. -/
theorem InLine.skids (h : w.Overruns stack depth) : ∃ ds : List Decl, ∀ (J : Junction) (w' : Window),
    J.ended → J.admits = Unbracketed → J.InLine w w' →
      ∃ ds' v' r u', w'.Visits stack depth ds' v' ∧ ds'.map Decl.bare = ds.map Decl.bare ∧
        v'.current.kind ≠ .endOfText ∧
        (declaration (expression depth)).on stack v' = (r, u') ∧ J.Skids (failure? r) u' := by
  obtain ⟨ds, v, f, u, hv, hc, hd, hf⟩ := h
  have here : ∀ {w : Window} {f : Failure} {u : Window}, w.current.kind ≠ .endOfText →
      (declaration (expression depth)).on stack w = (.error f, u) → u.Spent f →
      ∀ (J : Junction) (w' : Window), J.ended → J.admits = Unbracketed → J.InLine w w' →
        ∃ ds' v' r u', w'.Visits stack depth ds' v' ∧ ds'.map Decl.bare = [] ∧
          v'.current.kind ≠ .endOfText ∧
          (declaration (expression depth)).on stack v' = (r, u') ∧ J.Skids (failure? r) u' := by
    intro w f u hc hd hf J w' hJ hU h
    rcases h with ⟨h, hs⟩ | ⟨hk, -⟩
    · have hc' : w'.current.kind ≠ .endOfText := Token.kind_eq_of_bare (h.current hs).1 ▸ hc
      obtain ⟨r, v', hd', hskid⟩ := h.skids hJ hU hd hf
      exact ⟨[], w', r, v', .here w', rfl, hc', hd', hskid⟩
    · exact absurd hk hc
  induction hv with
  | here w => exact ⟨[], here hc hd hf⟩
  | @behind x v w d ds hw ht _ ih =>
    by_cases hspent : ∃ g y, (declaration (expression depth)).on stack w = (.error g, y) ∧ y.Spent g
    · obtain ⟨g, y, hg, hy⟩ := hspent
      exact ⟨[], here hw hg hy⟩
    · obtain ⟨es, hes⟩ := ih hc hd
      refine ⟨d.toList ++ es, fun J w' hJ hU h => ?_⟩
      rcases h with ⟨h, hs⟩ | ⟨hk, -⟩
      · have hw' : w'.current.kind ≠ .endOfText := Token.kind_eq_of_bare (h.current hs).1 ▸ hw
        cases (h.turn_inLine hJ hU : (J.lineTwin hJ hU).TurnMeets stack depth J.InLine w w') with
        | @goes d₁ d' v₁ v' ht₁ ht' hdd hv _ _ =>
          obtain ⟨hd₁, rfl⟩ := Prod.mk.inj (ht₁.symm.trans ht)
          obtain rfl := Except.ok.inj hd₁
          obtain ⟨ds', v'', r, u', hvis, hds, hrest⟩ := hes J v' hJ hU hv
          refine ⟨d'.toList ++ ds', v'', r, u', .behind hw' ht' hvis, ?_, hrest⟩
          rw [List.map_append, List.map_append, hds, ← Option.toList_map, ← Option.toList_map, hdd]
        | aborts ht₁ => cases ht₁.symm.trans ht
        | off hg _ ho => exact absurd ⟨_, _, hg, ho.1⟩ hspent
        | dropped _ ho => exact ho.elim
      · exact absurd hk hw

theorem error_of_failure {α : Type} {r : Except Failure α} {f : Failure} (h : failure? r = some f) :
    r = .error f := by
  cases r with
  | ok => cases h
  | error => exact congrArg _ (Option.some.inj h)

section
variable {x n y : Token} {l : List Outcome} (hn : n.kind = .newline) (hy : y.kind = .identifier)
  {v : Window}
include hn hy

theorem left_skipNewlines_newline (h : v.left = .ok n :: .ok y :: l) :
    v.skipNewlines.left = .ok y :: l := by
  obtain ⟨-, ha, -⟩ := Window.left_advance h (decide_eq_false (by rw [hn]; decide))
  rw [Window.skipNewlines_of_newline ((Window.kind_of_left h).trans hn),
    Window.skipNewlines_of_ne (by rw [Window.kind_of_left ha, hy]; decide)]
  exact ha

theorem left_skipLine_name (hx : x.kind = .identifier)
    (h : v.left = .ok x :: .ok n :: .ok y :: l) : v.skipLine.skipNewlines.left = .ok y :: l := by
  have hk := (Window.kind_of_left h).trans hx
  obtain ⟨-, ha, -⟩ := Window.left_advance h (decide_eq_false (by rw [hx]; decide))
  rw [Window.skipLine_of_ne (by rw [hk]; decide) (by rw [hk]; decide),
    Window.skipLine_of_stop (.inl ((Window.kind_of_left ha).trans hn))]
  exact left_skipNewlines_newline hn hy ha

end

/-- Where the second run skids, the line behind the junction is lost: `x` and `y` are names, and `n` is
the newline between them. -/
theorem Skids.turn {x n y : Token} {l : List Outcome} (hx : x.kind = .identifier)
    (hn : n.kind = .newline) (hy : y.kind = .identifier)
    (ht : J.tail = .ok x :: .ok n :: .ok y :: l) {r : Except Failure Decl} {u : Window}
    (hd : (declaration (expression depth)).on stack w = (r, u)) (h : J.Skids (failure? r) u) :
    (w.turn stack depth).1 = .ok none ∧ (w.turn stack depth).2.left = .ok y :: l := by
  have deep : ∀ {lost : Option Outcome}, r = .error (.tooDeep lost) →
      (∀ v : Window, v.left = u.left → v.skipLine.skipNewlines.left = .ok y :: l) →
      (w.turn stack depth).1 = .ok none ∧ (w.turn stack depth).2.left = .ok y :: l := by
    rintro lost rfl hline
    rw [Window.turn, hd]
    exact ⟨rfl, hline _ rfl⟩
  generalize hf : failure? r = f at h
  cases h with
  | @lost o c u hend hnewline hl =>
    rw [ht] at hl
    refine deep (error_of_failure hf) fun v hv => ?_
    have hv := hv.trans hl
    rw [← Window.current_of_left hv] at hnewline
    rw [Window.skipLine_of_ne (of_decide_eq_false hnewline) (Window.ne_end_of_left hv hend)]
    exact left_skipLine_name hn hy hx (Window.left_advance hv hend).2.1
  | @missed stack' joint v u e hjoint hl hs hscan hm =>
    obtain ⟨hk⟩ := hjoint
    rw [ht] at hl
    rcases Window.move_of_left hl (decide_eq_false (by rw [hk]; decide)) (stack'.inside 1) with
      ⟨hno, -⟩ | ⟨-, -, x', u', hmove, -, hl', -⟩ | ⟨-, -, hmove, hl', -⟩
    · exact absurd (hno.symm.trans hscan) Bool.false_ne_true
    · obtain ⟨rfl, rfl⟩ := Prod.mk.inj (hm.symm.trans (Reading.missing_of_error hs hmove))
      rw [if_neg (by simp [Outcome.isEnd, hx])] at hl'
      refine deep (error_of_failure hf) fun v hv => ?_
      have hv := hv.trans hl'
      have hc := (Window.kind_of_left hv).trans hk
      rw [Window.skipLine_of_stop (.inl hc), Window.skipNewlines_of_newline hc]
      exact left_skipNewlines_newline hn hy
        (Window.left_advance hv (decide_eq_false (by rw [hk]; decide))).2.1
    · rw [Reading.missing_of_move hs hmove] at hm
      cases hroom : stack'.holds Reading.lookupFrames <;> rw [hroom] at hm <;>
        obtain ⟨rfl, rfl⟩ := Prod.mk.inj hm
      · exact deep (error_of_failure hf) fun v hv =>
          left_skipLine_name hn hy hx (hv.trans hl')
      · obtain rfl := error_of_failure hf
        rw [Window.turn, hd]
        exact ⟨rfl, left_skipNewlines_newline hn hy
          (Window.left_advance (w := v.advance.report _) hl' (decide_eq_false (by rw [hx]; decide))).2.1⟩

end Junction

end ArrowLang
