import ArrowLang.Proofs.Junction
import Mathlib

/-!
# Reading composes over newlines

Unless a fault in the first of two texts is blamed on a newline or on its end, the two texts joined
by a newline are read as one after the other. The exception are readings that lose a newline or an
error of a string where the stack runs out.
-/
namespace ArrowLang

open Reading (missing)

def Outcome.isNewline : Outcome → Bool
  | .ok t => t.kind = .newline
  | .error _ => false

/-- A diagnostic that blames a newline or the end of the text. -/
def Diagnostic.BlamesStop (d : Diagnostic) : Prop := ∃ f t, d = .grammar f t ∧ t.kind.isStop

def Window.BlamesStop (w : Window) : Prop := ∃ d ∈ w.diagnostics.toList, d.BlamesStop

theorem Window.BlamesStop.mono {w v : Window} (h : w.BlamesStop)
    (hv : w.diagnostics.toList <+: v.diagnostics.toList) : v.BlamesStop := by
  obtain ⟨d, hd, hb⟩ := h
  exact ⟨d, hv.mem hd, hb⟩

theorem Window.blamesStop_report (w : Window) (f : GrammarFault) {t : Token} (ht : t.kind.isStop) :
    (w.report (.grammar f t)).BlamesStop :=
  ⟨.grammar f t, by simp [report], f, t, rfl, ht⟩

namespace Junction

variable (J : Junction)

/-- A failure that is reported as the fault of a newline or of the end. -/
def BlamesStop (f : Failure) (v : Window) : Prop :=
  match f with
  | .fault _ t => t.kind.isStop
  | .tooDeep _ => v.current.kind.isStop
  | .abort _ => False

variable {J} {w w' : Window}

/-- At its last cuts the first run comes to its end or stops before. -/
theorem Seam.move_stops (h : J.Seam w w') (stack : Stack) :
    w.move stack = (.ok (), w.advance) ∧ w.advance.current.kind = .endOfText ∨
      ∃ lost v, w.move stack = (.error (.tooDeep lost), v) ∧ v.current.kind.isStop := by
  obtain ⟨_, _, hlast, -, ha⟩ := h.alike
  have hl := ha.left
  cases hlast with
  | bare _ =>
    have hk := Window.kind_of_left hl
    refine .inl ⟨Window.move_of_end stack hk, ?_⟩
    rw [Window.advance_of_end hk]
    exact hk
  | @newline t ht =>
    have hstop : t.kind.isStop := by rw [ht]; rfl
    have hc : Outcome.isEnd (.ok t) = false := decide_eq_false (by rw [ht]; decide)
    rcases Window.move_of_left hl hc stack with ⟨-, v, hm, hv, -⟩ | ⟨-, -, u, v, hm, -, hv, -⟩ |
      ⟨-, -, hm, hv, -⟩
    · exact .inr ⟨_, v, hm, by rwa [Window.kind_of_left (hv.trans hl)]⟩
    · exact .inr ⟨_, v, hm, by rwa [Window.kind_of_left (hv.trans hl)]⟩
    · exact .inl ⟨hm, Window.kind_of_left hv⟩

/-- A missing expression is blamed on a stop there, or nesting too deep is. -/
theorem Seam.missing_blames (h : J.Seam w w') (stack : Stack) :
    ∃ f v, missing.on stack w = (.error f, v) ∧ BlamesStop f v := by
  cases hs : stack.holds 1 with
  | false => exact ⟨_, w, Reading.missing_of_full hs, h.isStop⟩
  | true =>
    rcases h.move_stops (stack.inside 1) with ⟨hm, hk⟩ | ⟨lost, v, hm, hk⟩
    · rw [Reading.missing_of_move hs hm]
      split
      · exact ⟨_, _, rfl, h.isStop⟩
      · exact ⟨_, _, rfl, show TokenKind.isStop _ by rw [hk]; rfl⟩
    · exact ⟨_, v, Reading.missing_of_error hs hm, hk⟩

/-- Over the newlines of its last cuts the first run comes to its end, or it blames a stop. -/
theorem Seam.passNewlines_stops (h : J.Seam w w') (stack : Stack) :
    (∃ v, w.passNewlines stack = (.ok (), v) ∧ v.current.kind = .endOfText) ∨
      ∃ f v, w.passNewlines stack = (.error f, v) ∧ BlamesStop f v := by
  rcases h.kind with hk | hk
  · exact .inl ⟨w, Window.passNewlines_of_ne stack (by rw [hk]; decide), hk⟩
  · rcases h.move_stops (stack.inside 2) with ⟨hm, he⟩ | ⟨lost, v, hm, hv⟩
    · rw [Window.passNewlines_of_ok _ hk hm, Window.passNewlines_of_ne stack (by rw [he]; decide)]
      exact .inl ⟨_, rfl, he⟩
    · rw [Window.passNewlines_of_error hk hm]
      exact .inr ⟨_, v, rfl, hv⟩

/-- The two runs, where the first one goes off as soon as it blames a newline or the end. -/
def pair (J : Junction) : Pair where
  near := J.Near
  seam := J.Seam
  off f v _ _ := BlamesStop f v
  misses _ := True
  drops o := o.inString = true ∨ o.isNewline = true

/-- Over its last cut the first run comes to the junction, unless the second one loses the newline. -/
theorem Before.move_meets {c : Outcome} (h : J.Before [c] w w') (stack : Stack) :
    J.pair.Meets (fun _ _ : Unit => True) (w.move stack) (w'.move stack) := by
  have hadvance := near_advance h
  obtain ⟨_, _, hlast, ⟨ht⟩, ha⟩ := h.alike
  have hc := (h.admits c List.mem_cons_self).1
  rcases Window.move_of_left ha.left' hc stack with ⟨hscan, -⟩ | ⟨-, -, t', u', hm', rfl, -⟩ |
    ⟨-, hcut, hm', -⟩
  · rw [Window.move_stalls (Window.ne_end_of_left ha.left hc) hscan,
      Window.move_stalls (Window.ne_end_of_left ha.left' hc) hscan]
    exact .failed rfl rfl rfl ⟨[c], h.admits, _, _, hlast, .mk ht, ha.left, ha.left', ha.reported⟩
  · rw [hm']
    exact .dropped (.inr (decide_eq_true ht))
  · rw [hm', hlast.move ha.left hc (frames_newline ht ▸ hcut)]
    exact .ok trivial hadvance

theorem Near.move (h : J.Near w w') (hs : ¬ J.Seam w w') (stack : Stack) :
    J.pair.Meets (fun _ _ : Unit => True) (w.move stack) (w'.move stack) := by
  have hm := h.steps hs stack
  generalize w.move stack = r, w'.move stack = r' at hm ⊢
  cases hm with
  | goes hn => exact .ok trivial hn
  | stalls hn => exact .failed rfl rfl rfl hn
  | loses _ _ hn => exact .error rfl (fun _ _ => trivial) (fun _ _ => trivial) hn
  | breaks _ _ hstring => exact .dropped (.inl hstring)
  | arrives hv => exact hv.move_meets stack

def twin (J : Junction) : NestedTwin where
  toPair := J.pair
  bare h hs := (h.current hs).1
  move := Near.move
  stop := @Seam.stops J
  dangle {w w'} _ hs stack := by
    obtain ⟨f, v, hm, hf⟩ := hs.missing_blames stack
    rw [hm]
    exact .off hf
  astray h _ _ := h
  lost v := v.current.kind = .endOfText
  lost_end h := h
  lost_advance h := by
    rw [Window.advance_of_end h]
    exact h
  seam_pass _ hs stack := (hs.passNewlines_stops stack).imp_right
    fun ⟨f, v, hm, hf⟩ => ⟨f, v, hm, fun _ _ => hf⟩
  seam_fault _ hs _ _ _ := hs.isStop
  lost_fault _ ht _ _ _ := by
    change TokenKind.isStop _
    rw [ht]
    rfl
  lost_tooDeep h _ _ := by
    change TokenKind.isStop _
    rw [h]
    rfl

/-- After a turn the runs are side by side, or crossed the junction, or a stop was blamed. -/
def Goes (J : Junction) (v v' : Window) : Prop :=
  (J.Near v v' ∧ ¬ J.Seam v v') ∨ J.Crossed v v' ∨ v.BlamesStop

theorem Near.goes (h : J.Near w w') : J.Goes w.skipNewlines w'.skipNewlines := by
  rcases Twin.near_skipNewlines (T := J.twin.toTwin) h with h | ⟨u, u', -, hs, hu, hu'⟩
  · exact .inl h
  · rw [hu, hu']
    exact .inr (.inl hs.crossed)

variable {stack : Stack} {depth : Nat}

theorem Near.turn (h : J.Near w w') : J.twin.TurnMeets stack depth J.Goes w w' := by
  refine Twin.turn_meets (T := J.twin.toTwin) (Twin.lockstep J.twin.brackets depth)
    Near.goes (fun {v v' t t'} g hv ht => ?_) (fun {v v'} hv => ?_) h
  · have hd : (Diagnostic.grammar g t).bare = (Diagnostic.grammar g t').bare := by
      simp [Diagnostic.bare, ht]
    have hr := Near.report hv hd
    by_cases hs : J.Seam (v.report (.grammar g t)) (v'.report (.grammar g t'))
    · exact .inr (.inl hs.crossed_advance)
    · exact (Twin.advance (T := J.twin.toTwin) hr hs).goes
  · by_cases hs : J.Seam v v'
    · refine .inr (.inr ((v.blamesStop_report .nestingTooDeep hs.isStop).mono ?_))
      exact (Window.reaches_skipLine _).diagnostics.trans (Window.reaches_skipNewlines _).diagnostics
    · have hb := (Near.current hv hs).1
      exact (Twin.near_skipLine (T := J.twin.toTwin)
        (Near.report hv (by simp [Diagnostic.bare, hb]))).goes

theorem blamesStop_turn {f : Failure} {v : Window}
    (h : (Reading.declaration (Reading.expression depth)).on stack w = (.error f, v))
    (hf : BlamesStop f v) : (w.turn stack depth).2.BlamesStop := by
  rw [Window.turn, h]
  cases f with
  | fault g t =>
    refine (v.blamesStop_report g hf).mono ?_
    exact (Window.reaches_advance _).diagnostics.trans (Window.reaches_skipNewlines _).diagnostics
  | tooDeep =>
    refine (v.blamesStop_report .nestingTooDeep hf).mono ?_
    exact (Window.reaches_skipLine _).diagnostics.trans (Window.reaches_skipNewlines _).diagnostics
  | abort cause => exact hf.elim

theorem bareDecls_map_append (x : Except Abort (List Decl)) (ds : List Decl) :
    bareDecls (x.map (ds ++ ·)) = (bareDecls x).map (ds.map Decl.bare ++ ·) := by
  cases x <;> simp [bareDecls, Except.map]

/-- The second run loses neither a newline nor an error of a string. -/
def Keeps (stack : Stack) (depth : Nat) (w : Window) : Prop :=
  ∀ o, w.Loses stack depth o → o.inString = false ∧ o.isNewline = false

/-- The first run up to its end, and the second one up to behind the junction. -/
theorem Goes.forms (h : J.Goes w w') {ds : List Decl} (hok : (w.forms stack depth).1 = .ok ds)
    (hb : ¬ (w.forms stack depth).2.BlamesStop) (hkeep : Keeps stack depth w') :
    ∃ (u : Window) (joint : List Outcome), J.Joint joint ∧ u.left = joint ∧
      u.reported = (w.forms stack depth).2.reported ∧ Keeps stack depth u.skipNewlines ∧
      (w'.forms stack depth).2 = (u.skipNewlines.forms stack depth).2 ∧
      bareDecls (w'.forms stack depth).1 =
        (bareDecls (u.skipNewlines.forms stack depth).1).map (ds.map Decl.bare ++ ·) := by
  have hd := Window.diagnostics_forms stack depth w
  induction w using Window.forms_induction stack depth generalizing w' ds with
  | last w hc =>
    rw [Window.forms_of_end hc] at hok hb ⊢
    obtain rfl := Except.ok.inj hok
    rcases h with ⟨h, hs⟩ | ⟨-, u, joint, hjoint, hl, hr, rfl⟩ | h
    · exact absurd hc (h.current hs).2.1
    · refine ⟨u, joint, hjoint, hl, hr, hkeep, rfl, ?_⟩
      cases (u.skipNewlines.forms stack depth).1 <;> rfl
    · exact absurd h hb
  | turn w hc ih =>
    rcases h with ⟨h, hs⟩ | ⟨hk, -⟩ | h
    · have hc' : w'.current.kind ≠ .endOfText := Token.kind_eq_of_bare (h.current hs).1 ▸ hc
      rw [Window.forms_of_turn hc] at hok hb ⊢
      rw [Window.forms_of_turn hc']
      cases (h.turn : J.twin.TurnMeets stack depth J.Goes w w') with
      | @goes d d' v v' ht ht' hd hg _ _ =>
        rw [ht] at ih hok hb
        obtain ⟨ds, hds, rfl⟩ := ok_of_map hok
        obtain ⟨u, joint, hjoint, hl, hr, hk, hf, hv⟩ :=
          ih hg hds hb (fun o ho => hkeep o (ho.of_turn hc' ht'))
            (Window.diagnostics_forms stack depth v)
        rw [ht, ht']
        refine ⟨u, joint, hjoint, hl, hr, hk, hf, ?_⟩
        have hd : d.toList.map Decl.bare = d'.toList.map Decl.bare := by
          rw [← Option.toList_map, hd, Option.toList_map]
        rw [bareDecls_map_append, hv, ← hd]
        cases (u.skipNewlines.forms stack depth).1 <;> simp [bareDecls, Except.map]
      | aborts ht ht' =>
        rw [ht] at hok
        cases hok
      | @off f v r v' hd hd' ho =>
        have hbt := blamesStop_turn hd ho
        rcases ht : w.turn stack depth with ⟨_ | d, v⟩ <;> rw [ht] at hok hb hbt
        · cases hok
        · exact absurd (hbt.mono (Window.diagnostics_forms stack depth v)) hb
      | dropped ho hdrop =>
        obtain ⟨hstring, hnewline⟩ := hkeep _ ⟨[], w', .here w', hc', ho⟩
        rcases hdrop with hdrop | hdrop
        · exact absurd (hstring.symm.trans hdrop) Bool.false_ne_true
        · exact absurd (hnewline.symm.trans hdrop) Bool.false_ne_true
    · exact absurd hk hc
    · exact absurd (h.mono hd) hb

end Junction

theorem closed_of_outcomes {a : String} (h : ∀ line col : Nat,
    .error ⟨.unterminatedString, line, col⟩ ∉ (Cursor.ofText a).outcomes) : Closed a.toList := by
  intro hm
  rw [← Cursor.bare_outcomes_ofText] at hm
  obtain ⟨o, ho, hb⟩ := List.mem_map.mp hm
  obtain ⟨⟨f, line, col⟩, rfl, he⟩ := Outcome.bare_eq_error hb
  obtain rfl : f = .unterminatedString := congrArg LexicalError.fault he
  exact h line col ho

/-- Recovery is local: two texts joined by a newline give the declarations and the diagnostics of the
first one and then those of the second one, unless the first one leaves a string open or blames a
newline or its end, or the stack runs out where a newline or an error of a string is to be built. -/
theorem Program.read_join {stack : Nat} {a b : String} {p q : Program}
    (closed : ∀ line col : Nat, .error ⟨.unterminatedString, line, col⟩ ∉ (Cursor.ofText a).outcomes)
    (ha : Program.read stack a = .ok p) (hb : Program.read stack b = .ok q)
    (blame : ∀ f t, .grammar f t ∈ p.diagnostics → t.kind ≠ .newline ∧ t.kind ≠ .endOfText)
    (keeps : ∀ o, Program.Loses stack (a ++ "\n" ++ b) o →
      o.inString = false ∧ o.isNewline = false) :
    ∃ r, Program.read stack (a ++ "\n" ++ b) = .ok r ∧
      r.decls.map Decl.bare = p.decls.map Decl.bare ++ q.decls.map Decl.bare ∧
      r.diagnostics.map Diagnostic.bare =
        p.diagnostics.map Diagnostic.bare ++ q.diagnostics.map Diagnostic.bare := by
  obtain ⟨l, last, x, hlast, hla, hends, hlj, -⟩ := lex_join (closed_of_outcomes closed) b.toList
  let J : Junction := {
    tail := lex (b.toList.dropWhile (· = '\n')), admits := fun _ => True, ended := False }
  have hlast : J.Last last := by
    cases hlast with
    | bare => exact .bare id
    | newlines x _ => exact .newline rfl
  have hc : (a ++ "\n" ++ b).toList = a.toList ++ '\n' :: b.toList := by simp
  have hs : J.Near (Window.ofText a).advance (Window.ofText (a ++ "\n" ++ b)).advance :=
    Junction.near_start hlast (.mk rfl) trivial hla (hc ▸ hlj) fun o ho => ⟨hends o ho, trivial⟩
  obtain ⟨hpd, hpg⟩ := Program.read_eq_ok ha
  obtain ⟨hqd, hqg⟩ := Program.read_eq_ok hb
  have hstop : ¬ (Window.read stack a).2.BlamesStop := by
    rintro ⟨d, hd, f, t, rfl, ht⟩
    rw [← hpg] at hd
    have := blame f t hd
    simp_all [TokenKind.isStop]
  obtain ⟨u, _, ⟨ht⟩, hl, hr, hk, hf, hv⟩ := hs.goes.forms hpd hstop keeps
  have hecho := Junction.echoes_start ht hl
  obtain ⟨hds, hdg⟩ := hecho.forms fun o ho => (hk o ho).1
  rw [← hds, show (Window.start b).forms _ _ = Window.read stack b from rfl, hqd] at hv
  obtain ⟨rs, hrs, hrb⟩ := ok_of_map hv
  refine ⟨⟨rs, (Window.read stack (a ++ "\n" ++ b)).2.diagnostics.toList⟩, ?_, hrb, ?_⟩
  · rw [Program.read_eq, Window.read, Window.start, hrs]
    rfl
  · rw [hpg, hqg]
    calc (Window.read stack (a ++ "\n" ++ b)).2.reported
        = (u.skipNewlines.forms _ _).2.reported := congrArg Window.reported hf
      _ = u.reported ++ (Window.read stack b).2.reported := hdg _ hqd
      _ = (Window.read stack a).2.reported ++ (Window.read stack b).2.reported := by rw [hr]; rfl

/-- A fault and an unknown character before the join, a fault at the end of the text behind it. -/
theorem Program.read_join_faults :
    ∃ r, Program.read 20 ("1 = 2\n$ y" ++ "\n" ++ "\nz -") = .ok r ∧
      r.decls.map Decl.bare = [.evaluated (.of (.literal (.int 2))),
        .evaluated (.of (.name ⟨.identifier, "y", 0, 0⟩))] ∧
      r.diagnostics.map Diagnostic.bare =
        [.grammar (.expectedToken .identifier "Expected constant name before '='.") ⟨.equal, "=", 0, 0⟩,
          .lexical (.unrecognizedCharacter "$") 0 0,
          .grammar .expectedExpression ⟨.endOfText, "", 0, 0⟩] := by
  have ho : (Cursor.ofText "1 = 2\n$ y").outcomes =
      [.ok ⟨.number, "1", 1, 1⟩, .ok ⟨.equal, "=", 1, 3⟩, .ok ⟨.number, "2", 1, 5⟩,
        .ok ⟨.newline, "\n", 2, 0⟩, .error ⟨.unrecognizedCharacter "$", 2, 1⟩,
        .ok ⟨.identifier, "y", 2, 3⟩, .ok ⟨.endOfText, "", 2, 3⟩] := by cbv
  have ha : Program.read 20 "1 = 2\n$ y" = .ok ⟨[.evaluated (.of (.literal (.int 2))),
      .evaluated (.of (.name ⟨.identifier, "y", 2, 3⟩))],
      [.grammar (.expectedToken .identifier "Expected constant name before '='.") ⟨.equal, "=", 1, 3⟩,
        .lexical (.unrecognizedCharacter "$") 2 1]⟩ := by cbv
  have hb : Program.read 20 "\nz -" =
      .ok ⟨[], [.grammar .expectedExpression ⟨.endOfText, "", 2, 3⟩]⟩ := by cbv
  have hr : Program.read 20 ("1 = 2\n$ y" ++ "\n" ++ "\nz -") = .ok ⟨[.evaluated (.of (.literal (.int 2))),
      .evaluated (.of (.name ⟨.identifier, "y", 2, 3⟩))],
      [.grammar (.expectedToken .identifier "Expected constant name before '='.") ⟨.equal, "=", 1, 3⟩,
        .lexical (.unrecognizedCharacter "$") 2 1,
        .grammar .expectedExpression ⟨.endOfText, "", 4, 3⟩]⟩ := by cbv
  exact Program.read_join (by simp [ho]) ha hb (by simp)
    fun o hl => absurd hl (Program.not_loses hr (by simp) o)

/-- Where the newline of a line that nests too deep is lost, the next line goes with it. -/
theorem Program.read_join_lost :
    ∃ p q r, Program.read 0 "-x" = .ok p ∧ Program.read 0 "y\nz" = .ok q ∧
      Program.read 0 ("-x" ++ "\n" ++ "y\nz") = .ok r ∧
      p = ⟨[], [.grammar .nestingTooDeep ⟨.identifier, "x", 1, 2⟩]⟩ ∧
      q.decls.map Decl.bare = [.evaluated (.of (.name ⟨.identifier, "y", 0, 0⟩)),
        .evaluated (.of (.name ⟨.identifier, "z", 0, 0⟩))] ∧
      r.decls.map Decl.bare = [.evaluated (.of (.name ⟨.identifier, "z", 0, 0⟩))] := by
  refine ⟨⟨[], [.grammar .nestingTooDeep ⟨.identifier, "x", 1, 2⟩]⟩,
    ⟨[.evaluated (.of (.name ⟨.identifier, "y", 1, 1⟩)),
      .evaluated (.of (.name ⟨.identifier, "z", 2, 1⟩))], []⟩,
    ⟨[.evaluated (.of (.name ⟨.identifier, "z", 3, 1⟩))],
      [.grammar .nestingTooDeep ⟨.identifier, "x", 1, 2⟩]⟩, ?_, ?_, ?_, rfl, rfl, rfl⟩
  · cbv
  · cbv
  · cbv

end ArrowLang
