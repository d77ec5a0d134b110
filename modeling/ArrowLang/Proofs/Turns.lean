import ArrowLang.Proofs.Room

/-!
# The turns of a reading

Reading a text goes turn by turn: each turn reads one declaration, or reports why there is none and
moves to where reading goes on. Every turn leaves less of the text, so the number of turns needs no
bound. A turn differs from one that has more room only where it reports nesting.
-/
namespace ArrowLang

theorem ok_of_map {α β : Type} {f : α → β} {x : Except Abort α} {y : β} (h : x.map f = .ok y) :
    ∃ z, x = .ok z ∧ f z = y := by
  cases x with
  | error e => simp [Except.map] at h
  | ok z => exact ⟨z, rfl, by simpa [Except.map] using h⟩

@[simp] theorem map_nil_append (x : Except Abort (List Decl)) : x.map ([] ++ ·) = x := by
  cases x <;> rfl

theorem map_append (x : Except Abort (List Decl)) (es es' : List Decl) :
    (x.map (es ++ ·)).map (es' ++ ·) = x.map (es' ++ es ++ ·) := by
  cases x <;> simp [Except.map]

namespace Window

open Reading (declaration expression)

@[simp] theorem report_current (w : Window) (d : Diagnostic) : (w.report d).current = w.current := rfl
@[simp] theorem report_rest (w : Window) (d : Diagnostic) : (w.report d).rest = w.rest := rfl
@[simp] theorem report_remaining (w : Window) (d : Diagnostic) :
    (w.report d).remaining = w.remaining := rfl

/-- One turn: the declaration, if there is one, and the window behind it. -/
def turn (stack : Stack) (depth : Nat) (w : Window) : Except Abort (Option Decl) × Window :=
  match (declaration (expression depth)).on stack w with
  | (.ok d, v) => (.ok (some d), v.skipNewlines)
  | (.error (.fault f t), v) => (.ok none, (v.report (.grammar f t)).advance.skipNewlines)
  | (.error (.tooDeep _), v) =>
    (.ok none, (v.report (.grammar .nestingTooDeep v.current)).skipLine.skipNewlines)
  | (.error (.abort cause), v) => (.error cause, v)

/-- All turns up to the end of the text. -/
def forms (stack : Stack) (depth : Nat) (w : Window) : Except Abort (List Decl) × Window :=
  w.declarations stack depth (w.remaining + 1)

variable {stack : Stack} {depth : Nat} {v w : Window}

/-- An expression moves over its first token before anything else. -/
theorem reaches_advance_expression {p : Precedence} {r : Except Failure Expr}
    (h : (expression depth p).on none w = (r, v)) : w.advance.Reaches v ∨ depth = 0 ∧ v = w := by
  cases depth with
  | zero => exact .inr ⟨rfl, (Prod.mk.inj h).2.symm⟩
  | succ depth =>
    refine .inl ?_
    rw [Reading.on_expression] at h
    cases hf : (Binding.of w.current.kind).operand with
    | none =>
      rw [hf] at h
      exact (Prod.mk.inj h).2 ▸ .refl _
    | some form =>
      rw [hf] at h
      exact (Reading.moves.operation (Reading.moves_expression depth) form p).reaches h

theorem within_declaration {depth' : Nat} (hd : depth ≤ depth') :
    Reading.Within (3 * depth + 10) (declaration (expression depth))
      (declaration (expression depth')) :=
  .declaration (fun p => .expression hd p) (Nat.le_add_left _ _)

theorem moves_declaration : Reading.Moves (declaration (expression depth)) :=
  Reading.moves.declaration (Reading.moves_expression depth)

/-- What does not nest too deep does not depend on the stack. -/
theorem declaration_on_none {r : Except Failure Decl}
    (h : (declaration (expression depth)).on stack w = (r, v)) (hr : ∀ lost, r ≠ .error (.tooDeep lost)) :
    (declaration (expression depth)).on none w = (r, v) := by
  rcases within_declaration (Nat.le_refl depth) stack none (Stack.covers_none _ _) w with
    ha | ⟨lost, ha⟩
  · rw [ha, h]
  · rw [h] at ha
    exact absurd ha (hr lost)

theorem reaches_advance_declaration {r : Except Failure Decl}
    (h : (declaration (expression depth)).on stack w = (r, v)) (hr : ∀ lost, r ≠ .error (.tooDeep lost)) :
    w.advance.Reaches v := by
  have hn := declaration_on_none h hr
  rw [declaration, Reading.on_call_none, Reading.on_bind] at hn
  rcases he : (expression depth .or).on none w with ⟨e | x, u⟩ <;> rw [he] at hn <;>
    rcases reaches_advance_expression he with hu | ⟨rfl, rfl⟩
  · exact (Prod.mk.inj hn).2 ▸ hu
  · cases he
    exact absurd (Prod.mk.inj hn).1.symm (hr none)
  · exact hu.trans ((Reading.moves.declared (Reading.moves_expression depth) x).reaches hn)
  · cases he

/-- A line that is skipped takes the rest of the text along, or a newline at least. -/
theorem remaining_skipLine (hc : w.current.kind ≠ .endOfText) :
    w.skipLine.skipNewlines.remaining < w.remaining := by
  have hlt := remaining_advance hc
  by_cases hn : w.current.kind = .newline
  · rw [skipLine_of_stop (.inl hn), skipNewlines_of_newline hn]
    exact Nat.lt_of_le_of_lt (reaches_skipNewlines _).remaining_le hlt
  · rw [skipLine_of_ne hn hc]
    exact Nat.lt_of_le_of_lt
      ((reaches_skipLine _).trans (reaches_skipNewlines _)).remaining_le hlt

theorem remaining_turn (hc : w.current.kind ≠ .endOfText) :
    (w.turn stack depth).2.remaining < w.remaining := by
  have hlt := remaining_advance hc
  unfold turn
  split <;> rename_i h
  · have hv := (reaches_advance_declaration h (by simp)).trans (reaches_skipNewlines _)
    exact Nat.lt_of_le_of_lt hv.remaining_le hlt
  · next f t v =>
    have hv := (reaches_advance_declaration h (by simp)).remaining_le
    have hr := ((reaches_advance (v.report (.grammar f t))).trans
      (reaches_skipNewlines _)).remaining_le
    exact Nat.lt_of_le_of_lt (Nat.le_trans hr hv) hlt
  · next lost v =>
    have hv := (moves_declaration.strays h).remaining_le
    by_cases he : v.current.kind = .endOfText
    · have hr := ((reaches_skipLine (v.report (.grammar .nestingTooDeep v.current))).trans
        (reaches_skipNewlines _)).remaining_le
      rw [report_remaining, show v.remaining = 0 from if_pos he] at hr
      exact Nat.lt_of_le_of_lt hr (Nat.lt_of_le_of_lt (Nat.zero_le _) hlt)
    · exact Nat.lt_of_lt_of_le
        (remaining_skipLine (w := v.report (.grammar .nestingTooDeep v.current)) he) hv
  · exact Nat.lt_of_le_of_lt (reaches_advance_declaration h (by simp)).remaining_le hlt

theorem declarations_succ (n : Nat) (w : Window) :
    w.declarations stack depth (n + 1) =
      if w.current.kind = .endOfText then (.ok [], w)
      else match w.turn stack depth with
        | (.ok d, v) => ((v.declarations stack depth n).1.map (d.toList ++ ·),
            (v.declarations stack depth n).2)
        | (.error cause, v) => (.error cause, v) := by
  rw [declarations]
  split
  · rfl
  · unfold turn Reading.on
    rcases ((declaration (expression depth)).run stack).run w with ⟨(⟨f, t⟩ | _ | cause) | d, v⟩
    · simp only [Option.toList_none, map_nil_append]
    · simp only [Option.toList_none, map_nil_append]
    · rfl
    · rfl

/-- As many turns as there is text left reach its end; more change nothing. -/
theorem declarations_eq_forms {n : Nat} (hn : w.remaining < n) :
    w.declarations stack depth n = w.forms stack depth := by
  suffices h : ∀ m n : Nat, ∀ w : Window, w.remaining < m → w.remaining < n →
      w.declarations stack depth m = w.declarations stack depth n from
    h n _ w hn (Nat.lt_succ_self _)
  intro m
  induction m with
  | zero => intro n w hm; omega
  | succ m ih =>
    intro n w hm hn
    obtain ⟨n, rfl⟩ : ∃ k, n = k + 1 := ⟨n - 1, by omega⟩
    rw [declarations_succ, declarations_succ]
    split
    · rfl
    · next hc =>
      have hl : (w.turn stack depth).2.remaining < w.remaining := remaining_turn hc
      rcases ht : w.turn stack depth with ⟨_ | d, v⟩
      · rfl
      · rw [ht] at hl
        simp only [ih n v (by simp only at hl; omega) (by simp only at hl; omega)]

theorem forms_of_end (hc : w.current.kind = .endOfText) : w.forms stack depth = (.ok [], w) := by
  rw [forms, declarations_succ, if_pos hc]

/-- The turns are one turn and those after it. -/
theorem forms_of_turn (hc : w.current.kind ≠ .endOfText) :
    w.forms stack depth = match w.turn stack depth with
      | (.ok d, v) => ((v.forms stack depth).1.map (d.toList ++ ·), (v.forms stack depth).2)
      | (.error cause, v) => (.error cause, v) := by
  rw [forms, declarations_succ, if_neg hc]
  have hl : (w.turn stack depth).2.remaining < w.remaining := remaining_turn hc
  rcases ht : w.turn stack depth with ⟨_ | d, v⟩
  · rfl
  · rw [ht] at hl
    simp only [declarations_eq_forms hl]

/-- What holds at the end of the text, and before a turn if after it, holds of every window. -/
theorem forms_induction (stack : Stack) (depth : Nat) {motive : Window → Prop}
    (last : ∀ w : Window, w.current.kind = .endOfText → motive w)
    (turn : ∀ w : Window, w.current.kind ≠ .endOfText → motive (w.turn stack depth).2 → motive w)
    (w : Window) : motive w := by
  generalize hn : w.remaining = n
  induction n using Nat.strongRecOn generalizing w with
  | _ n ih =>
    by_cases hc : w.current.kind = .endOfText
    · exact last w hc
    · exact turn w hc (ih _ (hn ▸ remaining_turn hc) _ rfl)

theorem mem_report {d d' : Diagnostic} :
    d ∈ (w.report d').diagnostics.toList ↔ d ∈ w.diagnostics.toList ∨ d = d' := by
  simp [report]

theorem diagnostics_report (w : Window) (d : Diagnostic) :
    w.diagnostics.toList <+: (w.report d).diagnostics.toList := by
  simp [report]

/-- What is kept where the declaration strays, and by a report, is kept by a turn. -/
theorem turn_preserves {P : Window → Prop}
    (strays : ∀ {u v : Window}, u.Strays (Loss ((declaration (expression depth)).on stack w).1) v →
      P u → P v)
    (report : ∀ {v : Window} {g : GrammarFault} {t : Token}, P v → P (v.report (.grammar g t)))
    (hw : P w) : P (w.turn stack depth).2 := by
  have hd := strays (moves_declaration.leads stack w).strays hw
  unfold turn
  split <;> rename_i h <;> rw [h] at hd
  · exact strays (reaches_skipNewlines _).strays hd
  · exact strays ((reaches_advance _).trans (reaches_skipNewlines _)).strays (report hd)
  · exact strays ((reaches_skipLine _).trans (reaches_skipNewlines _)).strays (report hd)
  · exact hd

theorem diagnostics_turn (stack : Stack) (depth : Nat) (w : Window) :
    w.diagnostics.toList <+: (w.turn stack depth).2.diagnostics.toList :=
  turn_preserves (P := fun v => w.diagnostics.toList <+: v.diagnostics.toList)
    (fun h hv => hv.trans h.diagnostics) (fun hv => hv.trans (diagnostics_report _ _)) List.prefix_rfl

/-- As long as no error of a string gets lost, the cuts that a turn leaves are the last ones. -/
theorem rest_turn (hl : ∀ o, Loss ((declaration (expression depth)).on stack w).1 o →
    o.inString = false) : (w.turn stack depth).2.rest <:+ w.rest :=
  turn_preserves (P := fun v => v.rest <:+ w.rest) (fun h hv => (h.rest_suffix hl).trans hv) id
    List.suffix_rfl

theorem diagnostics_forms (stack : Stack) (depth : Nat) (w : Window) :
    w.diagnostics.toList <+: (w.forms stack depth).2.diagnostics.toList := by
  induction w using forms_induction stack depth with
  | last w hc => simp [forms_of_end hc]
  | turn w hc ih =>
    rw [forms_of_turn hc]
    have ht := diagnostics_turn stack depth w
    rcases h : w.turn stack depth with ⟨_ | d, v⟩ <;> rw [h] at ih ht
    · exact ht
    · exact ht.trans ih

/-- A turn is the same wherever there is room for it, or it reports nesting. -/
theorem turn_covers {stack' : Stack} {depth' : Nat} (hd : depth ≤ depth')
    (hs : Stack.Covers (3 * depth + 10) stack stack') (w : Window) :
    w.turn stack' depth' = w.turn stack depth ∨
      ∃ t, .grammar .nestingTooDeep t ∈ (w.turn stack depth).2.diagnostics.toList := by
  rcases within_declaration hd stack stack' hs w with h | ⟨lost, h⟩
  · exact .inl (by rw [turn, turn, h])
  · rcases hr : (declaration (expression depth)).on stack w with ⟨r, v⟩
    rw [hr] at h
    refine .inr ⟨v.current, ?_⟩
    rw [turn, hr, show r = .error (.tooDeep lost) from h]
    exact ((reaches_skipLine _).trans (reaches_skipNewlines _)).diagnostics.mem
      (mem_report.mpr (.inr rfl))

/-- Where no nesting is reported, more room makes no difference. -/
theorem forms_covers {stack' : Stack} {depth' : Nat} (hd : depth ≤ depth')
    (hs : Stack.Covers (3 * depth + 10) stack stack')
    (h : ∀ t, .grammar .nestingTooDeep t ∉ (w.forms stack depth).2.diagnostics.toList) :
    w.forms stack' depth' = w.forms stack depth := by
  induction w using forms_induction stack depth with
  | last w hc => rw [forms_of_end hc, forms_of_end hc]
  | turn w hc ih =>
    rw [forms_of_turn hc] at h
    rw [forms_of_turn hc, forms_of_turn hc]
    rcases turn_covers hd hs w with ht | ⟨t, ht⟩
    · rw [ht]
      rcases hv : w.turn stack depth with ⟨cause | d, v⟩
      · rfl
      · rw [hv] at ih h
        simp only [ih h]
    · rcases hv : w.turn stack depth with ⟨_ | d, v⟩ <;> rw [hv] at ht h
      · exact absurd ht (h t)
      · exact absurd ((diagnostics_forms stack depth v).mem ht) (h t)

theorem forms_eq_none (h : ∀ t, .grammar .nestingTooDeep t ∉ (w.forms stack depth).2.diagnostics.toList) :
    w.forms stack depth = w.forms none depth :=
  (forms_covers (Nat.le_refl depth) (Stack.covers_none _ _) h).symm

/-- The turns of a reading, each at the window that the one before it leaves, and the declarations
that are read up to there. -/
inductive Visits (stack : Stack) (depth : Nat) : Window → List Decl → Window → Prop where
  | here (w : Window) : Visits stack depth w [] w
  | behind {u v w : Window} {d : Option Decl} {ds : List Decl} : w.current.kind ≠ .endOfText →
      w.turn stack depth = (.ok d, u) → Visits stack depth u ds v →
        Visits stack depth w (d.toList ++ ds) v

/-- The turns behind a window are those of the whole reading. -/
theorem Visits.forms_eq {ds : List Decl} (h : w.Visits stack depth ds v) :
    w.forms stack depth = ((v.forms stack depth).1.map (ds ++ ·), (v.forms stack depth).2) := by
  induction h with
  | here w => rw [map_nil_append]
  | behind hc ht _ ih =>
    rw [forms_of_turn hc, ht]
    simp only [ih, map_append]

/-- A turn of a reading ends where the stack has no room for what the scan has passed. -/
def Loses (stack : Stack) (depth : Nat) (w : Window) (o : Outcome) : Prop :=
  ∃ ds v, w.Visits stack depth ds v ∧ v.current.kind ≠ .endOfText ∧
    Loss ((declaration (expression depth)).on stack v).1 o

theorem Loses.of_turn {d : Option Decl} {o : Outcome} (hc : w.current.kind ≠ .endOfText)
    (ht : w.turn stack depth = (.ok d, v)) (h : v.Loses stack depth o) : w.Loses stack depth o := by
  obtain ⟨ds, u, hu, hl⟩ := h
  exact ⟨_, u, .behind hc ht hu, hl⟩

/-- Where something is lost, nesting too deep is reported. -/
theorem Loses.reported {o : Outcome} (h : w.Loses stack depth o) :
    ∃ t, .grammar .nestingTooDeep t ∈ (w.forms stack depth).2.diagnostics.toList := by
  obtain ⟨ds, v, hv, hc, hl⟩ := h
  induction hv with
  | here w =>
    rcases hd : (declaration (expression depth)).on stack w with ⟨r, u⟩
    rw [hd] at hl
    have ht : w.turn stack depth =
        (.ok none, (u.report (.grammar .nestingTooDeep u.current)).skipLine.skipNewlines) := by
      rw [turn, hd, show r = .error (.tooDeep (some o)) from hl]
    refine ⟨u.current, ?_⟩
    rw [forms_of_turn hc, ht]
    refine (diagnostics_forms stack depth _).mem ?_
    exact ((reaches_skipLine _).trans (reaches_skipNewlines _)).diagnostics.mem
      (mem_report.mpr (.inr rfl))
  | behind hw ht _ ih =>
    rw [forms_of_turn hw, ht]
    exact ih hc hl

/-- Where no error of a string is left, what gets lost is among what is left. -/
theorem Loses.mem {o : Outcome} (h : w.Loses stack depth o)
    (hw : ∀ o ∈ w.rest, o.inString = false) : o ∈ w.rest := by
  obtain ⟨ds, v, hv, hc, hl⟩ := h
  induction hv with
  | here w => exact (moves_declaration.leads stack w).mem o hl
  | @behind u v w d ds _ ht _ ih =>
    have hr : (w.turn stack depth).2.rest <:+ w.rest := rest_turn
      fun o ho => hw o ((moves_declaration.leads stack w).mem o ho)
    rw [ht] at hr
    exact hr.mem (ih (fun o ho => hw o (hr.mem ho)) hc hl)

end Window

def Diagnostic.isLexical : Diagnostic → Bool
  | .lexical .. => true
  | _ => false

theorem Diagnostic.filter_lexical (es : List LexicalError) :
    (es.map Diagnostic.ofLexical).filter Diagnostic.isLexical = es.map Diagnostic.ofLexical :=
  List.filter_eq_self.mpr (by simp [Diagnostic.ofLexical, Diagnostic.isLexical])

namespace Window

open Reading (declaration expression)

variable {stack : Stack} {depth : Nat} {v w : Window}

/-- The lexical errors that were reported, and those that are left to report. -/
def errors (w : Window) : List Diagnostic :=
  w.diagnostics.toList.filter Diagnostic.isLexical ++
    (w.rest.filterMap Outcome.error?).map Diagnostic.ofLexical

theorem Strays.errors {lost : Outcome → Prop} (h : w.Strays lost v)
    (hl : ∀ e, ¬ lost (.error e)) : v.errors = w.errors := by
  obtain ⟨es, hds, hes⟩ := h.reports
  simp [Window.errors, hds, hes hl, Diagnostic.filter_lexical]

theorem Reaches.errors (h : w.Reaches v) : v.errors = w.errors :=
  h.safely.errors fun _ => id

theorem errors_report (w : Window) (g : GrammarFault) (t : Token) :
    (w.report (.grammar g t)).errors = w.errors := by
  rw [errors, report_rest]
  simp [errors, report, Diagnostic.isLexical]

/-- No lexical error is left out or reported twice by a turn that loses none, whatever faults it
meets. -/
theorem errors_turn
    (h : ∀ e, ¬ Loss ((declaration (expression depth)).on stack w).1 (.error e)) :
    (w.turn stack depth).2.errors = w.errors :=
  turn_preserves (P := fun v => v.errors = w.errors) (fun hs hv => (hs.errors h).trans hv)
    (fun hv => (errors_report _ _ _).trans hv) rfl

theorem errors_forms (h : ∀ e, ¬ w.Loses stack depth (.error e)) :
    (w.forms stack depth).2.errors = w.errors := by
  induction w using forms_induction stack depth with
  | last w hc => rw [forms_of_end hc]
  | turn w hc ih =>
    rw [forms_of_turn hc]
    have ht : (w.turn stack depth).2.errors = w.errors := errors_turn
      fun e he => h e ⟨[], w, .here w, hc, he⟩
    rcases hv : w.turn stack depth with ⟨_ | d, v⟩ <;> rw [hv] at ih ht
    · exact ht
    · exact (ih fun e he => h e (he.of_turn hc hv)).trans ht

/-- Reading goes on up to the end of the text. -/
theorem forms_ends {ds : List Decl} (h : (w.forms stack depth).1 = .ok ds) :
    (w.forms stack depth).2.current.kind = .endOfText := by
  induction w using forms_induction stack depth generalizing ds with
  | last w hc => rwa [forms_of_end hc]
  | turn w hc ih =>
    rw [forms_of_turn hc] at h ⊢
    rcases ht : w.turn stack depth with ⟨_ | d, v⟩ <;> rw [ht] at ih h
    · cases h
    · obtain ⟨ds, hds, -⟩ := ok_of_map h
      exact ih hds

/-- The window at which the turns through a text begin. -/
def start (text : String) : Window := (ofText text).advance.skipNewlines

theorem reaches_start (text : String) : (ofText text).Reaches (start text) :=
  (reaches_advance _).trans (reaches_skipNewlines _)

/-- The tokens ahead of the first move. -/
def tokens (text : String) : List Token :=
  (Cursor.ofText text).outcomes.filterMap Except.toOption

theorem rest_ofText (text : String) : (ofText text).rest = (Cursor.ofText text).outcomes :=
  rest_of_ne (w := ofText text) (show TokenKind.absent ≠ .endOfText by decide)

theorem ahead_first (text : String) : (ofText text).advance.ahead = tokens text := by
  have h := ahead_eq (w := ofText text) (show TokenKind.absent ≠ .endOfText by decide)
  rw [ahead, rest_ofText] at h
  exact (List.cons.inj h).2.symm

/-- The turns through a text on a stack with so many frames besides its own. -/
def read (stack : Nat) (text : String) : Except Abort (List Decl) × Window :=
  (start text).forms (some (ownFrames + stack)) (ownFrames + stack)

theorem program_ofText (stack : Nat) (text : String) : (ofText text).program stack = read stack text :=
  declarations_eq_forms (Nat.lt_succ_self _)

end Window

namespace Program

variable {stack : Nat} {text : String} {p : Program}

/-- The reading of a text loses what it says, since the stack runs out. -/
def Loses (stack : Nat) (text : String) (o : Outcome) : Prop :=
  (Window.start text).Loses (some (Window.ownFrames + stack)) (Window.ownFrames + stack) o

theorem read_eq (stack : Nat) (text : String) :
    Program.read stack text = (Window.read stack text).1.map
      fun ds => ⟨ds, (Window.read stack text).2.diagnostics.toList⟩ := by
  rw [Program.read, Window.program_ofText]

theorem read_eq_ok (h : Program.read stack text = .ok p) :
    (Window.read stack text).1 = .ok p.decls ∧
      p.diagnostics = (Window.read stack text).2.diagnostics.toList := by
  rw [read_eq] at h
  obtain ⟨ds, hds, rfl⟩ := ok_of_map h
  exact ⟨hds, rfl⟩

/-- What does not nest too deep is read as it is where the stack never runs out. -/
theorem read_free (h : Program.read stack text = .ok p)
    (hp : ∀ t, .grammar .nestingTooDeep t ∉ p.diagnostics) :
    ((Window.start text).forms none (Window.ownFrames + stack)).1 = .ok p.decls ∧
      p.diagnostics =
        ((Window.start text).forms none (Window.ownFrames + stack)).2.diagnostics.toList := by
  have hr := read_eq_ok h
  rw [hr.2] at hp
  rwa [← Window.forms_eq_none hp]

/-- What does not nest too deep is read alike with more frames. -/
theorem read_mono {stack' : Nat} (hs : stack ≤ stack') (h : Program.read stack text = .ok p)
    (hp : ∀ t, .grammar .nestingTooDeep t ∉ p.diagnostics) : Program.read stack' text = .ok p := by
  have hle := Nat.add_le_add_left hs Window.ownFrames
  rw [(read_eq_ok h).2] at hp
  rw [← h, read_eq, read_eq, Window.read, Window.forms_covers hle (Stack.covers_of_le hle _) hp]
  rfl

/-- Nothing is lost where no nesting too deep is reported. -/
theorem not_loses (h : Program.read stack text = .ok p)
    (hp : ∀ t, .grammar .nestingTooDeep t ∉ p.diagnostics) (o : Outcome) : ¬ Loses stack text o := by
  intro hl
  obtain ⟨t, ht⟩ := Window.Loses.reported hl
  refine hp t ?_
  rw [(read_eq_ok h).2]
  exact ht

end Program
end ArrowLang
