import ArrowLang.Proofs.Complete
import ArrowLang.Proofs.Sound
import Mathlib

/-!
# The grammar is what is accepted

A text is read without a diagnostic if and only if it is cut without an error into tokens that are a
program.
-/
namespace ArrowLang
namespace Window

/-- Where nothing is reported up to the end, no error was left. -/
theorem errors_of_forms {depth : Nat} {w : Window} {ds : List Decl}
    (h : (w.forms none depth).1 = .ok ds)
    (hd : (w.forms none depth).2.diagnostics.toList = []) : w.errors = [] := by
  have hlost : ∀ e, ¬ w.Loses none depth (.error e) := fun e he =>
    he.elim fun _ ⟨v, _, _, hl⟩ => moves_declaration.lossless v _ hl
  rw [← errors_forms hlost, errors, hd, rest_of_end (forms_ends h)]
  rfl

theorem Silent.outcomes_eq {l : List Outcome} (h : ∀ o ∈ l, ∃ t, o = .ok t) :
    l = (l.filterMap Except.toOption).map .ok := by
  induction l with
  | nil => rfl
  | cons o l ih =>
    obtain ⟨t, rfl⟩ := h o (by simp)
    simpa [Except.toOption] using ih fun o ho => h o (by simp [ho])

theorem tokens_of_outcomes {text : String} {ts : List Token}
    (h : (Cursor.ofText text).outcomes = ts.map .ok) : tokens text = ts := by
  rw [tokens, h, List.filterMap_map]
  exact List.filterMap_some

/-- Where reading begins in a text that is cut without an error. -/
theorem start_of_outcomes {text : String} {ts : List Token}
    (h : (Cursor.ofText text).outcomes = ts.map .ok) :
    (start text).Silent ∧ (start text).diagnostics = #[] ∧ (start text).ahead = dropNewlines ts := by
  have hs : (ofText text).Silent := by
    intro o ho
    rw [rest_ofText, h] at ho
    obtain ⟨t, -, rfl⟩ := List.mem_map.mp ho
    exact ⟨t, rfl⟩
  obtain ⟨hs, hd⟩ := hs.reaches (reaches_start text)
  refine ⟨hs, hd, ?_⟩
  rw [start, ahead_skipNewlines, ahead_first, tokens_of_outcomes h]

end Window

open Window

/-- A text without a diagnostic is cut into tokens that are a program, and whose numbers have values. -/
theorem derives_of_read {stack : Nat} {text : String} {p : Program} (h : Program.read stack text = .ok p)
    (hd : p.diagnostics = []) :
    ∃ ts, (Cursor.ofText text).outcomes = ts.map .ok ∧ Derives .program ts ∧
      ∀ t ∈ ts, t.Converts := by
  obtain ⟨hds, hdg⟩ := Program.read_free h (by simp [hd])
  rw [hdg] at hd
  have hs : (ofText text).Silent := by
    rw [silent_iff]
    simpa [errors, ofText] using (reaches_start text).errors.symm.trans (errors_of_forms hds hd)
  refine ⟨tokens text, Silent.outcomes_eq (rest_ofText text ▸ hs), ?_⟩
  obtain ⟨ns, hn, hpn⟩ := passes_newlines (ofText text).advance
  have ha : tokens text = ns ++ (start text).ahead := (ahead_first text).symm.trans hpn.ahead
  rw [ha]
  by_cases hc : (start text).current.kind = .endOfText
  · rw [ahead_of_end hc]
    refine ⟨.empty hn hc, List.forall_mem_append.mpr
      ⟨hpn.converts, List.forall_mem_singleton.mpr fun hk => ?_⟩⟩
    rw [hc] at hk
    cases hk
  · obtain ⟨ts, us, ms, e, hts, hf, hfs, hm, he, hnum⟩ := forms_sound hc hds hd
    refine ⟨?_, List.forall_mem_append.mpr ⟨hpn.converts, hnum⟩⟩
    rw [hts]
    simpa using Derives.program hn hf hfs hm he

theorem numerals_tokens (text : String) : Numerals (tokens text) := by
  intro t ht
  obtain ⟨o, ho, h⟩ := List.mem_filterMap.mp ht
  cases o with
  | error e => cases h
  | ok u =>
    obtain rfl : u = t := Option.some.inj h
    exact (lexed_of_mem ho).number

/-- A program that is read, without nesting too deep, is read without a diagnostic. -/
theorem read_of_derives {stack : Nat} {text : String} {p : Program}
    (h : Program.read stack text = .ok p)
    (deep : ∀ t, .grammar .nestingTooDeep t ∉ p.diagnostics) {ts : List Token}
    (hts : (Cursor.ofText text).outcomes = ts.map .ok) (hd : Derives .program ts) :
    p.diagnostics = [] := by
  obtain ⟨hds, hdg⟩ := Program.read_free h deep
  obtain ⟨hs, hdv, ha⟩ := start_of_outcomes hts
  have hn : Numerals ts := tokens_of_outcomes hts ▸ numerals_tokens text
  cases hd with
  | @empty ns e hns he =>
    rw [dropNewlines_append hns, dropNewlines_cons (by rw [he]; decide)] at ha
    have hc : (start text).current.kind = .endOfText := by rw [current_of_ahead ha, he]
    rw [hdg, forms_of_end hc, hdv]
  | @program ns fs us ms e hns hf hfs hms he =>
    simp only [numerals_append] at hn
    obtain ⟨Q, hQ⟩ := hf.yields hn.1.1.1.2
    obtain ⟨Qs, hQs⟩ := hfs.yields hn.1.1.2
    have ha : (start text).ahead = fs ++ (us ++ (ms ++ [e])) := by
      simp only [ha, List.append_assoc]
      rw [dropNewlines_append hns, hQ.begins.dropNewlines_append]
    rcases forms_give (fun _ => id) hQs hQ hms he hs ha with ⟨ds, -, -, hdf⟩ | ⟨cause, hc, -⟩ | ⟨t, ht⟩
    · rw [hdg, hdf, hdv]
    · rw [hds] at hc
      cases hc
    · exact absurd (hdg ▸ ht) (deep t)

/-- A text that is read, without nesting too deep, leaves no diagnostic if and only if it is cut
without an error into tokens that the grammar derives. -/
theorem Program.diagnostics_eq_nil_iff {stack : Nat} {text : String} {p : Program}
    (h : Program.read stack text = .ok p) (deep : ∀ t, .grammar .nestingTooDeep t ∉ p.diagnostics) :
    p.diagnostics = [] ↔
      ∃ ts, (Cursor.ofText text).outcomes = ts.map .ok ∧ Derives .program ts :=
  ⟨fun hd => (derives_of_read h hd).imp fun _ hts => ⟨hts.1, hts.2.1⟩,
    fun ⟨_, hts, hd⟩ => read_of_derives h deep hts hd⟩

/-- A typed constant with a list over two lines is a program, a number in front of `=` is none. -/
theorem Program.diagnostics_eq_nil_iff_list :
    (∃ ts, (Cursor.ofText "x : T = [-1,\n2]\n").outcomes = ts.map .ok ∧ Derives .program ts) ∧
      ¬ ∃ ts, (Cursor.ofText "1 = 2").outcomes = ts.map .ok ∧ Derives .program ts := by
  have h' : Program.read 20 "1 = 2" = .ok ⟨[.evaluated (.of (.literal (.int 2)))],
      [.grammar (.expectedToken .identifier "Expected constant name before '='.")
        ⟨.equal, "=", 1, 3⟩]⟩ := by cbv
  have h : Program.read 20 "x : T = [-1,\n2]\n" = .ok ⟨[.constant ⟨.identifier, "x", 1, 1⟩
      (some ⟨.identifier, "T", 1, 5⟩) (.of (.list [.of (.unary ⟨.minus, "-", 1, 10⟩
        (.of (.literal (.int 1)))), .of (.literal (.int 2))]))], []⟩ := by cbv
  refine ⟨(Program.diagnostics_eq_nil_iff h (by simp)).mp rfl, fun hd => ?_⟩
  exact absurd ((Program.diagnostics_eq_nil_iff h' (by simp)).mpr hd) (by simp)

end ArrowLang
