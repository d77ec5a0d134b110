import ArrowLang.Proofs.Results

/-!
# What diagnostics are about

Every diagnostic that is reported is a lexical error that was cut somewhere in the text, a fault of
the grammar that is blamed on a token that was, or nesting too deep at such a token, even if the
reading is ended before the end of the text.
-/
namespace ArrowLang

namespace Window

open Reading (declaration expression)

variable {lost : Outcome → Prop} {text : String} {stack : Stack} {depth : Nat} {w : Window}

theorem Into.report (h : w.Into lost text) {d : Diagnostic} (hd : d.About lost text) :
    (w.report d).Into lost text where
  behind := h.behind
  rest := h.rest
  current := h.current
  told d' hd' := by
    rcases mem_report.mp hd' with hd' | rfl
    · exact h.told d' hd'
    · exact hd

/-- A turn blames tokens of the text. -/
theorem Into.turn (hw : w.Into lost text)
    (hl : ∀ o, Loss ((declaration (expression depth)).on stack w).1 o → lost o) :
    (w.turn stack depth).2.Into lost text := by
  have hv := ((moves_declaration.leads stack w).strays.mono hl).into hw
  have hfound := Reading.finds_declaration (fun _ => TokenOf.lexed) depth hw.within
  unfold Window.turn
  split <;> rename_i h <;> rw [h] at hv
  · exact (reaches_skipNewlines _).strays.into hv
  · rw [declaration_on_none h (by simp)] at hfound
    cases hfound with
    | error _ hf =>
      have hreport := hv.report (.token hf.1 (.inl hf.2))
      exact ((reaches_advance _).trans (reaches_skipNewlines _)).strays.into hreport
  · have hreport := hv.report (.token hv.current (.inr rfl))
    exact ((reaches_skipLine _).trans (reaches_skipNewlines _)).strays.into hreport
  · exact hv

theorem Into.forms (hw : w.Into lost text) (hl : ∀ o, w.Loses stack depth o → lost o) :
    (w.forms stack depth).2.Into lost text := by
  induction w using forms_induction stack depth with
  | last w hc => rwa [forms_of_end hc]
  | turn w hc ih =>
    have hturn := hw.turn fun o ho => hl o ⟨[], w, .here w, hc, ho⟩
    rw [forms_of_turn hc]
    rcases h : w.turn stack depth with ⟨_ | d, v⟩ <;> rw [h] at hturn ih
    · exact hturn
    · exact ih hturn fun o ho => hl o (ho.of_turn hc h)

/-- Every diagnostic that a reading reports is about what is cut in the text. -/
theorem about_program {d : Diagnostic} {n : Nat}
    (h : d ∈ ((ofText text).program n).2.diagnostics.toList) :
    d.About (Program.Loses n text) text := by
  rw [program_ofText] at h
  exact ((into_start (Program.Loses n text) text).forms fun _ => id).told d h

end Window
end ArrowLang
