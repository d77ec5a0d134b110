import ArrowLang.Proofs.Echo

/-!
# Paint leaves no trace

A diagnostic is painted by control sequences around its parts. None of them completes, begins or
breaks a control sequence of the text around it, whatever that text is, so without control sequences
the painted excerpt is the unpainted one.
-/
namespace ArrowLang
namespace Text

/-- What is left of a text when its control sequences are taken out from the left to the right. -/
inductive Cleared : List Char → List Char → Prop where
  | nil : Cleared [] []
  | control {seq rest left : List Char} : IsControl seq → Cleared rest left →
      Cleared (seq ++ rest) left
  | keep {c : Char} {rest left : List Char} : (∀ seq tail, IsControl seq → c :: rest ≠ seq ++ tail) →
      Cleared rest left → Cleared (c :: rest) (c :: left)

theorem plainChars_control_append {seq : List Char} (h : IsControl seq) (rest : List Char) :
    plainChars (seq ++ rest) = plainChars rest := by
  obtain ⟨hps, his, hf⟩ := h
  exact plainChars_control (afterControl_eq_some.mpr ⟨_, .mk hps his hf, rfl⟩)

/-- A character that begins no control sequence stays. -/
theorem plainChars_keep {c : Char} {rest : List Char}
    (h : ∀ seq tail, IsControl seq → c :: rest ≠ seq ++ tail) :
    plainChars (c :: rest) = c :: plainChars rest := by
  by_cases hbegin : ∃ text, c = '\x1b' ∧ rest = '[' :: text
  · obtain ⟨text, rfl, rfl⟩ := hbegin
    cases hc : afterControl text with
    | none => exact plainChars_unfinished hc
    | some tail =>
      obtain ⟨seq, hseq, rfl⟩ := afterControl_eq_some.mp hc
      exact absurd rfl (h _ _ hseq)
  · rw [plainChars]
    exact fun text hc hrest => hbegin ⟨text, hc, hrest⟩

theorem cleared_plainChars (text : List Char) : Cleared text (plainChars text) := by
  induction hn : text.length using Nat.strong_induction_on generalizing text with
  | _ n ih =>
    cases text with
    | nil =>
      rw [plainChars]
      exact .nil
    | cons c rest =>
      by_cases h : ∃ seq tail, IsControl seq ∧ c :: rest = seq ++ tail
      · obtain ⟨seq, tail, hseq, heq⟩ := h
        have hpos : 0 < seq.length := by
          obtain ⟨-, -, -⟩ := hseq
          exact Nat.succ_pos _
        have hlen := congrArg List.length heq
        rw [List.length_append] at hlen
        rw [heq, plainChars_control_append hseq]
        exact .control hseq (ih tail.length (by omega) tail rfl)
      · have hkeep : ∀ seq tail, IsControl seq → c :: rest ≠ seq ++ tail :=
          fun seq tail hseq heq => h ⟨seq, tail, hseq, heq⟩
        rw [plainChars_keep hkeep]
        exact .keep hkeep (ih rest.length (by simp [← hn]) rest rfl)

/-- Only one text is left. -/
theorem cleared_iff {text left : List Char} : Cleared text left ↔ left = plainChars text := by
  constructor
  · intro h
    induction h with
    | nil => simp [plainChars]
    | control hseq _ ih => rw [plainChars_control_append hseq, ih]
    | keep hkeep _ ih => rw [plainChars_keep hkeep, ih]
  · rintro rfl
    exact cleared_plainChars text

theorem plainChars_of_no_escape {text : List Char} (h : '\x1b' ∉ text) (more : List Char) :
    plainChars (text ++ more) = text ++ plainChars more := by
  induction text with
  | nil => rfl
  | cons c text ih =>
    obtain ⟨hc, htext⟩ := not_or.mp (List.mem_cons.not.mp h)
    rw [List.cons_append, plainChars_keep, ih htext, List.cons_append]
    rintro _ tail ⟨-, -, -⟩ heq
    exact hc (List.cons.inj heq).1.symm

theorem IsControl.breaks {seq : List Char} (h : IsControl seq) : Breaks seq := by
  obtain ⟨-, -, -⟩ := h
  exact breaks_escape _

theorem plainChars_append_control {seq : List Char} (h : IsControl seq) (text : List Char) :
    plainChars (text ++ seq) = plainChars text := by
  have hseq : plainChars (seq ++ []) = [] := by
    rw [plainChars_control_append h]
    simp [plainChars]
  rw [List.append_nil] at hseq
  rw [plainChars_append h.breaks, hseq, List.append_nil]

theorem toList_plain (text : String) : (plain text).toList = plainChars text.toList :=
  String.toList_ofList

theorem plain_intercalate (ls : List String) :
    plain ("\n".intercalate ls) = "\n".intercalate (ls.map plain) := by
  apply String.toList_inj.mp
  simp only [toList_plain, String.toList_intercalate, String.reduceToList]
  induction ls with
  | nil => simp [plainChars]
  | cons l ls ih =>
    cases ls with
    | nil => simp [toList_plain]
    | cons l' ls =>
      simp only [List.map_cons, List.intercalate_cons_cons, List.append_assoc,
        List.singleton_append] at ih ⊢
      rw [plainChars_newline, ih, toList_plain l]

theorem plain_paint_append {code : String} (h : IsControl code.toList) (text : String) :
    plain (code ++ text) = plain text := by
  rw [plain, String.toList_append, plainChars_control_append h, plain]

theorem plain_append_paint {code : String} (h : IsControl code.toList) (text : String) :
    plain (text ++ code) = plain text := by
  rw [plain, String.toList_append, plainChars_append_control h, plain]

theorem plain_append_of_no_escape {text : String} (h : '\x1b' ∉ text.toList) (more : String) :
    plain (text ++ more) = text ++ plain more := by
  rw [plain, String.toList_append, plainChars_of_no_escape h, String.ofList_append,
    String.ofList_toList, plain]

/-- A control sequence of graphics, which ends in `m`. -/
theorem isControl_graphic (ps : List Char) (h : ps.all isParameter) :
    IsControl ('\x1b' :: '[' :: (ps ++ ['m'])) := by
  have hm : IsControl ('\x1b' :: '[' :: (ps ++ [] ++ ['m'])) :=
    .mk (List.all_eq_true.mp h) nofun rfl
  rwa [List.append_nil] at hm

end Text

namespace Diagnostic

open Text (plain IsControl isControl_graphic plain_paint_append plain_append_paint
  plain_append_of_no_escape)

theorem isControl_red : IsControl red.toList := isControl_graphic ['1', ';', '3', '1'] rfl
theorem isControl_blue : IsControl blue.toList := isControl_graphic ['1', ';', '3', '4'] rfl
theorem isControl_bold : IsControl bold.toList := isControl_graphic ['1'] rfl
theorem isControl_reset : IsControl reset.toList := isControl_graphic ['0'] rfl

theorem no_escape_gutter : '\x1b' ∉ gutter.toList := by decide

theorem no_escape_padding (col : Int) : '\x1b' ∉ (caretPadding col).toList := by
  simp [caretPadding]

/-- Line by line, what is left of a painted excerpt is what is left of the unpainted one. -/
theorem plain_excerptLines (source : String) (d : Diagnostic) :
    (d.excerptLines true source).map plain = (d.excerptLines false source).map plain := by
  have hon (code : String) : paint true code = code := rfl
  have hoff (code : String) : paint false code = "" := rfl
  simp only [excerptLines, hon, hoff, List.map_cons, List.map_nil, List.cons.injEq, and_true,
    String.empty_append, String.append_empty]
  refine ⟨?header, ?line, ?caret, ?message⟩
  case header =>
    rw [plain_append_paint isControl_reset]
    simp only [String.append_assoc, plain_paint_append isControl_red]
  case line =>
    simp only [String.append_assoc, plain_paint_append isControl_blue,
      plain_paint_append isControl_reset, plain_append_of_no_escape no_escape_gutter]
  case caret =>
    rw [plain_append_paint isControl_reset]
    simp only [String.append_assoc, plain_append_of_no_escape no_escape_gutter,
      plain_append_of_no_escape (no_escape_padding d.col), plain_paint_append isControl_red]
  case message =>
    rw [plain_append_paint isControl_reset, plain_paint_append isControl_bold]

theorem plain_render (source : String) (d : Diagnostic) :
    plain (d.render true source) = plain (d.render false source) := by
  rw [render, render, Text.plain_intercalate, Text.plain_intercalate, plain_excerptLines]

end Diagnostic

namespace Report

open Text (Cleared)

theorem echo_congr {a b : String} (h : Text.plain a = Text.plain b) : echo false a = echo false b := by
  have hchars := congrArg String.toList h
  rw [Text.toList_plain, Text.toList_plain] at hchars
  apply String.toList_inj.mp
  simp only [echo, Bool.false_eq_true, if_false, Text.toList_plain, String.toList_append,
    String.reduceToList, Text.plainChars_newline, hchars]

theorem diagnostics_color (tree : Bool) (source : String) (ds : List Diagnostic) :
    diagnostics ⟨tree, true, false⟩ source ds = diagnostics ⟨tree, false, false⟩ source ds := by
  have hecho (d : Diagnostic) : echo false (d.render true source) = echo false (d.render false source) :=
    echo_congr (d.plain_render source)
  simp only [diagnostics, hecho]

theorem decls_color (tree terminal color color' : Bool) (stack : Stack) (ds : List Decl) :
    decls ⟨tree, color, terminal⟩ stack ds = decls ⟨tree, color', terminal⟩ stack ds := by
  induction ds with
  | nil => rfl
  | cons d ds ih => rw [decls, decls, ih]

/-- Whatever a diagnostic says of whatever source, one text is left of its painted and of its unpainted
excerpt when control sequences are taken out. So reading a text writes the same to streams that are no
terminal, and ends alike, whether diagnostics are painted or not. -/
theorem run_color (stack : Nat) (source : String) :
    (∀ d : Diagnostic, ∃ left, ∀ text,
      (Cleared (d.render true source).toList text ↔ text = left) ∧
      (Cleared (d.render false source).toList text ↔ text = left)) ∧
    ∀ tree, run stack ⟨tree, true, false⟩ source = run stack ⟨tree, false, false⟩ source := by
  refine ⟨fun d => ⟨_, fun text => ⟨Text.cleared_iff, ?_⟩⟩, fun tree => ?_⟩
  · have h := congrArg String.toList (d.plain_render source)
    rw [Text.toList_plain, Text.toList_plain] at h
    rw [h]
    exact Text.cleared_iff
  · simp only [run, diagnostics_color, decls_color tree false true false]

end Report
end ArrowLang
