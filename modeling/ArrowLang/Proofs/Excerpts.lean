import ArrowLang.Proofs.Reports
import ArrowLang.Proofs.RoundTrip
import ArrowLang.Diagnostic.Excerpt

/-!
# Four lines for a diagnostic

A diagnostic is shown in four lines if what it repeats of the text holds no newline. It repeats a
newline only if that stands behind a backslash, or if it is in what a string says that is blamed.
-/
namespace ArrowLang

open Cursor (call after span)
open Lexeme

theorem splitLines_of_not_mem {cs : List Char} (h : '\n' ∉ cs) : Text.splitLines cs = [cs] := by
  induction cs with
  | nil => rfl
  | cons c cs ih =>
    obtain ⟨hc, hcs⟩ := not_or.mp (List.mem_cons.not.mp h)
    rw [Text.splitLines, if_neg (Ne.symm hc), ih hcs]

theorem length_splitLines (cs : List Char) :
    (Text.splitLines cs).length = cs.count '\n' + 1 := by
  induction cs with
  | nil => rfl
  | cons c cs ih =>
    rw [Text.splitLines, List.count_cons]
    split
    · next hc => simp [hc, ih]
    · next hc =>
      obtain ⟨line, lines, hl⟩ := List.exists_cons_of_ne_nil (Text.splitLines_ne_nil cs)
      rw [hl] at ih ⊢
      simpa [hc] using ih

theorem newline_not_mem_line {cs line : List Char} (h : line ∈ Text.splitLines cs) :
    '\n' ∉ line := by
  induction cs generalizing line with
  | nil =>
    obtain rfl : line = [] := List.mem_singleton.mp h
    simp
  | cons c cs ih =>
    rw [Text.splitLines] at h
    split at h
    · rcases List.mem_cons.mp h with rfl | h
      · simp
      · exact ih h
    · next hc =>
      obtain ⟨first, lines, hl⟩ := List.exists_cons_of_ne_nil (Text.splitLines_ne_nil cs)
      rw [hl] at h ih
      rcases List.mem_cons.mp h with rfl | h
      · simpa using ⟨Ne.symm hc, ih List.mem_cons_self⟩
      · exact ih (List.mem_cons_of_mem first h)

theorem mem_of_mem_dropReturns {c : Char} {line : List Char} (h : c ∈ Text.dropReturns line) :
    c ∈ line := by
  rw [Text.dropReturns, List.mem_reverse] at h
  exact List.mem_reverse.mp ((List.dropWhile_suffix _).mem h)

theorem splitLines_intercalate {ls : List String} (hne : ls ≠ []) (h : ∀ l ∈ ls, '\n' ∉ l.toList) :
    Text.splitLines ("\n".intercalate ls).toList = ls.map String.toList := by
  rw [String.toList_intercalate]
  induction ls with
  | nil => exact absurd rfl hne
  | cons l ls ih =>
    obtain ⟨hl, hls⟩ := List.forall_mem_cons.mp h
    cases ls with
    | nil => simpa using splitLines_of_not_mem hl
    | cons l' ls =>
      have hrest := ih (List.cons_ne_nil l' ls) hls
      have hsplit := splitLines_line hl (("\n".toList).intercalate ((l' :: ls).map String.toList))
      rw [hrest] at hsplit
      simpa using hsplit

theorem count_intercalate {ls : List String} (hne : ls ≠ []) :
    ("\n".intercalate ls).toList.count '\n' + 1 =
      ls.length + (ls.map fun l => l.toList.count '\n').sum := by
  rw [String.toList_intercalate]
  induction ls with
  | nil => exact absurd rfl hne
  | cons l ls ih =>
    cases ls with
    | nil =>
      simp
      omega
    | cons l' ls =>
      have hrest := ih (List.cons_ne_nil l' ls)
      simp only [List.map_cons, List.sum_cons, List.length_cons] at hrest ⊢
      simp
      simp at hrest
      omega

namespace Cursor

/-- What is cut is on one of the lines of the text. -/
theorem Inside.place {text : String} {s : Cursor} (h : s.Inside text) : 1 ≤ (Outcome.place s.next.1).1 ∧
    (Outcome.place s.next.1).1 ≤ (Text.splitLines text.toList).length := by
  obtain ⟨span, ht⟩ := takes_token s.skipGap
  obtain ⟨shown, hs, hb⟩ := ht.shows
  obtain ⟨rest, hrest⟩ := hs.span_eq
  have hg := h.skipGap
  have hlast := hg.last
  rw [ht.rest, hrest, List.count_append, List.count_append] at hlast
  have hle := hb.le_line
  rw [length_splitLines]
  exact ⟨Nat.le_trans hg.first hb.line_le, by simp only [Cursor.next]; omega⟩

end Cursor

/-- What stands around a text has no newline. -/
theorem newline_mem_between {a b : String} (ha : '\n' ∉ a.toList) (hb : '\n' ∉ b.toList)
    (s : String) : '\n' ∈ (a ++ s ++ b).toList ↔ '\n' ∈ s.toList := by
  rw [String.toList_append, String.toList_append, List.mem_append, List.mem_append]
  exact ⟨fun h => (h.resolve_right hb).resolve_left ha, fun h => .inl (.inr h)⟩

theorem newline_mem_char (c : Char) : '\n' ∈ c.toString.toList ↔ c = '\n' := by
  rw [Char.toString, String.toList_singleton, List.mem_singleton, eq_comm]

namespace LexicalFault

/-- A fault repeats the character that it is about. -/
theorem newline_mem_repeated {fault : LexicalFault} {c : Char}
    (h : fault = .unrecognizedCharacter c.toString ∨ fault = .unrecognizedEscape c.toString) :
    ('\n' ∈ fault.place.toList ↔ c = '\n') ∧ ('\n' ∈ fault.message.toList ↔ c = '\n') := by
  rw [← newline_mem_char c]
  rcases h with rfl | rfl <;>
    exact ⟨newline_mem_between (by decide) (by decide) _,
      newline_mem_between (by decide) (by decide) _⟩

theorem not_newline_mem_unterminated : '\n' ∉ unterminatedString.place.toList ∧
    '\n' ∉ unterminatedString.message.toList := by
  decide

end LexicalFault

namespace Cursor

/-- Only newlines and strings have newlines in their tokens. -/
theorem newline_not_mem_lexeme {s : Cursor} {t : Token} (h : s.next.1 = .ok t)
    (hn : t.kind ≠ .newline) (hs : t.kind ≠ .string) : '\n' ∉ t.lexeme.toList := by
  obtain ⟨taken, ht⟩ := takes_token s.skipGap
  rw [show s.skipGap.token.1 = .ok t from h] at ht
  generalize s.skipGap = s, s.skipGap.token.2 = v at ht
  cases ht with
  | ended _ => simp
  | newlines _ _ _ => exact absurd rfl hn
  | lexeme _ _ _ _ hp => simpa using hp.1
  | text _ _ _ => exact absurd rfl hs

/-- The characters that lexical errors repeat. -/
theorem fault_cases {s : Cursor} {e : LexicalError} (h : s.next.1 = .error e) :
    (∃ c : Char, c ≠ '\n' ∧ e.fault = .unrecognizedCharacter c.toString) ∨
      (∃ c : Char, e.fault = .unrecognizedEscape c.toString) ∨ e.fault = .unterminatedString := by
  obtain ⟨taken, ht⟩ := takes_token s.skipGap
  rw [show s.skipGap.token.1 = .error e from h] at ht
  generalize s.skipGap = s, s.skipGap.token.2 = v at ht
  cases ht with
  | @unknown c _ _ hc => exact .inl ⟨c, hc, rfl⟩
  | unended _ _ => exact .inr (.inr rfl)
  | @badEscape _ _ _ c _ _ _ _ _ => exact .inr (.inl ⟨c, rfl⟩)

/-- Only the character behind a backslash can be a newline. -/
theorem newline_mem_fault {s : Cursor} {e : LexicalError} (h : s.next.1 = .error e) :
    ('\n' ∈ e.fault.place.toList ↔ e.fault = .unrecognizedEscape "\n") ∧
      ('\n' ∈ e.fault.message.toList → e.fault = .unrecognizedEscape "\n") := by
  rcases fault_cases h with ⟨c, hc, hf⟩ | ⟨c, hf⟩ | hf
  · obtain ⟨hplace, hmessage⟩ := LexicalFault.newline_mem_repeated (.inl hf)
    rw [hf] at hplace hmessage ⊢
    exact ⟨⟨fun h => absurd (hplace.mp h) hc, nofun⟩, fun h => absurd (hmessage.mp h) hc⟩
  · obtain ⟨hplace, hmessage⟩ := LexicalFault.newline_mem_repeated (.inr hf)
    have hfault : c = '\n' → e.fault = .unrecognizedEscape "\n" := fun hc => by rw [hf, hc]; rfl
    refine ⟨⟨fun h => hfault (hplace.mp h), fun h => ?_⟩, fun h => hfault (hmessage.mp h)⟩
    rw [h]
    decide
  · obtain ⟨hplace, hmessage⟩ := LexicalFault.not_newline_mem_unterminated
    rw [hf]
    exact ⟨⟨fun h => absurd h hplace, nofun⟩, fun h => absurd h hmessage⟩

end Cursor

/-- The diagnostic repeats a newline: one that stands behind a backslash, or one of what a string
says. -/
def Diagnostic.RepeatsNewline : Diagnostic → Prop
  | .lexical fault _ _ => fault = .unrecognizedEscape "\n"
  | .grammar _ t => t.kind = .string ∧ '\n' ∈ t.lexeme.toList
  | .general .. => False

namespace Diagnostic

variable {lost : Outcome → Prop} {text : String} {d : Diagnostic}

/-- A diagnostic is about a line that the text has. -/
theorem About.line (h : d.About lost text) :
    ∃ L : Nat, d.line = L + 1 ∧ L < (Text.splitLines text.toList).length := by
  have hline : ∃ s : Cursor, s.Inside text ∧ d.line = (Outcome.place s.next.1).1 := by
    cases h with
    | @error s e hs he => exact ⟨s, hs, by rw [he]; rfl⟩
    | token ht _ =>
      obtain ⟨⟨s, hs, hcut⟩, -⟩ := ht
      exact ⟨s, hs, by rw [hcut]; rfl⟩
  obtain ⟨s, hs, hline⟩ := hline
  obtain ⟨hpos, hle⟩ := hs.place
  exact ⟨(Outcome.place s.next.1).1 - 1, by omega, by omega⟩

theorem newline_place_token (t : Token) :
    '\n' ∈ t.place.toList ↔ t.kind ≠ .newline ∧ t.kind ≠ .endOfText ∧ '\n' ∈ t.lexeme.toList := by
  unfold Token.place
  split
  · next hk => simp [hk]
  · next hk => simp [hk]
  · next hn he =>
    rw [newline_mem_between (by decide) (by decide)]
    exact ⟨fun h => ⟨hn, he, h⟩, fun h => h.2.2⟩

/-- The place repeats the newline. -/
theorem About.newline_place (h : d.About lost text) :
    '\n' ∈ d.place.toList ↔ d.RepeatsNewline := by
  cases h with
  | error _ he => exact (Cursor.newline_mem_fault he).1
  | token ht _ =>
    obtain ⟨⟨s, -, ht⟩, -⟩ := ht
    rw [place, RepeatsNewline, newline_place_token]
    constructor
    · rintro ⟨hn, -, hm⟩
      refine ⟨?_, hm⟩
      by_contra hs
      exact Cursor.newline_not_mem_lexeme ht hn hs hm
    · rintro ⟨hs, hm⟩
      exact ⟨by simp [hs], by simp [hs], hm⟩

theorem newline_not_mem_expectations : ∀ e ∈ expectations, '\n' ∉ e.2.toList := by decide

/-- The message repeats no newline but the one behind a backslash. -/
theorem About.newline_message (h : d.About lost text) (hr : ¬ d.RepeatsNewline) :
    '\n' ∉ d.message.toList := by
  cases h with
  | error _ he => exact mt (Cursor.newline_mem_fault he).2 hr
  | token ht hg =>
    obtain ⟨⟨s, -, ht⟩, -⟩ := ht
    rcases hg with hg | rfl
    · cases hg with
      | operand => simp [message, GrammarFault.message]
      | token _ hm => exact newline_not_mem_expectations _ hm
      | number hk hrange =>
        have hlex := Cursor.newline_not_mem_lexeme ht (by simp [hk]) (by simp [hk])
        rcases hrange with rfl | rfl <;>
          simp [message, GrammarFault.message, hlex, GrammarFault.integerRange,
            GrammarFault.floatRange]
    · simp [message, GrammarFault.message]

theorem newline_not_mem_natural (n : Nat) : '\n' ∉ Nat.toDigits 10 n := by
  intro h
  cases Nat.isDigit_of_mem_toDigits (by decide) (by decide) h

/-- The lines of a diagnostic on a line with a number. -/
def shownLines (d : Diagnostic) (number : Nat) (line : List Char) : List String :=
  ["[line " ++ toString number ++ "] Error" ++ d.place ++ ":",
    gutter ++ String.ofList (Text.dropReturns line),
    gutter ++ String.ofList (List.replicate (d.col - 1).toNat ' ') ++ "^", d.message]

/-- The line of the source that a diagnostic is about. -/
theorem sourceLine_eq {source : String} {d : Diagnostic} {L : Nat} {line : List Char}
    (hd : d.line = L + 1) (hl : (Text.splitLines source.toList)[L]? = some line) :
    sourceLine source d.line = String.ofList (Text.dropReturns line) := by
  have hindex : (d.line - 1).toNat = L := by omega
  rw [sourceLine, if_pos (by omega), hindex, List.getD_eq_getElem?_getD, hl, Option.getD_some]

/-- Without colour these are what is shown. -/
theorem excerptLines_eq {source : String} {d : Diagnostic} {L : Nat} {line : List Char}
    (hd : d.line = L + 1) (hl : (Text.splitLines source.toList)[L]? = some line) :
    d.excerptLines false source = d.shownLines (L + 1) line := by
  have hnumber : toString d.line = toString (L + 1) := by
    rw [hd]
    rfl
  rw [excerptLines, shownLines, sourceLine_eq hd hl, hnumber, caretPadding]
  simp [paint]

theorem newline_not_mem_shownLines {d : Diagnostic} {number : Nat} {line : List Char}
    (hp : '\n' ∉ d.place.toList) (hm : '\n' ∉ d.message.toList) (hl : '\n' ∉ line) :
    ∀ l ∈ d.shownLines number line, '\n' ∉ l.toList := by
  have hnumber := newline_not_mem_natural number
  have hreturns := mt mem_of_mem_dropReturns hl
  simp [shownLines, gutter, hp, hm, hnumber, hreturns]

end Diagnostic

/-- Every diagnostic is about a line that the text has. If it repeats no newline, it is shown in four
lines: a header with the number of that line, the line itself, a caret and the message. If it repeats
one, it is shown in more. -/
theorem Program.render_lines {stack : Nat} {source : String} {d : Diagnostic}
    (hd : d ∈ ((Window.ofText source).program stack).2.diagnostics.toList) :
    ∃ (L : Nat) (line : List Char), d.line = L + 1 ∧
      (Text.splitLines source.toList)[L]? = some line ∧
      (¬ d.RepeatsNewline → Text.splitLines (d.render false source).toList =
        (d.shownLines (L + 1) line).map String.toList) ∧
      (d.RepeatsNewline → 4 < (Text.splitLines (d.render false source).toList).length) := by
  have habout := Window.about_program hd
  obtain ⟨L, hline, hlt⟩ := habout.line
  obtain ⟨line, hl⟩ : ∃ line, (Text.splitLines source.toList)[L]? = some line :=
    ⟨_, List.getElem?_eq_getElem hlt⟩
  have hnone := newline_not_mem_line (List.mem_of_getElem? hl)
  have hplace := habout.newline_place
  have hne : d.shownLines (L + 1) line ≠ [] := List.cons_ne_nil _ _
  refine ⟨L, line, hline, hl, ?_⟩
  rw [Diagnostic.render, Diagnostic.excerptLines_eq hline hl]
  refine ⟨fun hr => ?_, fun hr => ?_⟩
  · have hlines : ∀ l ∈ d.shownLines (L + 1) line, '\n' ∉ l.toList :=
      Diagnostic.newline_not_mem_shownLines (hplace.not.mpr hr) (habout.newline_message hr) hnone
    exact splitLines_intercalate hne hlines
  · have hcount : 1 ≤ d.place.toList.count '\n' := List.count_pos_iff.mpr (hplace.mpr hr)
    rw [length_splitLines, count_intercalate hne]
    simp only [Diagnostic.shownLines, List.map_cons, List.sum_cons, List.length_cons,
      String.toList_append, List.count_append]
    omega

/-- A number behind an expression, on a line that ends with a carriage return. -/
theorem Program.render_lines_number :
    ∃ d ∈ ((Window.ofText "x 2\r\n").program 3).2.diagnostics.toList,
      Text.splitLines (d.render false "x 2\r\n").toList =
        ["[line 1] Error at '2':", "    x 2", "      ^", "Expected newline after expression."].map
          String.toList := by
  have h : ((Window.ofText "x 2\r\n").program 3).2.diagnostics.toList =
      [.grammar (.expectedToken .newline "Expected newline after expression.")
        ⟨.number, "2", 1, 3⟩] := by cbv
  rw [h]
  refine ⟨_, List.mem_singleton_self _, ?_⟩
  obtain ⟨L, line, hline, hl, hfour, -⟩ := render_lines (h ▸ List.mem_singleton_self _)
  obtain rfl : L = 0 := by
    change (1 : Int) = L + 1 at hline
    omega
  obtain rfl : "x 2\r".toList = line := Option.some.inj hl
  exact hfour (by simp [Diagnostic.RepeatsNewline])

/-- A string that says a newline is repeated with it. -/
theorem Program.render_five_lines :
    ∃ d ∈ ((Window.ofText "1 \"a\\nb\"").program 3).2.diagnostics.toList,
      (Text.splitLines (d.render false "1 \"a\\nb\"").toList).length = 5 := by
  have h : ((Window.ofText "1 \"a\\nb\"").program 3).2.diagnostics.toList =
      [.grammar (.expectedToken .newline "Expected newline after expression.")
        ⟨.string, "a\nb", 1, 8⟩] := by cbv
  rw [h]
  exact ⟨_, List.mem_singleton_self _, by decide⟩

end ArrowLang
