import ArrowLang.Proofs.Colored
import ArrowLang.Proofs.Excerpts
import ArrowLang.Proofs.Longest

/-!
# Where the caret stands

Where a text is cut without errors, the line and the column of a token are those of its last
character. The line is shown up to that character at least, so the caret of a diagnostic stands under
the last character of the token that it blames.
-/
namespace ArrowLang

open Cursor (call after span)
open Lexeme

theorem splitLines_append_newline (cs ds : List Char) :
    Text.splitLines (cs ++ '\n' :: ds) = Text.splitLines cs ++ Text.splitLines ds := by
  induction cs with
  | nil => rfl
  | cons c cs ih =>
    rw [List.cons_append, Text.splitLines, Text.splitLines, ih]
    split
    · rfl
    · obtain ⟨line, lines, hl⟩ := List.exists_cons_of_ne_nil (Text.splitLines_ne_nil cs)
      rw [hl]
      rfl

theorem head_splitLines (cs : List Char) :
    (Text.splitLines cs)[0]? = some (cs.takeWhile (· ≠ '\n')) := by
  induction cs with
  | nil => rfl
  | cons c cs ih =>
    obtain ⟨line, lines, hl⟩ := List.exists_cons_of_ne_nil (Text.splitLines_ne_nil cs)
    rw [hl, List.getElem?_cons_zero] at ih
    rw [Text.splitLines, hl]
    by_cases hc : c = '\n'
    · simp [hc]
    · simp [hc, Option.some.inj ih]

/-- The line that a place of a text is on goes from the last newline in front of the place to the
next one behind it. -/
theorem line_append (cs ds : List Char) : (Text.splitLines (cs ++ ds))[cs.count '\n']? =
    some (cs.rtakeWhile (· ≠ '\n') ++ ds.takeWhile (· ≠ '\n')) := by
  induction cs using List.reverseRecOn generalizing ds with
  | nil => simpa using head_splitLines ds
  | append_singleton cs c ih =>
    rw [List.append_assoc, List.singleton_append, List.count_append]
    by_cases hc : c = '\n'
    · subst hc
      have hlast : cs.count '\n' + 1 = (Text.splitLines cs).length := (length_splitLines cs).symm
      rw [splitLines_append_newline, List.count_singleton_self, hlast,
        List.getElem?_append_right (Nat.le_refl _), Nat.sub_self, head_splitLines,
        List.rtakeWhile_concat_neg _ _ _ (by simp), List.nil_append]
    · rw [List.count_singleton, if_neg (by simpa using hc), Nat.add_zero, ih,
        List.rtakeWhile_concat_pos _ _ _ (by simpa using hc),
        List.takeWhile_cons_of_pos (by simpa using hc)]
      simp

/-- Carriage returns in front of another character are no end of a line. -/
theorem dropReturns_append_cons {c : Char} (hc : c ≠ '\r') (cs ds : List Char) :
    Text.dropReturns (cs ++ c :: ds) = cs ++ c :: Text.dropReturns ds := by
  unfold Text.dropReturns
  rw [List.reverse_append, List.reverse_cons, List.append_assoc, List.dropWhile_append]
  split
  · next hd =>
    have hnil : ds.reverse.dropWhile (· = '\r') = [] := List.isEmpty_iff.mp hd
    simp [hnil, hc]
  · simp

/-- Neither a newline nor a carriage return. -/
def IsShown (c : Char) : Prop := c ≠ '\n' ∧ c ≠ '\r'

theorem isShown_of_class {p : Char → Bool} (hn : p '\n' = false) (hr : p '\r' = false) {c : Char}
    (hc : p c) : IsShown c := by
  constructor <;> rintro rfl
  · rw [hn] at hc
    cases hc
  · rw [hr] at hc
    cases hc

theorem TokenKind.isShown_spelling {k : TokenKind} {w : List Char} (h : k.spelling? = some w) :
    ∀ c ∈ w, IsShown c := by
  cases k <;> cases h <;> simp [IsShown]

theorem Numeral.isShown {w : List Char} (h : Numeral w) : ∀ c ∈ w, IsShown c := by
  have hdigits : ∀ ds, Digits ds → ∀ d ∈ ds, IsShown d := fun ds hds d hd =>
    isShown_of_class rfl rfl (hds.2 d hd)
  cases h with
  | whole hd => exact hdigits _ hd
  | pointed hd hf =>
    intro c hc
    rcases List.mem_append.mp hc with hc | hc
    · exact hdigits _ hd c hc
    · rcases List.mem_cons.mp hc with rfl | hc
      · exact ⟨by decide, by decide⟩
      · exact hdigits _ hf c hc

/-- Every lexeme but a run of newlines ends with a character that a line shows. -/
theorem Lexical.exists_last {k : TokenKind} {w : List Char} (h : Lexical k w) (hk : k ≠ .newline) :
    ∃ pre c, w = pre ++ [c] ∧ IsShown c := by
  have hlast : (∀ c ∈ w, IsShown c) → ∃ pre c, w = pre ++ [c] ∧ IsShown c := by
    intro hall
    obtain ⟨pre, c, rfl⟩ := (List.eq_nil_or_concat' w).resolve_left h.ne_nil
    exact ⟨pre, c, rfl, hall c (by simp)⟩
  cases h with
  | number h => exact hlast h.isShown
  | name h =>
    obtain ⟨⟨c, w, rfl, hc, hw⟩, -⟩ := h
    refine hlast fun d hd => ?_
    rcases List.mem_cons.mp hd with rfl | hd
    · exact isShown_of_class rfl rfl hc
    · exact isShown_of_class rfl rfl (hw d hd)
  | @quoted body _ _ => exact ⟨'"' :: body, '"', rfl, by decide, by decide⟩
  | newlines _ _ => exact absurd rfl hk
  | spelled h => exact hlast (TokenKind.isShown_spelling h)

/-- A newline behind a backslash is a bad escape. -/
theorem escapedNewlines_of_badEscape {cs : List Char} {p : Nat × Nat} (h : badEscape? cs p = none) :
    escapedNewlines cs = 0 := by
  fun_induction badEscape? cs p with
  | case1 => rfl
  | case2 => rfl
  | case3 c cs line col hc ih =>
    have hn : c ≠ '\n' := by
      rintro rfl
      cases hc
    rw [escapedNewlines, if_neg hn, ih h]
  | case4 => cases h
  | case5 c cs line col hc hc' ih => rw [escapedNewlines_cons (ne_backslash hc hc'), ih h]

namespace Cursor

variable {text : String}

theorem Takes.escapedNewlines_eq {s v : Cursor} {span : List Char} {t : Token}
    (h : s.Takes span (.ok t) v) : escapedNewlines span = 0 := by
  cases h with
  | ended _ => rfl
  | newlines _ _ hn =>
    apply escapedNewlines_of_not_mem
    intro hb
    have := hn _ hb
    simp at this
  | lexeme _ _ _ _ hp => exact escapedNewlines_of_not_mem hp.2
  | text _ _ hb =>
    rw [escapedNewlines_quote, escapedNewlines_cons (by decide), escapedNewlines_of_badEscape hb]

/-- Without lexical errors the cursor is always where the text ends that it has read. -/
theorem right_of_good (h : ∀ n, (call text n).Good) (n : Nat) :
    Right text (after text n).place (after text n).current := by
  refine (follows_after text n).right_iff.mpr (uncounted_eq_zero.mpr fun i _ => ?_)
  obtain ⟨t, ht⟩ := h i
  exact (ht ▸ takes_call text i).escapedNewlines_eq

/-- A token that is not the end is given by one call only. -/
theorem call_unique {t : Token} (he : t.kind ≠ .endOfText) {m n : Nat} (hm : call text m = .ok t)
    (hn : call text n = .ok t) : m = n := by
  obtain ⟨k, hk⟩ := exists_end text
  have hle : ∀ i, call text i = .ok t → i ≤ k := by
    intro i hi
    by_contra hlt
    have hend := hk.ends
    rw [← (after_end hk.ends (by omega : k ≤ i)).1, hi] at hend
    exact he (of_decide_eq_true hend)
  rcases Nat.lt_trichotomy m n with h | h | h
  · exact absurd rfl (call_ne hk.proceeds h (hle n hn) hm hn)
  · exact h
  · exact absurd rfl (call_ne hk.proceeds h (hle m hm) hn hm)

/-- The place of a token is that of its last character, on a line of the text that shows it. -/
theorem exists_last_character (hgood : ∀ n, (call text n).Good) {n : Nat} {t : Token}
    (ht : call text n = .ok t) (hn : t.kind ≠ .newline) (he : t.kind ≠ .endOfText) :
    ∃ L C row c, t.line = L + 1 ∧ t.col = C + 1 ∧ (Text.splitLines text.toList)[L]? = some row ∧
      (span text n).getLast? = some c ∧ row[C]? = some c ∧ (Text.dropReturns row)[C]? = some c := by
  obtain ⟨pre, c, hspan, hc⟩ := (lexical_span ht he).exists_last hn
  -- the text that is read when the token is given, and the last line of it
  have hread := take_shown (List.append_nil (span text n)).symm
  rw [← current_after, hspan, ← List.append_assoc] at hread
  generalize hr : text.toList.take (after text n).current ++ gap text n ++ pre = read at hread
  have hsplit : text.toList = (read ++ [c]) ++ (after text (n + 1)).rest := by
    rw [← hread, (stands_after text (n + 1)).rest_eq.1, List.take_append_drop]
  obtain ⟨hline, hcol⟩ := right_of_good hgood (n + 1)
  have hplace := (ht ▸ takes_call text n).place_eq
  rw [hread] at hline hcol
  rw [← hplace] at hline hcol
  have hlast : (read ++ [c]).rtakeWhile (· ≠ '\n') = read.rtakeWhile (· ≠ '\n') ++ [c] :=
    List.rtakeWhile_concat_pos _ _ _ (by simpa using hc.1)
  have hl := line_append (read ++ [c]) (after text (n + 1)).rest
  rw [hlast, ← hsplit, List.append_assoc, List.singleton_append] at hl
  rw [hlast, List.length_append, List.length_singleton] at hcol
  refine ⟨_, _, _, c, hline.trans (Nat.add_comm _ _), hcol, hl, by rw [hspan]; simp, ?_, ?_⟩
  · simp
  · rw [dropReturns_append_cons hc.2]
    simp

end Cursor

theorem Outcome.Good.not_inString {o : Outcome} (h : o.Good) : o.inString = false := by
  obtain ⟨t, rfl⟩ := h
  rfl

/-- With colour and without, the caret stands `i` columns behind the gutter, and there the line that
is shown has the character. -/
def Diagnostic.PointsTo (d : Diagnostic) (source : String) (i : Nat) (c : Char) : Prop :=
  ∀ color, ∃ header shown message : String,
    d.excerptLines color source = [header,
      paint color blue ++ gutter ++ paint color reset ++ shown,
      gutter ++ String.ofList (List.replicate i ' ') ++ paint color red ++ "^" ++ paint color reset,
      message] ∧ shown.toList[i]? = some c

theorem Diagnostic.pointsTo {d : Diagnostic} {source : String} {L C : Nat} {row : List Char}
    {c : Char} (hline : d.line = L + 1) (hcol : d.col = C + 1)
    (hl : (Text.splitLines source.toList)[L]? = some row)
    (hc : (Text.dropReturns row)[C]? = some c) : d.PointsTo source C c := by
  intro color
  have hpadding : caretPadding d.col = String.ofList (List.replicate C ' ') := by
    have hindex : (d.col - 1).toNat = C := by omega
    rw [caretPadding, hindex]
  have hlines := excerptLines.eq_def color source d
  rw [sourceLine_eq hline hl, hpadding] at hlines
  exact ⟨_, _, _, hlines, by rwa [String.toList_ofList]⟩

/-- If a text is cut without errors, a diagnostic that blames a token other than a newline or the end
is about the line and the column of the last character of that token, and its caret stands under that
character. -/
theorem Program.caret_under_blamed {stack : Nat} {source : String}
    (hgood : ∀ o ∈ (Cursor.ofText source).outcomes, o.Good) {g : GrammarFault} {t : Token}
    (hd : .grammar g t ∈ ((Window.ofText source).program stack).2.diagnostics.toList)
    (hn : t.kind ≠ .newline) (he : t.kind ≠ .endOfText) :
    ∃ n L C row c, (∀ m, call source m = .ok t ↔ m = n) ∧ t.line = L + 1 ∧ t.col = C + 1 ∧
      (Text.splitLines source.toList)[L]? = some row ∧ (span source n).getLast? = some c ∧
      row[C]? = some c ∧ (Text.dropReturns row)[C]? = some c ∧
      (Diagnostic.grammar g t).PointsTo source C c := by
  obtain ⟨n, ht⟩ : ∃ n, call source n = .ok t := by
    cases Window.about_program hd with
    | token ht _ =>
      obtain ⟨-, ht | ⟨o, ho, hs⟩⟩ := ht
      · exact Cursor.exists_call ht
      · rw [ho.not_inString fun o ho => (hgood o ho).not_inString] at hs
        cases hs
  obtain ⟨L, C, row, c, hline, hcol, hl, hlast, hc, hshown⟩ :=
    Cursor.exists_last_character (Cursor.good_of_outcomes hgood) ht hn he
  refine ⟨n, L, C, row, c, fun m => ⟨fun hm => Cursor.call_unique he hm ht, fun hm => hm ▸ ht⟩,
    hline, hcol, hl, hlast, hc, hshown, ?_⟩
  have hdline : (Diagnostic.grammar g t).line = L + 1 := congrArg Nat.cast hline
  have hdcol : (Diagnostic.grammar g t).col = C + 1 := congrArg Nat.cast hcol
  exact Diagnostic.pointsTo hdline hdcol hl hshown

/-- A string over two lines behind a number: the caret stands under its closing quote, in front of a
carriage return. -/
theorem Program.caret_under_blamed_quote :
    (∀ o ∈ (Cursor.ofText "1 \"a\nb\"\r\n").outcomes, o.Good) ∧
      ∃ d ∈ ((Window.ofText "1 \"a\nb\"\r\n").program 3).2.diagnostics.toList,
        d.PointsTo "1 \"a\nb\"\r\n" 1 '"' := by
  have houtcomes : (Cursor.ofText "1 \"a\nb\"\r\n").outcomes = [.ok ⟨.number, "1", 1, 1⟩,
      .ok ⟨.string, "a\nb", 2, 2⟩, .ok ⟨.newline, "\n", 3, 0⟩, .ok ⟨.endOfText, "", 3, 0⟩] := by cbv
  have hgood : ∀ o ∈ (Cursor.ofText "1 \"a\nb\"\r\n").outcomes, o.Good := by
    rw [houtcomes]
    decide
  have hd : Diagnostic.grammar (.expectedToken .newline "Expected newline after expression.")
      ⟨.string, "a\nb", 2, 2⟩ ∈
        ((Window.ofText "1 \"a\nb\"\r\n").program 3).2.diagnostics.toList := by
    have h : ((Window.ofText "1 \"a\nb\"\r\n").program 3).2.diagnostics.toList =
        [.grammar (.expectedToken .newline "Expected newline after expression.")
          ⟨.string, "a\nb", 2, 2⟩] := by cbv
    rw [h]
    exact List.mem_singleton_self _
  refine ⟨hgood, _, hd, ?_⟩
  obtain ⟨n, L, C, row, c, -, hline, hcol, hl, -, hc, -, hpoints⟩ :=
    caret_under_blamed hgood hd (by decide) (by decide)
  obtain rfl : 1 = L := Nat.succ.inj hline
  obtain rfl : 1 = C := Nat.succ.inj hcol
  obtain rfl : ['b', '"', '\r'] = row := Option.some.inj hl
  obtain rfl : '"' = c := Option.some.inj hc
  exact hpoints

end ArrowLang
