import ArrowLang.Proofs.Stretches
import ArrowLang.Proofs.Strewn

/-!
# Colouring and cutting

The strings and comments of a coloured text are those that the calls take and skip, whatever is wrong
with the text. If no call gives an error, the other stretches are the other lexemes, one by one.
-/
namespace ArrowLang

open Lexeme
open Text (isBlank)
open Coloring (outside)

/-- What a token makes of the text that it takes. -/
def TokenKind.stretch? : TokenKind → Option StretchKind
  | .newline | .endOfText => none
  | .string => some .quoted
  | _ => some .lexeme

theorem TokenKind.stretch_ne_error (k : TokenKind) : k.stretch? ≠ some .error := by
  cases k <;> decide

/-- A string that is wrong is a string all the same. -/
def LexicalFault.stretch : LexicalFault → StretchKind
  | .unrecognizedEscape _ | .unterminatedString => .quoted
  | _ => .error

def Outcome.stretch? : Outcome → Option StretchKind
  | .ok t => t.kind.stretch?
  | .error e => some e.fault.stretch

/-- The call gives a token. -/
def Outcome.Good (o : Outcome) : Prop := ∃ t, o = .ok t

theorem Outcome.not_good (e : LexicalError) : ¬ Outcome.Good (.error e) := by
  rintro ⟨t, ht⟩
  cases ht

instance (o : Outcome) : Decidable o.Good :=
  match o with
  | .ok t => .isTrue ⟨t, rfl⟩
  | .error e => .isFalse (Outcome.not_good e)

/-- The comment in a gap that begins at offset `i`. It goes on to the end of the gap. -/
def gapStretches (i : Nat) (gap : List Char) : List Stretch :=
  if '#' ∈ gap then [⟨.comment, i + gap.idxOf '#', i + gap.length⟩] else []

def Outcome.stretches (o : Outcome) (start stop : Nat) : List Stretch :=
  (o.stretch?.map fun k => ⟨k, start, stop⟩).toList

namespace Cursor

/-- The comment that a call skips, and what it takes. -/
def callStretches (text : String) (n : Nat) : List Stretch :=
  gapStretches (after text n).current (gap text n) ++
    Outcome.stretches (call text n) (after text (n + 1)).start (after text (n + 1)).current

/-- The comments and lexemes of the first calls. -/
def firstStretches (text : String) (n : Nat) : List Stretch :=
  (List.range n).flatMap (callStretches text)

end Cursor

/-- Strings and comments are the same, and if `good` holds so is everything else. -/
structure Concur (good : Prop) (ss ts : List Stretch) : Prop where
  regions : ss.filter Stretch.isRegion = ts.filter Stretch.isRegion
  all : good → ss = ts

theorem Concur.of_eq {good : Prop} {ss ts : List Stretch} (h : ss = ts) : Concur good ss ts :=
  ⟨congrArg _ h, fun _ => h⟩

theorem Concur.trans {p q : Prop} {ss ts us : List Stretch} (h : Concur p ss ts) (h' : Concur q ts us) :
    Concur (p ∧ q) ss us :=
  ⟨h.regions.trans h'.regions, fun hpq => (h.all hpq.1).trans (h'.all hpq.2)⟩

theorem Concur.append {good : Prop} {ss ts : List Stretch} (h : Concur good ss ts)
    (us : List Stretch) : Concur good (us ++ ss) (us ++ ts) :=
  ⟨by rw [List.filter_append, List.filter_append, h.regions], fun hg => by rw [h.all hg]⟩

theorem Concur.mono {p q : Prop} {ss ts : List Stretch} (h : Concur p ss ts) (hq : q → p) :
    Concur q ss ts :=
  ⟨h.regions, fun hg => h.all (hq hg)⟩

theorem outside_blanks {blanks : List Char} (h : ∀ c ∈ blanks, isBlank c) (i : Nat)
    (r : List Char) : outside i (blanks ++ r) = outside (i + blanks.length) r := by
  induction blanks generalizing i with
  | nil => rfl
  | cons c blanks ih =>
    rw [List.cons_append, Coloring.outside_blank (h c List.mem_cons_self),
      ih (fun d hd => h d (List.mem_cons_of_mem c hd)), List.length_cons, Nat.add_assoc,
      Nat.add_comm 1]

theorem outside_gap {gap r : List Char} (h : IsGap gap r) (i : Nat) :
    outside i (gap ++ r) = gapStretches i gap ++ outside (i + gap.length) r := by
  obtain ⟨blanks, comment, rfl, hblanks, hcomment⟩ := h
  have hblank : ∀ c ∈ blanks, isBlank c := by
    intro c hc
    rcases hblanks c hc with rfl | rfl | rfl <;> rfl
  have hhash : '#' ∉ blanks := by
    intro hc
    have := hblanks _ hc
    simp at this
  rw [List.append_assoc, outside_blanks hblank]
  rcases hcomment with rfl | ⟨words, rfl, hw, hr⟩
  · simp [gapStretches, hhash]
  · have hmem : '#' ∈ blanks ++ '#' :: words := by simp
    rw [Coloring.outside_comment hw hr, gapStretches, if_pos hmem, List.idxOf_append_of_notMem hhash,
      List.idxOf_cons_self, List.length_append, Nat.add_assoc]
    rfl

theorem stretch_of_tail {c : Char} {cs tail : List Char} {k : TokenKind}
    (h : tail? c cs = some (k, tail)) (hk : k ≠ .newline) : k.stretch? = some .lexeme := by
  obtain ⟨hend, hstring, -⟩ := tail_kind_ne h
  cases k <;> first | rfl | contradiction

theorem filter_errors {errors : List Stretch} (h : ∀ s ∈ errors, s.kind = .error) :
    errors.filter Stretch.isRegion = [] := by
  rw [List.filter_eq_nil_iff]
  intro s hs
  simp [Stretch.isRegion, h s hs]

/-- Errors in a string are not among the strings and comments. -/
theorem Concur.of_errors {good : Prop} {errors ss : List Stretch}
    (h : ∀ s ∈ errors, s.kind = .error) (hgood : good → errors = []) : Concur good (errors ++ ss) ss := by
  constructor
  · rw [List.filter_append, filter_errors h, List.nil_append]
  · intro hg
    rw [hgood hg, List.nil_append]

/-- A string, good or not, is a string to both. -/
theorem concur_quoted (i : Nat) {span rest cs : List Char} {o : Outcome}
    (h : cutQuoted cs = (o, rest)) (hs : '"' :: cs = span ++ rest) :
    Concur o.Good (outside i (span ++ rest))
      (o.stretches i (i + span.length) ++ outside (i + span.length) rest) := by
  have happ := splitQuoted_append cs
  have hcases := splitQuoted_cases cs
  unfold cutQuoted at h
  rcases hq : splitQuoted cs with ⟨body, tail⟩
  obtain ⟨errors, herrors, hgood, hinside⟩ := Coloring.inside_body i (i + 1) hq (0, 0)
  rw [hq] at happ hcases h
  rw [← hs, Coloring.outside_quote, hinside]
  rcases hcases with rfl | ⟨r, rfl⟩
  · -- the string is not closed
    obtain ⟨rfl, rfl⟩ := Prod.mk.inj h
    obtain rfl : '"' :: body = span := by simpa [← happ] using hs
    have hstop : i + 1 + body.length = i + ('"' :: body).length := by
      rw [List.length_cons]
      omega
    rw [Coloring.inside_nil, Coloring.outside_nil, hstop]
    exact .of_errors herrors fun hgood => absurd hgood (Outcome.not_good _)
  · have hclosed : '"' :: cs = '"' :: body ++ ['"'] ++ r := by simp [← happ]
    have hstop : i + 1 + body.length + 1 = i + ('"' :: body ++ ['"']).length := by
      rw [List.length_append, List.length_cons, List.length_singleton]
      omega
    dsimp only at h
    rw [Coloring.inside_quote]
    rcases hb : badEscape? body (0, 0) with _ | ⟨c, place⟩
    · rw [hb] at h
      obtain ⟨rfl, rfl⟩ := Prod.mk.inj h
      obtain rfl : '"' :: body ++ ['"'] = span := List.append_cancel_right (hclosed.symm.trans hs)
      rw [hstop]
      exact .of_errors herrors fun _ => hgood (List.cons_ne_nil _ _) hb
    · rw [hb] at h
      obtain ⟨rfl, rfl⟩ := Prod.mk.inj h
      obtain rfl : '"' :: body ++ ['"'] = span := List.append_cancel_right (hclosed.symm.trans hs)
      rw [hstop]
      exact .of_errors herrors fun hgood => absurd hgood (Outcome.not_good _)

/-- What is cut at the head of a text outside quotes. -/
theorem concur_cut (i : Nat) {span rest : List Char} {o : Outcome}
    (h : cutToken (span ++ rest) = (o, rest)) (hhead : (span ++ rest).head? ≠ some '#') :
    Concur o.Good (outside i (span ++ rest))
      (o.stretches i (i + span.length) ++ outside (i + span.length) rest) := by
  generalize hs : span ++ rest = s at h hhead
  cases s with
  | nil =>
    obtain ⟨rfl, rfl⟩ := List.append_eq_nil_iff.mp hs
    cases h
    exact .of_eq rfl
  | cons c cs =>
    unfold cutToken at h
    dsimp only at h
    split at h
    · next hc =>
      subst hc
      rw [← hs]
      exact concur_quoted i h hs.symm
    · next hquote =>
      split at h
      · next k tail ht =>
        obtain ⟨r, rfl⟩ := tail_isPrefix ht
        obtain ⟨rfl, hr⟩ := Prod.mk.inj h
        rw [List.drop_left] at hr
        subst hr
        obtain rfl : span = c :: tail := List.append_cancel_right (hs.trans (List.cons_append ..).symm)
        by_cases hk : k = .newline
        · subst hk
          have hblank : ∀ d ∈ c :: tail, isBlank d := by
            intro d hd
            rw [newlines_of_tail ht d hd]
            rfl
          exact .of_eq (outside_blanks hblank i r)
        · refine .of_eq ?_
          rw [← List.cons_append, Coloring.outside_lexeme i ht hk, Outcome.stretches,
            Outcome.stretch?, stretch_of_tail ht hk]
          rfl
      · next ht =>
        obtain ⟨rfl, rfl⟩ := Prod.mk.inj h
        obtain rfl : span = [c] := List.append_cancel_right hs
        have hinert : Coloring.isInert c := by simpa [Coloring.isInert, hquote] using hhead
        exact ⟨Coloring.regions_cons hinert i cs, fun hgood => absurd hgood (Outcome.not_good _)⟩

theorem stretch_bare (o : Outcome) : o.bare.stretch? = o.stretch? := by
  cases o <;> rfl

theorem good_bare (o : Outcome) (h : o.Good) : o.bare.Good := by
  obtain ⟨t, rfl⟩ := h
  exact ⟨t.bare, rfl⟩

/-- A comment is skipped, so none begins behind a gap. -/
theorem head_splitGap (cs : List Char) : (splitGap false cs).2.head? ≠ some '#' := by
  have hgap := splitGap_splitGap false cs
  intro h
  obtain ⟨rest, hrest⟩ := List.head?_eq_some_iff.mp h
  rw [hrest] at hgap
  cases hgap

namespace Cursor

/-- One call, as it is coloured. -/
theorem concur_call (text : String) (n : Nat) :
    Concur (call text n).Good (outside (after text n).current (after text n).rest)
      (callStretches text n ++ outside (after text (n + 1)).current (after text (n + 1)).rest) := by
  have hhead : (span text n ++ (after text (n + 1)).rest).head? ≠ some '#' := by
    rw [← (takes_call text n).rest]
    exact head_splitGap (after text n).rest
  have hcut := concur_cut (after text (n + 1)).start (cutToken_call text n) hhead
  rw [← current_after, Outcome.stretches, stretch_bare] at hcut
  have hgap := outside_gap (isGap_call text n) (after text n).current
  rw [← start_after, ← List.append_assoc, ← rest_after] at hgap
  rw [hgap, callStretches, List.append_assoc]
  exact (hcut.mono (good_bare _)).append _

/-- The first calls, as they are coloured, and what is left to colour. -/
theorem concur_calls (text : String) (n : Nat) :
    Concur (∀ m < n, (call text m).Good) (outside 0 text.toList)
      (firstStretches text n ++ outside (after text n).current (after text n).rest) := by
  induction n with
  | zero => exact .of_eq rfl
  | succ n ih =>
    have hnext := (concur_call text n).append (firstStretches text n)
    have hstretches : firstStretches text (n + 1) = firstStretches text n ++ callStretches text n := by
      simp [firstStretches, List.range_succ]
    rw [hstretches, List.append_assoc]
    refine (ih.trans hnext).mono ?_
    intro h
    exact ⟨fun m hm => h m (by omega), h n (by omega)⟩

/-- A text that is cut without errors: every call gives a token, also behind the end. -/
theorem good_of_outcomes {text : String} (h : ∀ o ∈ (ofText text).outcomes, o.Good) (n : Nat) :
    (call text n).Good := by
  obtain ⟨k, hk⟩ := exists_end text
  rw [outcomes_eq_calls hk] at h
  have hle : ∀ m ≤ k, (call text m).Good := fun m hm =>
    h _ (List.mem_map_of_mem (List.mem_range.mpr (by omega)))
  rcases Nat.le_total n k with hn | hn
  · exact hle n hn
  · rw [(after_end hk.ends hn).1]
    exact hle k (Nat.le_refl k)

end Cursor

/-- A text with newlines as line ends, none at the start and one at the end, and without a byte order
mark. -/
structure IsPrepared (cs : List Char) : Prop where
  no_return : '\r' ∉ cs
  no_newline : cs.head? ≠ some '\n'
  no_mark : cs.head? ≠ some '\ufeff'
  one_newline : ∃ body, cs = body ++ ['\n'] ∧ body.getLast? ≠ some '\n'

theorem unifyLineEnds_of_not_mem {cs : List Char} (h : '\r' ∉ cs) : Text.unifyLineEnds cs = cs := by
  fun_induction Text.unifyLineEnds cs with
  | case1 => rfl
  | case2 cs ih => simp at h
  | case3 cs _ ih => simp at h
  | case4 c cs _ _ ih =>
    rw [ih fun hc => h (List.mem_cons_of_mem c hc)]

theorem dropMark_of_head {cs : List Char} (h : cs.head? ≠ some '\ufeff') :
    Coloring.dropMark cs = cs := by
  unfold Coloring.dropMark
  split
  · exact absurd rfl h
  · rfl

theorem dropWhile_newline {cs : List Char} (h : cs.head? ≠ some '\n') :
    cs.dropWhile (· = '\n') = cs := by
  cases cs with
  | nil => rfl
  | cons c cs =>
    have hc : c ≠ '\n' := by simpa using h
    simp [hc]

theorem IsPrepared.prepare_eq {cs : List Char} (h : IsPrepared cs) : Coloring.prepare cs = cs := by
  obtain ⟨body, rfl, hlast⟩ := h.one_newline
  have hbody : body.reverse.head? ≠ some '\n' := by rwa [List.head?_reverse]
  have hreverse : (body ++ ['\n']).reverse.dropWhile (· = '\n') = body.reverse := by
    rw [List.reverse_append, List.reverse_singleton, List.singleton_append,
      List.dropWhile_cons_of_pos rfl, dropWhile_newline hbody]
  rw [Coloring.prepare, dropMark_of_head h.no_mark, unifyLineEnds_of_not_mem h.no_return,
    Coloring.stripNewlines, dropWhile_newline h.no_newline, hreverse, List.reverse_reverse]

open Cursor (call FirstEnd firstStretches)

theorem rest_after_end {text : String} {k : Nat} (hk : FirstEnd text k) :
    (Cursor.after text (k + 1)).rest = [] := by
  obtain ⟨hrest, -, hafter⟩ := (Cursor.takes_call text k).of_isEnd hk.ends
  rw [hafter, hrest]

/-- Nothing is wrong with what calls take that give tokens. -/
theorem error_not_mem_firstStretches {text : String} {n : Nat} (h : ∀ m < n, (call text m).Good)
    {s : Stretch} (hs : s ∈ firstStretches text n) : s.kind ≠ .error := by
  obtain ⟨m, hm, hs⟩ := List.mem_flatMap.mp hs
  obtain ⟨t, ht⟩ := h m (List.mem_range.mp hm)
  rw [Cursor.callStretches, ht] at hs
  rcases List.mem_append.mp hs with hs | hs
  · unfold gapStretches at hs
    split_ifs at hs
    · simp [List.mem_singleton.mp hs]
    · cases hs
  · obtain ⟨kind, hkind, rfl⟩ := Option.map_eq_some_iff.mp (Option.mem_toList.mp hs)
    rintro rfl
    exact t.kind.stretch_ne_error hkind

/-- The strings and comments of a coloured text are the strings, good or not, that the calls take and
the comments that they skip. If every call gives a token, nothing is coloured as wrong, and the other
stretches are the other lexemes in their order. -/
theorem colored_as_cut {text : String} (h : IsPrepared text.toList) :
    Coloring.prepare text.toList = text.toList ∧ ∃ k, FirstEnd text k ∧
      (Coloring.stretches none 0 (Coloring.ofText text)).filter Stretch.isRegion =
        (firstStretches text (k + 1)).filter Stretch.isRegion ∧
      ((∀ n ≤ k, (call text n).Good) →
        (∀ p ∈ Coloring.ofText text, p.kind ≠ .error) ∧
          Coloring.stretches none 0 (Coloring.ofText text) = firstStretches text (k + 1)) := by
  obtain ⟨k, hk⟩ := Cursor.exists_end text
  have hcolored : Coloring.stretches none 0 (Coloring.ofText text) = outside 0 text.toList := by
    rw [Coloring.ofText, h.prepare_eq]
    rfl
  have hcalls := Cursor.concur_calls text (k + 1)
  rw [rest_after_end hk, Coloring.outside_nil, List.append_nil, ← hcolored] at hcalls
  refine ⟨h.prepare_eq, k, hk, hcalls.regions, fun hgood => ?_⟩
  have hgood' : ∀ m < k + 1, (call text m).Good := fun m hm => hgood m (by omega)
  have hall := hcalls.all hgood'
  refine ⟨?_, hall⟩
  intro p hp herror
  obtain ⟨s, hs, hkind⟩ := Coloring.error_mem_stretches herror hp none 0
  rw [hall] at hs
  exact error_not_mem_firstStretches hgood' hs hkind

/-- A string with what looks like a comment in it, and a comment with a quote in it. -/
theorem colored_as_cut_comment :
    IsPrepared "x \"#\" # \"\n".toList ∧
      Coloring.stretches none 0 (Coloring.ofText "x \"#\" # \"\n") =
        [⟨.lexeme, 0, 1⟩, ⟨.quoted, 2, 5⟩, ⟨.comment, 6, 9⟩] := by
  have hprepared : IsPrepared "x \"#\" # \"\n".toList :=
    ⟨by decide, by decide, by decide, "x \"#\" # \"".toList, by decide, by decide⟩
  have hgood : ∀ n ≤ 3, (call "x \"#\" # \"\n" n).Good := by decide +kernel
  have hend : ∀ n ≤ 3, (call "x \"#\" # \"\n" n).isEnd = decide (n = 3) := by decide +kernel
  have hcalls : firstStretches "x \"#\" # \"\n" 4 =
      [⟨.lexeme, 0, 1⟩, ⟨.quoted, 2, 5⟩, ⟨.comment, 6, 9⟩] := by decide +kernel
  obtain ⟨-, k, hk, -, hall⟩ := colored_as_cut hprepared
  have hle : k ≤ 3 := by
    by_contra h
    have hproceeds := hk.proceeds 3 (by omega)
    rw [hend 3 (Nat.le_refl 3)] at hproceeds
    cases hproceeds
  have hends := hk.ends
  rw [hend k hle] at hends
  obtain rfl := of_decide_eq_true hends
  exact ⟨hprepared, (hall hgood).2.trans hcalls⟩

end ArrowLang
