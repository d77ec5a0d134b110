import ArrowLang.Proofs.Alike
import ArrowLang.Proofs.Lookahead
import ArrowLang.Proofs.Positions

/-!
# Layout means nothing

Blanks that are inserted between two tokens, and comments at the end of a line, change the columns of
what a text is cut into and nothing else. So the text is read as before.
-/
namespace ArrowLang

open Lexeme

/-- Text that may be inserted in front of `z`. -/
inductive Filler : List Char → List Char → Prop where
  | blanks {w z : List Char} : (∀ c ∈ w, c = ' ' ∨ c = '\t' ∨ c = '\r') → Filler w z
  | comment {words z : List Char} : '\n' ∉ words → z = [] ∨ z.head? = some '\n' →
      Filler ('#' :: words) z

theorem Filler.eq_nil_or_cons {w z : List Char} (h : Filler w z) :
    w = [] ∨ ∃ g y, w = g :: y ∧ Severs g ∧ g ≠ '\n' := by
  cases h with
  | comment _ _ => exact .inr ⟨'#', _, rfl, by simp [Severs], by decide⟩
  | blanks hw =>
    cases w with
    | nil => exact .inl rfl
    | cons c w =>
      refine .inr ⟨c, w, rfl, ?_⟩
      rcases hw c List.mem_cons_self with rfl | rfl | rfl <;> simp [Severs]

/-- Behind a lexeme, characters between it and `z` or not, the insertion changes nothing. -/
theorem Filler.replaces {w z : List Char} (h : Filler w z) (a : List Char) :
    Replaces (a ++ z) (a ++ w ++ z) := by
  rw [List.append_assoc]
  rcases h.eq_nil_or_cons with rfl | ⟨g, y, rfl, hg, -⟩
  · exact .refl _
  · exact replaces_append a z hg _

/-- The insertion puts no newline behind a run of newlines. -/
theorem Filler.head_newline {w z : List Char} (h : Filler w z) (a : List Char)
    (hn : (a ++ w ++ z).head? = some '\n') : (a ++ z).head? = some '\n' := by
  cases a with
  | cons c a => exact hn
  | nil =>
    rcases h.eq_nil_or_cons with rfl | ⟨g, y, rfl, -, hg⟩
    · exact hn
    · exact absurd (Option.some.inj hn) hg

theorem splitGap_true {w z : List Char} (hw : '\n' ∉ w) (hz : z = [] ∨ z.head? = some '\n') :
    (splitGap true (w ++ z)).2 = z := by
  induction w with
  | nil =>
    rcases hz with rfl | hz
    · rfl
    · obtain ⟨z, rfl⟩ := List.head?_eq_some_iff.mp hz
      simp [splitGap, isGapChar]
  | cons c w ih =>
    obtain ⟨hc, hw⟩ := not_or.mp (List.mem_cons.not.mp hw)
    rw [List.cons_append, splitGap, if_pos (by simp [Ne.symm hc])]
    exact ih hw

/-- A gap takes the insertion in. -/
theorem Filler.splitGap_eq {w z : List Char} (h : Filler w z) :
    (splitGap false (w ++ z)).2 = (splitGap false z).2 := by
  cases h with
  | blanks hw =>
    induction w with
    | nil => rfl
    | cons c w ih =>
      have hc : isGapChar c := by
        have hc := hw c List.mem_cons_self
        simp only [isGapChar, Bool.or_eq_true, decide_eq_true_eq]
        tauto
      rw [List.cons_append, splitGap, if_pos (by simp [hc])]
      exact ih fun d hd => hw d (List.mem_cons_of_mem c hd)
  | comment hw hz =>
    have hz' : (splitGap false z).2 = z := by
      rcases hz with rfl | hz
      · rfl
      · obtain ⟨z, rfl⟩ := List.head?_eq_some_iff.mp hz
        simp [splitGap, isGapChar]
    rw [List.cons_append, splitGap, if_neg (by simp [isGapChar]), if_pos rfl, hz']
    exact splitGap_true hw hz

/-- At the end of the text it does so even inside of a comment. -/
theorem Filler.splitGap_end {w a : List Char} (h : Filler w []) {b : Bool}
    (ha : (splitGap b a).2 = []) : (splitGap b (a ++ w)).2 = [] := by
  have hn : '\n' ∉ w := by
    cases h with
    | blanks hw =>
      intro hm
      have hc := hw _ hm
      simp at hc
    | comment hw _ => simpa using hw
  fun_induction splitGap b a with
  | case1 b =>
    cases b with
    | false =>
      have hg := h.splitGap_eq
      rwa [List.append_nil] at hg
    | true => simpa using splitGap_true hn (.inl rfl)
  | case2 b c cs hc gap rest hr ih =>
    rw [List.cons_append, splitGap, if_pos hc]
    exact ih (by simpa [hr] using ha)
  | case3 b cs gap rest hr hc ih =>
    rw [List.cons_append, splitGap, if_neg hc, if_pos rfl]
    exact ih (by simpa [hr] using ha)
  | case4 b c cs hc hc' => simp at ha

namespace Outcome

/-- What is cut, with the line of a token but without the rest of its position. -/
def lined : Outcome → Outcome
  | .ok t => .ok { t with col := 0 }
  | .error e => .error e.bare

theorem bare_lined (o : Outcome) : o.lined.bare = o.bare := by
  cases o <;> rfl

theorem lined_eq {o o' : Outcome} (hb : o.bare = o'.bare)
    (hl : ∀ t t', o = .ok t → o' = .ok t' → t.line = t'.line) : o.lined = o'.lined := by
  rcases o with e | t <;> rcases o' with e' | t'
  · exact hb
  · cases hb
  · cases hb
  · obtain ⟨hk, hx⟩ := Token.bare_eq_iff.mp (Except.ok.inj hb)
    have hline := hl t t' rfl rfl
    cases t
    cases t'
    simp_all [lined]

end Outcome

namespace Cursor

variable {s s' : Cursor}

/-- A call at either cursor gives the same and leaves off on the same line. -/
def Agree (s s' : Cursor) : Prop :=
  Outcome.lined s.next.1 = Outcome.lined s'.next.1 ∧ s.next.2.line = s'.next.2.line

/-- The line behind a call depends on the line before it and on the span alone. -/
theorem agree_of_span {span : List Char} (hline : s.line = s'.line)
    (hs : s.skipGap.rest = span ++ s.next.2.rest) (hs' : s'.skipGap.rest = span ++ s'.next.2.rest)
    (hb : Outcome.bare s.next.1 = Outcome.bare s'.next.1) : Agree s s' := by
  obtain ⟨x, ht⟩ := takes_token s.skipGap
  obtain ⟨x', ht'⟩ := takes_token s'.skipGap
  obtain rfl : x = span := List.append_cancel_right (ht.rest.symm.trans hs)
  obtain rfl : x' = x := List.append_cancel_right (ht'.rest.symm.trans hs')
  have hv : s.next.2.line = s'.next.2.line := by
    have h₁ := ht.behind.1
    have h₂ := ht'.behind.1
    change s.next.2.line + _ = s.line + _ at h₁
    change s'.next.2.line + _ = s'.line + _ at h₂
    omega
  refine ⟨Outcome.lined_eq hb fun t t' h h' => ?_, hv⟩
  have hp : s.skipGap.Takes x' (.ok t) s.next.2 := h ▸ ht
  have hp' : s'.skipGap.Takes x' (.ok t') s'.next.2 := h' ▸ ht'
  exact (congrArg Prod.fst hp.place_eq).trans (hv.trans (congrArg Prod.fst hp'.place_eq).symm)

/-- Behind their gaps the cursors see the same text. -/
theorem agree_of_gap (hline : s.line = s'.line) (hg : s.skipGap.rest = s'.skipGap.rest) :
    Agree s s' ∧ s.next.2.rest = s'.next.2.rest := by
  have hcut : cut s.rest = cut s'.rest := congrArg cutToken hg
  have hb := bare_next s
  have hb' := bare_next s'
  have hrest : s.next.2.rest = s'.next.2.rest :=
    (congrArg Prod.snd hb).trans ((congrArg Prod.snd hcut).trans (congrArg Prod.snd hb').symm)
  obtain ⟨span, ht⟩ := takes_token s.skipGap
  refine ⟨agree_of_span hline ht.rest ?_ ?_, hrest⟩
  · rw [← hg, ← hrest]
    exact ht.rest
  · exact (congrArg Prod.fst hb).trans ((congrArg Prod.fst hcut).trans (congrArg Prod.fst hb').symm)

/-- The second cursor has an insertion ahead, in front of `z`. -/
def Apart (w z : List Char) (s s' : Cursor) : Prop :=
  s.line = s'.line ∧ ∃ a, s.rest = a ++ z ∧ s'.rest = a ++ w ++ z

/-- A call that stays in front of the insertion. -/
theorem Apart.next {w z : List Char} (h : Apart w z s s') (hw : Filler w z)
    (hz : z <:+ s.next.2.rest) (ho : Outcome.isEnd s.next.1 = false)
    (hu : Outcome.bare s.next.1 ≠ .error ⟨.unterminatedString, 0, 0⟩) :
    Agree s s' ∧ Apart w z s.next.2 s'.next.2 := by
  obtain ⟨hline, a, hs, hs'⟩ := h
  obtain ⟨b, hb⟩ := hz
  obtain ⟨span, ht⟩ := takes_token s.skipGap
  have hne := ht.ne_nil ho
  have hspan : s.skipGap.rest = span ++ (b ++ z) := hb ▸ ht.rest
  rcases hg : splitGap false s.rest with ⟨gap, x⟩
  obtain rfl : x = span ++ (b ++ z) := (congrArg Prod.snd hg).symm.trans hspan
  have happ : gap ++ (span ++ (b ++ z)) = s.rest := by
    simpa only [hg] using splitGap_append false s.rest
  obtain rfl : a = gap ++ span ++ b := by
    have happ : a ++ z = gap ++ span ++ b ++ z := by
      rw [← hs, ← happ]
      simp
    exact List.append_cancel_right happ
  have hcut : cutToken (span ++ (b ++ z)) = (Outcome.bare s.next.1, s.next.2.rest) := by
    rw [← hspan]
    exact (bare_next s).symm
  rw [← hb] at hcut
  obtain ⟨c, tail, rfl⟩ := List.exists_cons_of_ne_nil hne
  have hcut' := cutToken_replaces (hw.replaces b) (fun _ => hw.head_newline b) hcut hu
  have hg' : splitGap false s'.rest = (gap, c :: tail ++ (b ++ w ++ z)) := by
    rw [hs', show gap ++ (c :: tail) ++ b ++ w ++ z = gap ++ (c :: tail ++ (b ++ w ++ z)) by simp]
    rw [← happ] at hg
    exact splitGap_head hg rfl
  have hnext : (Outcome.bare s'.next.1, s'.next.2.rest) =
      (Outcome.bare s.next.1, b ++ w ++ z) := by
    rw [bare_next, cut, hg', hcut']
  have hrest : s'.next.2.rest = b ++ w ++ z := congrArg Prod.snd hnext
  have hag : Agree s s' :=
    agree_of_span hline ht.rest (hrest ▸ congrArg Prod.snd hg') (congrArg Prod.fst hnext).symm
  exact ⟨hag, hag.2, b, hb.symm, hrest⟩

/-- The text with an insertion behind its first `p` characters. -/
def inserted (text : String) (p : Nat) (w : List Char) : String :=
  String.ofList (text.toList.take p ++ w ++ text.toList.drop p)

section
variable {text : String} {m : Nat} {w : List Char}

theorem rest_after_suffix (text : String) {m n : Nat} (h : m ≤ n) :
    (after text n).rest <:+ (after text m).rest := by
  induction n, h using Nat.le_induction with
  | base => exact List.suffix_rfl
  | succ n _ ih => exact List.IsSuffix.trans ⟨_, (rest_after text n).symm⟩ ih

theorem apart_start (text : String) (m : Nat) (w : List Char) :
    Apart w (after text m).rest (ofText text) (ofText (inserted text (after text m).current w)) := by
  have hz := (stands_after text m).rest_eq.1
  refine ⟨rfl, text.toList.take (after text m).current, ?_, ?_⟩
  · rw [hz, List.take_append_drop]
    rfl
  · rw [hz]
    exact String.toList_ofList

/-- The cursor stays in front of the insertion up to the call behind which that stands, unless the
text ends before. -/
theorem apart_after (hw : Filler w (after text m).rest) {n : Nat} (hn : n ≤ m)
    (ho : ∀ i < n, (call text i).isEnd = false)
    (hu : ∀ i, (call text i).bare ≠ .error ⟨.unterminatedString, 0, 0⟩) :
    Apart w (after text m).rest (after text n)
        (after (inserted text (after text m).current w) n) ∧
      ∀ i < n, Agree (after text i) (after (inserted text (after text m).current w) i) := by
  induction n with
  | zero => exact ⟨apart_start text m w, fun i hi => absurd hi (Nat.not_lt_zero i)⟩
  | succ n ih =>
    obtain ⟨hap, hag⟩ := ih (by omega) fun i hi => ho i (by omega)
    obtain ⟨hnext, hap⟩ := hap.next hw (rest_after_suffix text hn) (ho n (Nat.lt_succ_self n)) (hu n)
    refine ⟨hap, fun i hi => ?_⟩
    rcases Nat.lt_succ_iff_lt_or_eq.mp hi with hi | rfl
    · exact hag i hi
    · exact hnext

/-- Behind the call that takes the insertion in, both cursors are alike. -/
theorem agree_of_le {new : String} {j : Nat} (hline : (after text j).line = (after new j).line)
    (hg : (after text j).skipGap.rest = (after new j).skipGap.rest) {n : Nat} (hn : j ≤ n) :
    Agree (after text n) (after new n) := by
  suffices h : (after text n).line = (after new n).line ∧
      (after text n).skipGap.rest = (after new n).skipGap.rest from (agree_of_gap h.1 h.2).1
  induction n, hn using Nat.le_induction with
  | base => exact ⟨hline, hg⟩
  | succ n _ ih =>
    obtain ⟨hag, hrest⟩ := agree_of_gap ih.1 ih.2
    exact ⟨hag.2, congrArg (fun l => (splitGap false l).2) hrest⟩

/-- All calls on the text with the insertion give what they gave. -/
theorem agree_after (hw : Filler w (after text m).rest)
    (hu : ∀ i, (call text i).bare ≠ .error ⟨.unterminatedString, 0, 0⟩) (n : Nat) :
    Agree (after text n) (after (inserted text (after text m).current w) n) := by
  obtain ⟨k, hk⟩ := exists_end text
  -- the insertion is taken in by the call behind it, or by the one that finds the end
  obtain ⟨hap, hag⟩ := apart_after hw (Nat.min_le_left m k)
    (fun i hi => hk.proceeds i (by omega)) hu
  rcases Nat.lt_or_ge n (min m k) with hn | hn
  · exact hag n hn
  refine agree_of_le hap.1 ?_ hn
  obtain ⟨-, a, ha, ha'⟩ := hap
  change (splitGap false _).2 = (splitGap false _).2
  rw [ha']
  by_cases hmk : m ≤ k
  · rw [Nat.min_eq_left hmk] at ha ⊢
    obtain rfl : a = [] := List.append_left_eq_self.mp ha.symm
    exact hw.splitGap_eq.symm
  · have hkm : k ≤ m := by omega
    rw [Nat.min_eq_right hkm] at ha ⊢
    obtain ⟨hrest, -, hv⟩ := (takes_call text k).of_isEnd hk.ends
    have hz : (after text m).rest = [] := by
      have hs := rest_after_suffix text (show k + 1 ≤ m by omega)
      rw [hv, hrest] at hs
      exact List.suffix_nil.mp hs
    rw [hz] at ha hw ⊢
    rw [List.append_nil] at ha ⊢
    have hrest : (splitGap false (after text k).rest).2 = [] := hrest
    rw [hrest]
    rw [ha] at hrest
    exact (hw.splitGap_end hrest).symm

end

theorem lined_outcomes {text new : String} (h : ∀ n, Agree (after text n) (after new n)) :
    (ofText new).outcomes.map Outcome.lined = (ofText text).outcomes.map Outcome.lined := by
  obtain ⟨k, hk⟩ := exists_end text
  have hcall : ∀ n, (call text n).lined = (call new n).lined := fun n => (h n).1
  have hisEnd : ∀ n, (call new n).isEnd = (call text n).isEnd := by
    intro n
    rw [← Outcome.isEnd_bare, ← Outcome.bare_lined, ← hcall, Outcome.bare_lined,
      Outcome.isEnd_bare]
  have hk' : FirstEnd new k := ⟨(hisEnd k).trans hk.ends, fun i hi => (hisEnd i).trans (hk.proceeds i hi)⟩
  rw [outcomes_eq_calls hk, outcomes_eq_calls hk', List.map_map, List.map_map]
  exact List.map_congr_left fun n _ => (hcall n).symm

end Cursor

namespace Program

/-- What is read depends on the cuts alone, up to positions, as long as no error of a string gets
lost. -/
theorem read_congr {stack : Nat} {a b : String} (h : lex a.toList = lex b.toList)
    (hl : ∀ o, Loses stack a o → o.inString = false) {p : Program} (hp : read stack a = .ok p) :
    ∃ q, read stack b = .ok q ∧ q.decls.map Decl.bare = p.decls.map Decl.bare ∧
      q.diagnostics.map Diagnostic.bare = p.diagnostics.map Diagnostic.bare := by
  obtain ⟨hds, hdg⟩ := read_eq_ok hp
  have hrest : (Window.ofText b).rest.map Outcome.bare = (Window.ofText a).rest.map Outcome.bare := by
    rw [Window.rest_ofText, Window.rest_ofText, Cursor.bare_outcomes_ofText,
      Cursor.bare_outcomes_ofText, h]
  have hstart : Echoes [] (Window.start b) (Window.start a) :=
    (Echoes.of_rest (show TokenKind.absent ≠ .endOfText by decide)
      (show TokenKind.absent ≠ .endOfText by decide) hrest rfl).skipNewlines
  obtain ⟨hforms, hreported⟩ := hstart.forms hl
  obtain ⟨ds, hds', hbare⟩ := bareDecls_eq_ok hforms.symm hds
  refine ⟨⟨ds, (Window.read stack b).2.diagnostics.toList⟩, ?_, hbare, ?_⟩
  · rw [read_eq, Window.read, hds']
    rfl
  · rw [hdg]
    exact (hreported ds hds').symm

/-- Text in which blanks, or a comment up to the end of the line, are inserted behind any call is cut
into the same on the same lines, and read as it was read, unless the stack runs out where an error of
a string is to be built. -/
theorem read_inserted {stack : Nat} {text : String} {n : Nat} {w : List Char}
    (hclosed : ∀ e, .error e ∈ (Cursor.ofText text).outcomes → e.fault ≠ .unterminatedString)
    (hw : Filler w (text.toList.drop (Cursor.after text n).current))
    (hl : ∀ o, Loses stack text o → o.inString = false) :
    let new := Cursor.inserted text (Cursor.after text n).current w
    (Cursor.ofText new).outcomes.map Outcome.lined =
        (Cursor.ofText text).outcomes.map Outcome.lined ∧
      ∀ p, read stack text = .ok p → ∃ q, read stack new = .ok q ∧
        q.decls.map Decl.bare = p.decls.map Decl.bare ∧
        q.diagnostics.map (fun d => (d.code, d.message)) =
          p.diagnostics.map fun d => (d.code, d.message) := by
  intro new
  have hu : ∀ i, (Cursor.call text i).bare ≠ .error ⟨.unterminatedString, 0, 0⟩ := by
    intro i hi
    obtain ⟨e, he, hbare⟩ := Outcome.bare_eq_error hi
    refine hclosed e ?_ (congrArg LexicalError.fault hbare)
    obtain ⟨k, hk⟩ := Cursor.exists_end text
    rw [Cursor.outcomes_eq_calls hk, List.mem_map]
    refine ⟨i, List.mem_range.mpr (Nat.lt_succ_of_le ?_), he⟩
    by_contra hik
    rw [(Cursor.after_end hk.ends (by omega)).1] at he
    have hend := hk.ends
    rw [he] at hend
    cases hend
  have hlined := Cursor.lined_outcomes
    (Cursor.agree_after ((Cursor.stands_after text n).rest_eq.1 ▸ hw) hu)
  refine ⟨hlined, fun p hp => ?_⟩
  have hlex : lex text.toList = lex new.toList := by
    have h := congrArg (List.map Outcome.bare) hlined
    rw [List.map_map, List.map_map, show Outcome.bare ∘ Outcome.lined = Outcome.bare from
      funext Outcome.bare_lined, Cursor.bare_outcomes, Cursor.bare_outcomes] at h
    exact h.symm
  obtain ⟨q, hq, hdecls, hdiags⟩ := read_congr hlex hl hp
  refine ⟨q, hq, hdecls, ?_⟩
  have h := congrArg (List.map fun d : Diagnostic => (d.code, d.message)) hdiags
  simpa [List.map_map, Function.comp_def, Diagnostic.code_bare, Diagnostic.message_bare] using h

/-- A comment between a point that no number has and the newline. -/
theorem read_inserted_comment :
    (Cursor.ofText "3.#c\n").outcomes.map Outcome.lined =
        (Cursor.ofText "3.\n").outcomes.map Outcome.lined ∧
      ∃ p q, read 20 "3.\n" = .ok p ∧ read 20 "3.#c\n" = .ok q ∧
        q.decls.map Decl.bare = p.decls.map Decl.bare ∧
        q.diagnostics.map (fun d => (d.code, d.message)) =
          [("E101", "Unrecognised character '.'.")] := by
  have hnew : Cursor.inserted "3.\n" (Cursor.after "3.\n" 2).current ['#', 'c'] = "3.#c\n" := by cbv
  have hcuts : (Cursor.ofText "3.\n").outcomes = [.ok ⟨.number, "3", 1, 1⟩,
      .error ⟨.unrecognizedCharacter ".", 1, 2⟩, .ok ⟨.newline, "\n", 2, 0⟩,
      .ok ⟨.endOfText, "", 2, 0⟩] := by cbv
  have hread : read 20 "3.\n" = .ok ⟨[.evaluated (.of (.literal (.int 3)))],
      [.lexical (.unrecognizedCharacter ".") 1 2]⟩ := by cbv
  have hclosed : ∀ e, .error e ∈ (Cursor.ofText "3.\n").outcomes → e.fault ≠ .unterminatedString := by
    rw [hcuts]
    simp
  have hw : Filler ['#', 'c'] ("3.\n".toList.drop (Cursor.after "3.\n" 2).current) :=
    .comment (by decide) (.inr (by cbv))
  obtain ⟨hlined, hsame⟩ := read_inserted hclosed hw
    (fun o ho => absurd ho (not_loses hread (by simp) o))
  rw [hnew] at hlined hsame
  obtain ⟨q, hq, hdecls, hdiags⟩ := hsame _ hread
  exact ⟨hlined, _, q, hread, hq, hdecls, hdiags⟩

/-- Where an error of a string is lost, what is inserted behind the string is read as part of one. -/
theorem read_inserted_lost :
    Cursor.inserted "-x\"\\q\"\n\"a\"" (Cursor.after "-x\"\\q\"\n\"a\"" 3).current ['#', '"'] =
        "-x\"\\q\"#\"\n\"a\"" ∧
      ∃ p q, read 0 "-x\"\\q\"\n\"a\"" = .ok p ∧ read 0 "-x\"\\q\"#\"\n\"a\"" = .ok q ∧
        p.decls.map Decl.bare = [] ∧
        q.decls.map Decl.bare = [.evaluated (.of (.literal (.text "a")))] := by
  refine ⟨by cbv, ⟨[], [.grammar .nestingTooDeep ⟨.identifier, "x", 1, 2⟩,
      .lexical .unterminatedString 2 3]⟩, ⟨[.evaluated (.of (.literal (.text "a")))],
      [.grammar .nestingTooDeep ⟨.identifier, "x", 1, 2⟩]⟩, ?_, ?_, rfl, rfl⟩
  · cbv
  · cbv

end Program
end ArrowLang
