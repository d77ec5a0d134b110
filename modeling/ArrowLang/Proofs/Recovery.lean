import ArrowLang.Proofs.Overruns
import Mathlib.Data.List.DropRight

/-!
# Where a fault ends

A text without brackets and strings, joined by a newline with lines behind it, leaves their forms
alone, unless its own reading overruns the newline that ends it: then the first line behind it is
lost, whatever it is.
-/
namespace ArrowLang

open Reading (declaration expression)

/-- The text without the newlines at its end. -/
def trimmed (a : String) : String := String.ofList (a.toList.rdropWhile (· = '\n'))

/-- A text of which every form ends on its line: it has no bracket and no string. -/
def Inline (a : String) : Prop := ∀ c ∈ a.toList, c ≠ '"' ∧ c ≠ '(' ∧ c ≠ '[' ∧ c ≠ '\x7b'

instance (a : String) : Decidable (Inline a) := List.decidableBAll _ _

theorem toList_trimmed (a : String) : (trimmed a).toList = a.toList.rdropWhile (· = '\n') := by
  simp [trimmed]

theorem newlines_append_cons {l : List Char} (h : ∀ c ∈ l, c = '\n') (x : List Char) :
    l ++ '\n' :: x = '\n' :: (l ++ x) := by
  induction l with
  | nil => rfl
  | cons c l ih =>
    obtain rfl := h c (by simp)
    rw [List.cons_append, ih fun c hc => h c (by simp [hc]), List.cons_append]

/-- Newlines at the end of the first text stand behind the join as well. -/
theorem toList_join (a b : String) : ∃ b' : List Char,
    (a ++ "\n" ++ b).toList = (trimmed a).toList ++ '\n' :: b' ∧
      b'.dropWhile (· = '\n') = b.toList.dropWhile (· = '\n') := by
  have hn : ∀ c ∈ a.toList.rtakeWhile (· = '\n'), c = '\n' := fun c hc => by
    simpa using List.mem_rtakeWhile_imp hc
  refine ⟨a.toList.rtakeWhile (· = '\n') ++ b.toList, ?_, ?_⟩
  · calc (a ++ "\n" ++ b).toList
        = a.toList ++ '\n' :: b.toList := by simp
      _ = (a.toList.rdropWhile (· = '\n') ++ a.toList.rtakeWhile (· = '\n')) ++
          '\n' :: b.toList := by rw [List.rdropWhile_append_rtakeWhile]
      _ = (trimmed a).toList ++ '\n' :: (a.toList.rtakeWhile (· = '\n') ++ b.toList) := by
        rw [List.append_assoc, newlines_append_cons hn, toList_trimmed]
  · exact List.dropWhile_append_of_pos (by simpa using hn)

theorem trimmed_last (a : String) : ¬ ['\n'] <:+ (trimmed a).toList := by
  rw [toList_trimmed]
  rintro ⟨l, hl⟩
  have hne : a.toList.rdropWhile (· = '\n') ≠ [] := by simp [← hl]
  refine List.rdropWhile_last_not _ _ hne ?_
  simp [← hl]

theorem inline_trimmed {a : String} (h : Inline a) : Inline (trimmed a) := by
  intro c hc
  rw [toList_trimmed] at hc
  exact h c (List.IsPrefix.mem hc (List.rdropWhile_prefix _ _))

theorem Inline.closed {a : String} (h : Inline a) : Closed a.toList := by
  intro hm
  obtain ⟨s, hs, ho⟩ := mem_lex hm
  exact (h _ (hs.mem (quote_of_unterminated ho))).1 rfl

/-- The text with one newline at its end in place of those that are there. -/
def newlined (a : String) : String := trimmed a ++ "\n"

/-- Only a quote can begin what is an error of a string. -/
theorem quote_of_inString {s : List Char} (h : (cutToken s).1.inString = true) : '"' ∈ s := by
  cases s with
  | nil => cases h
  | cons c s =>
    by_cases hc : c = '"'
    · simp [hc]
    · rw [cutToken, if_neg hc] at h
      split at h <;> cases h

theorem Inline.unbracketed {a : String} (h : Inline a) {o : Outcome} (ho : o ∈ lex a.toList) :
    Unbracketed o := by
  obtain ⟨s, hs, rfl⟩ := mem_lex ho
  refine ⟨fun t ht => ?_, ?_⟩
  · have key : ∀ c, t.kind.spelling? = some [c] → c ∈ a.toList := by
      intro c hc
      have hp := (spelling_of_cutToken ht hc).1
      exact hs.mem (hp.mem (List.mem_singleton_self c))
    refine ⟨fun hk => ?_, fun hk => ?_, fun hk => ?_⟩
    · exact (h _ (key '(' (by rw [hk]; rfl))).2.1 rfl
    · exact (h _ (key '[' (by rw [hk]; rfl))).2.2.1 rfl
    · exact (h _ (key '\x7b' (by rw [hk]; rfl))).2.2.2 rfl
  · cases hs' : (cutToken s).1.inString with
    | false => rfl
    | true => exact absurd rfl (h _ (hs.mem (quote_of_inString hs'))).1

/-- The junction of the lines of a text with those of `b`. -/
def lineJunction (b : String) : Junction where
  tail := lex (b.toList.dropWhile (· = '\n'))
  admits := Unbracketed
  ended := True

/-- The two runs begin side by side, and what is behind the junction is in the text of the second
one. -/
theorem Inline.start {a : String} (h : Inline a) (b : String) :
    (lineJunction b).InLine (Window.start (newlined a)) (Window.start (a ++ "\n" ++ b)) ∧
      Behind (a ++ "\n" ++ b).toList (b.toList.dropWhile (· = '\n')) := by
  have ht := inline_trimmed h
  obtain ⟨b', hc, hb⟩ := toList_join a b
  have joins : ∀ x : List Char, ∃ l y, lex (trimmed a).toList = l ++ [.ok textEnd] ∧
      (∀ o ∈ l, o.isEnd = false) ∧
      lex ((trimmed a).toList ++ '\n' :: x) = l ++ .ok (newlines y) :: lex (x.dropWhile (· = '\n')) ∧
      Behind ((trimmed a).toList ++ '\n' :: x) (x.dropWhile (· = '\n')) := by
    intro x
    obtain ⟨l, last, y, hlast, hl, hends, hrest⟩ := lex_join ht.closed x
    cases hlast with
    | bare => exact ⟨l, y, hl, hends, hrest⟩
    | newlines z hz => exact absurd hz (trimmed_last a)
  obtain ⟨l, y, hl, hends, hlj, hbehind⟩ := joins b'
  obtain ⟨l', y', hl', -, hlj', -⟩ := joins []
  obtain rfl := List.append_cancel_right (hl.symm.trans hl')
  have hlined : (newlined a).toList = (trimmed a).toList ++ ['\n'] := by simp [newlined]
  rw [← hc, hb] at hlj
  rw [← hlined, List.dropWhile_nil, lex_nil] at hlj'
  rw [← hc, hb] at hbehind
  refine ⟨Junction.Near.inLine trivial rfl ?_, hbehind⟩
  refine Junction.near_start (.newline rfl) (.mk rfl) ⟨?_, rfl⟩ hlj' hlj fun o ho => ⟨hends o ho, ?_⟩
  · rintro t ht
    obtain rfl := Except.ok.inj ht
    decide
  · exact ht.unbracketed (hl ▸ List.mem_append_left _ ho)

/-- Newlines that a text begins with are passed before its first turn. -/
theorem behind_start (b : String) :
    Behind (b.toList.dropWhile (· = '\n')) (Window.start b).cursor.rest := by
  have hstart := (Window.reaches_start b).behind (Behind.refl b.toList)
  rcases hb : b.toList with _ | ⟨c, cs⟩
  · rwa [hb] at hstart
  · by_cases hc : c = '\n'
    · subst hc
      have hn := (Cursor.ofText b).bare_next
      rw [Cursor.rest_ofText, hb, show cut ('\n' :: cs) = _ from cutToken_newline cs] at hn
      obtain ⟨ho, hr⟩ := Prod.mk.inj hn
      obtain ⟨t, ht, -⟩ := Outcome.bare_eq_ok ho
      have hadvance := Window.advance_of_ok (w := Window.ofText b)
        (show TokenKind.absent ≠ .endOfText by decide) (Prod.ext ht rfl)
      have hrest : (Window.ofText b).advance.cursor.rest = ('\n' :: cs).dropWhile (· = '\n') := by
        rw [hadvance, List.dropWhile_cons_of_pos (by simp)]
        exact hr
      exact (Window.reaches_skipNewlines _).behind (hrest ▸ Behind.refl _)
    · rw [List.dropWhile_cons_of_neg (by simpa using hc), ← hb]
      exact hstart

/-- A declaration of the text `a` fails behind the newline that ends it. -/
def Program.Overruns (stack : Nat) (a : String) : Prop :=
  (Window.start (newlined a)).Overruns (some (Window.ownFrames + stack)) (Window.ownFrames + stack)

/-- A name as a declaration. -/
def Token.alone (t : Token) : Decl := .evaluated (.of (.name t))

/-- Where the reading of a text overruns its end, the first of two lines behind it makes no
difference. -/
theorem Program.Overruns.swallowed {stack : Nat} {a : String} (h : Program.Overruns stack a)
    (ha : Inline a) : ∃ ds : List Decl, ∀ (b : String) (x n : Token), x.kind = .identifier →
      n.kind = .newline → lex (b.toList.dropWhile (· = '\n')) =
        [.ok x, .ok n, .ok ⟨.identifier, "y", 0, 0⟩, .ok textEnd] →
      ∃ r, Program.read stack (a ++ "\n" ++ b) = .ok r ∧
        r.decls.map Decl.bare = ds.map Decl.bare ++ [Token.alone ⟨.identifier, "y", 0, 0⟩] := by
  obtain ⟨ds, hds⟩ := Junction.InLine.skids h
  refine ⟨ds, fun b x n hx hn hlex => ?_⟩
  obtain ⟨ds', v, r, u, hvisits, hbare, hc, hd, hskids⟩ :=
    hds (lineJunction b) _ trivial rfl (ha.start b).1
  obtain ⟨hturn, hleft⟩ := hskids.turn hx hn rfl hlex hd
  rcases ht : v.turn (some (Window.ownFrames + stack)) (Window.ownFrames + stack) with ⟨d, w⟩
  rw [ht] at hturn hleft
  obtain rfl : d = .ok none := hturn
  have hy : (Window.start "y").left = [.ok ⟨.identifier, "y", 0, 0⟩, .ok textEnd] := by cbv
  have hread : Program.read stack "y" = .ok ⟨[Token.alone ⟨.identifier, "y", 1, 1⟩], []⟩ :=
    Program.read_mono (Nat.zero_le stack) (by cbv) (by simp)
  have hecho : Echoes w.reported (Window.start "y") w := by
    refine Echoes.iff.mpr ⟨hleft.trans hy.symm, ?_⟩
    have hnone : (Window.start "y").reported = [] := by cbv
    rw [hnone, List.append_nil]
  have hstring : ∀ o ∈ w.rest, o.inString = false := by
    intro o ho
    have hm := List.mem_map_of_mem (f := Outcome.bare) ho
    rw [(List.cons.inj hleft).2, List.mem_singleton] at hm
    rw [← Outcome.inString_bare, hm]
    rfl
  obtain ⟨es, hes, hesb⟩ := bareDecls_eq_ok
    (hecho.forms fun o ho => hstring o (ho.mem hstring)).1 (Program.read_eq_ok hread).1
  have hforms : (Window.read stack (a ++ "\n" ++ b)).1 = .ok (ds' ++ es) := by
    rw [Window.read, hvisits.forms_eq, Window.forms_of_turn hc, ht]
    simp only [hes]
    rfl
  refine ⟨⟨ds' ++ es, (Window.read stack (a ++ "\n" ++ b)).2.diagnostics.toList⟩, ?_, ?_⟩
  · rw [Program.read_eq, hforms]
    rfl
  · rw [List.map_append, hbare, hesb]
    rfl

/-- A fault in a text whose forms end on their lines never swallows a form of the lines behind it,
unless its reading overruns the newline that ends it. -/
theorem Program.read_join_suffix_iff {stack : Nat} {a : String} (h : Inline a) :
    (∀ b q r, Program.read stack b = .ok q → Program.read stack (a ++ "\n" ++ b) = .ok r →
      q.decls.map Decl.bare <:+ r.decls.map Decl.bare) ↔ ¬ Program.Overruns stack a := by
  constructor
  · intro hall hover
    obtain ⟨ds, hds⟩ := hover.swallowed h
    -- the two texts differ in the name on their first line alone
    have hx : Program.read stack "x\ny" = .ok ⟨[Token.alone ⟨.identifier, "x", 1, 1⟩,
        Token.alone ⟨.identifier, "y", 2, 1⟩], []⟩ :=
      Program.read_mono (Nat.zero_le stack) (by cbv) (by simp)
    have hz : Program.read stack "z\ny" = .ok ⟨[Token.alone ⟨.identifier, "z", 1, 1⟩,
        Token.alone ⟨.identifier, "y", 2, 1⟩], []⟩ :=
      Program.read_mono (Nat.zero_le stack) (by cbv) (by simp)
    obtain ⟨r, hr, hrd⟩ := hds "x\ny" ⟨.identifier, "x", 0, 0⟩ ⟨.newline, "\n", 0, 0⟩ rfl rfl (by cbv)
    obtain ⟨r', hr', hrd'⟩ := hds "z\ny" ⟨.identifier, "z", 0, 0⟩ ⟨.newline, "\n", 0, 0⟩ rfl rfl (by cbv)
    obtain ⟨l, hl⟩ := hall _ _ _ hx hr
    obtain ⟨l', hl'⟩ := hall _ _ _ hz hr'
    have hlast := hl.trans (hrd.trans (hrd'.symm.trans hl'.symm))
    have := (List.append_inj' hlast rfl).2
    simp [Token.alone, Token.bare] at this
  · intro hover b q r hb hr
    obtain ⟨hstart, hbehind⟩ := h.start b
    have hjoined := (Window.reaches_start (a ++ "\n" ++ b)).behind (Behind.refl _)
    obtain ⟨u, _, ds, ⟨ht⟩, hl, hu, hf⟩ :=
      hstart.forms trivial rfl hover hjoined (Program.read_eq_ok hr).1
    have hmirrors := (Junction.echoes_start ht hl).mirrors (hbehind.trans (behind_start b)) hu
    obtain ⟨es, hes, hesb⟩ := bareDecls_eq_ok hmirrors.forms.1 (Program.read_eq_ok hb).1
    have hrd := (Program.read_eq_ok hr).1
    rw [Window.read, hf, hes] at hrd
    rw [← Except.ok.inj hrd, List.map_append, hesb]
    exact List.suffix_append _ _

/-- Where the token behind an operator is there but begins no expression, nothing is swallowed. -/
theorem Program.read_join_suffix_plus_plus :
    Inline "x + +" ∧ ∀ b q r, Program.read 20 b = .ok q →
      Program.read 20 ("x + +" ++ "\n" ++ b) = .ok r →
        q.decls.map Decl.bare <:+ r.decls.map Decl.bare := by
  have hi : Inline "x + +" := by decide
  refine ⟨hi, (Program.read_join_suffix_iff hi).mpr ?_⟩
  rintro ⟨ds, v, f, u, hv, hc, hd, hf⟩
  cases hv with
  | here =>
    have hx : (declaration (expression 28)).on (some 28) (Window.start (newlined "x + +")) =
      (.error (.fault .expectedExpression ⟨.plus, "+", 1, 5⟩), ⟨⟨.plus, "+", 1, 5⟩,
        ⟨.newline, "\n", 2, 0⟩, ⟨5, 6, 2, 0, []⟩, #[]⟩) := by cbv
    obtain ⟨hf', rfl⟩ := Prod.mk.inj (hd.symm.trans hx)
    obtain rfl := Except.error.inj hf'
    exact Window.not_spent (t := ⟨.newline, "\n", 0, 0⟩) List.mem_cons_self rfl
      (fun o ho => by cases ho) hf
  | @behind x _ _ _ _ _ ht hv =>
    have hx : ((Window.start (newlined "x + +")).turn (some 28) 28).2.current.kind = .endOfText := by cbv
    have hx : x.current.kind = .endOfText := (congrArg (fun r => r.2.current.kind) ht).symm.trans hx
    cases hv with
    | here => exact hc hx
    | behind hc' => exact hc' hx

/-- A sum without its second term swallows the name on the next line. -/
theorem Program.read_join_swallows :
    ∃ q r, Program.read 20 "x" = .ok q ∧ Program.read 20 ("1 +" ++ "\n" ++ "x") = .ok r ∧
      ¬ q.decls.map Decl.bare <:+ r.decls.map Decl.bare := by
  refine ⟨⟨[Token.alone ⟨.identifier, "x", 1, 1⟩], []⟩,
    ⟨[], [.grammar .expectedExpression ⟨.newline, "\n", 2, 0⟩]⟩, ?_, ?_, ?_⟩
  · cbv
  · cbv
  · simp

end ArrowLang
