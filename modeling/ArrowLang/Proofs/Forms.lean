import ArrowLang.Proofs.Turns
import ArrowLang.Proofs.Yields

/-!
# Reading the forms of a text

Where nothing but tokens is left, a move reports nothing. So a text of forms that are each read
leaves no diagnostic, unless a form has an excuse.
-/
namespace ArrowLang

open Reading

/-- No lexical error is left. -/
def Window.Silent (w : Window) : Prop := ∀ o ∈ w.rest, ∃ t, o = .ok t

theorem Window.silent_iff {w : Window} : w.Silent ↔ w.rest.filterMap Outcome.error? = [] := by
  rw [List.filterMap_eq_nil_iff]
  refine forall₂_congr fun o _ => ?_
  cases o <;> simp [Outcome.error?]

theorem Window.Silent.reaches {w v : Window} (h : w.Silent) (hv : w.Reaches v) :
    v.Silent ∧ v.diagnostics = w.diagnostics := by
  obtain ⟨es, hds, hes⟩ := hv.reports
  rw [silent_iff] at h ⊢
  rw [h] at hes
  obtain ⟨rfl, hv⟩ := List.append_eq_nil_iff.mp hes.symm
  exact ⟨hv, Array.toList_inj.mp (by simpa using hds)⟩

theorem Begins.current_ne_end {ts out : List Token} (h : Begins ts) {w : Window}
    (ha : w.ahead = ts ++ out) : w.current.kind ≠ .endOfText := by
  obtain ⟨t, r, rfl, ht⟩ := h
  rw [Window.current_of_ahead ha]
  intro hk
  rw [hk] at ht
  exact absurd ht (by decide)

section
variable {excuse : Failure → Prop} {depth : Nat}

variable (excuse) in
/-- Wherever a line may end behind the tokens, they are read as a declaration. -/
structure FormYields (ts : List Token) (Q : Decl → Prop) : Prop where
  begins : Begins ts
  gives : ∀ depth {w : Window} {t : Token} {out : List Token},
    w.ahead = ts ++ t :: out → t.kind = .newline ∨ t.kind = .endOfText →
    Gives excuse (declaration (expression depth)) w fun d rest => Q d ∧ rest = t :: out

theorem ended_gives {w : Window} {d : Decl} {Q : Decl → Prop} {t : Token} {out : List Token}
    (ha : w.ahead = t :: out) (ht : t.kind = .newline ∨ t.kind = .endOfText)
    (hd : Q d) : Gives excuse (ended d) w fun d rest => Q d ∧ rest = t :: out := by
  have hc := Window.current_of_ahead ha
  have he : (ended d).on none w = (.ok d, w) := by
    unfold ended
    rw [on_check_bind, on_check_bind, hc]
    rcases ht with ht | ht <;> rw [ht] <;> rfl
  exact .ok he ⟨hd, ha⟩

/-- An expression in front of the end of a line is a declaration. -/
theorem evaluated_gives {depth : Nat} {Q : Expr → Prop} {w : Window} {t : Token} {out : List Token}
    (h : Gives excuse (expression depth .or) w fun e rest => Q e ∧ rest = t :: out)
    (ht : t.kind = .newline ∨ t.kind = .endOfText) :
    Gives excuse (declaration (expression depth)) w fun d rest =>
      (∃ e, Q e ∧ d = .evaluated e) ∧ rest = t :: out := by
  refine .call (h.bind fun e v ⟨hQ, hr⟩ => ?_)
  have hk : (v.current.kind == .equal) = false := by
    rw [Window.current_of_ahead hr]
    rcases ht with ht | ht <;> rw [ht] <;> rfl
  refine .congr (on_check_bind _ _ v) ?_
  rw [hk]
  exact ended_gives hr ht ⟨e, hQ, rfl⟩

theorem evaluated_yields {ts : List Token} {Q : Expr → Prop} (h : ExprYields excuse ts Q) :
    FormYields excuse ts fun d => ∃ e, Q e ∧ d = .evaluated e where
  begins := h.begins
  gives depth w t out ha ht := by
    have hends : Ends (t :: out) := ⟨t, out, rfl, by rcases ht with ht | ht <;> rw [ht] <;> rfl⟩
    exact evaluated_gives (h.gives depth ha hends) ht

theorem constant_yields {ts us : List Token} {q : Token} {Q Q' : Expr → Prop}
    (h : ExprYields excuse ts Q) (ht : ∀ e, Q e → (target? e).isSome) (hq : q.kind = .equal)
    (h' : ExprYields excuse us Q') :
    FormYields excuse (ts ++ q :: us) fun d =>
      ∃ e n u v, Q e ∧ Q' v ∧ target? e = some (n, u) ∧ d = .constant n u v where
  begins := by
    obtain ⟨t, r, rfl, hb⟩ := h.begins
    exact ⟨t, r ++ q :: us, rfl, hb⟩
  gives depth w t out ha hstop := by
    have hends : Ends (t :: out) :=
      ⟨t, out, rfl, by rcases hstop with hs | hs <;> rw [hs] <;> rfl⟩
    have ha : w.ahead = ts ++ (q :: (us ++ t :: out)) := by simpa using ha
    refine .call ((h.gives depth ha ⟨q, _, rfl, by rw [hq]; rfl⟩).bind fun e v ⟨hQ, hr⟩ => ?_)
    obtain ⟨rfl, hru⟩ := Window.advance_of_ahead hr (by rw [hq]; decide)
    obtain ⟨⟨n, u⟩, htarget⟩ := Option.isSome_iff_exists.mp (ht e hQ)
    refine .congr (on_check_bind _ _ v) ?_
    rw [hq]
    have hconst : (constant (expression depth) e).on none v = (expression depth .or >>= fun value =>
        pure (Decl.constant n u value)).on none v.advance := by
      rw [constant, on_call_none, htarget]
      exact on_bind_ok (on_advance v)
    have hc : Gives excuse (constant (expression depth) e) v fun d rest =>
        (∃ e n u v, Q e ∧ Q' v ∧ target? e = some (n, u) ∧ d = .constant n u v) ∧
          rest = t :: out :=
      .congr hconst ((h'.gives depth hru hends).bind fun x v ⟨hx, hr⟩ =>
        .pure ⟨⟨e, n, u, x, hQ, hx, htarget, rfl⟩, hr⟩)
    exact hc.bind fun d v ⟨hd, hr⟩ => ended_gives hr hstop hd

variable (excuse) in
/-- Forms, each behind newlines. -/
inductive MoreForms : List (Decl → Prop) → List Token → Prop where
  | nil : MoreForms [] []
  | cons {ns ts us : List Token} {Q : Decl → Prop} {Qs : List (Decl → Prop)} : Newlines ns →
      ns ≠ [] → FormYields excuse ts Q → MoreForms Qs us → MoreForms (Q :: Qs) (ns ++ ts ++ us)

/-- Excuses are what ends a reading and, if it is reported, nesting too deep. -/
def Excused (excuse : Failure → Prop) (r : Except Abort (List Decl) × Window) : Prop :=
  (∃ cause, r.1 = .error cause ∧ excuse (.abort cause)) ∨
    ∃ t, .grammar .nestingTooDeep t ∈ r.2.diagnostics.toList

theorem excused_forms (hx : ∀ f, excuse f → f = .tooDeep none ∨ ∃ cause, f = .abort cause)
    {w v : Window} (hc : w.current.kind ≠ .endOfText) {f : Failure}
    (h : (declaration (expression depth)).on none w = (.error f, v)) (hf : excuse f) :
    Excused excuse (w.forms none depth) := by
  rw [Window.forms_of_turn hc]
  rcases hx f hf with rfl | ⟨cause, rfl⟩
  · have ht : w.turn none depth = (.ok none,
        (v.report (.grammar .nestingTooDeep v.current)).skipLine.skipNewlines) := by
      rw [Window.turn, h]
    rw [ht]
    refine .inr ⟨v.current, (Window.diagnostics_forms none depth _).mem ?_⟩
    refine List.IsPrefix.mem ?_ ((Window.reaches_skipLine _).diagnostics.trans
      (Window.reaches_skipNewlines _).diagnostics)
    simp [Window.report]
  · have ht : w.turn none depth = (.error cause, v) := by rw [Window.turn, h]
    rw [ht]
    exact .inl ⟨cause, rfl, hf⟩

/-- The turn that reads a declaration. -/
theorem turn_of_declaration {w v : Window} {d : Decl} (hs : w.Silent)
    (hd : (declaration (expression depth)).on none w = (.ok d, v)) :
    w.turn none depth = (.ok (some d), v.skipNewlines) ∧ v.skipNewlines.Silent ∧
      v.skipNewlines.diagnostics = w.diagnostics := by
  have hreach := (Window.moves_declaration.reaches hd).trans (Window.reaches_skipNewlines v)
  exact ⟨by rw [Window.turn, hd], hs.reaches hreach⟩

/-- A declaration with nothing behind it is all of a text. -/
theorem forms_of_last {w v : Window} {d : Decl} (hc : w.current.kind ≠ .endOfText)
    (ht : w.turn none depth = (.ok (some d), v)) (hv : v.current.kind = .endOfText) :
    w.forms none depth = (.ok [d], v) := by
  rw [Window.forms_of_turn hc, ht]
  dsimp only
  rw [Window.forms_of_end hv]
  rfl

/-- The turn that reads a form. -/
theorem FormYields.turn (hx : ∀ f, excuse f → f = .tooDeep none ∨ ∃ cause, f = .abort cause)
    {ts : List Token} {Q : Decl → Prop} (h : FormYields excuse ts Q) {w : Window} {t : Token}
    {out : List Token} (hs : w.Silent) (ha : w.ahead = ts ++ t :: out)
    (ht : t.kind = .newline ∨ t.kind = .endOfText) :
    (∃ d v, w.turn none depth = (.ok (some d), v) ∧ Q d ∧ v.Silent ∧
      v.diagnostics = w.diagnostics ∧ v.ahead = dropNewlines (t :: out)) ∨
      Excused excuse (w.forms none depth) := by
  rcases h.gives depth ha ht with ⟨d, v, hd, hQ, hr⟩ | ⟨f, v, hd, hf⟩
  · obtain ⟨hturn, hsil, hdiag⟩ := turn_of_declaration hs hd
    refine .inl ⟨d, v.skipNewlines, hturn, hQ, hsil, hdiag, ?_⟩
    rw [v.ahead_skipNewlines, hr]
  · exact .inr (excused_forms hx (h.begins.current_ne_end ha) hd hf)

theorem Excused.of_turn {w v : Window} (hc : w.current.kind ≠ .endOfText)
    {d : Option Decl} (ht : w.turn none depth = (.ok d, v)) (h : Excused excuse (v.forms none depth)) :
    Excused excuse (w.forms none depth) := by
  rw [Window.forms_of_turn hc, ht]
  rcases h with ⟨cause, h, hf⟩ | h
  · exact .inl ⟨cause, by dsimp only; rw [h]; rfl, hf⟩
  · exact .inr h

/-- The forms of a text, from the first one on. -/
theorem forms_give (hx : ∀ f, excuse f → f = .tooDeep none ∨ ∃ cause, f = .abort cause)
    {Qs : List (Decl → Prop)} {us : List Token} (hm : MoreForms excuse Qs us)
    {Q : Decl → Prop} {ts ms : List Token} {e : Token} (h : FormYields excuse ts Q)
    (hn : Newlines ms) (he : e.kind = .endOfText) {w : Window} (hs : w.Silent)
    (ha : w.ahead = ts ++ (us ++ (ms ++ [e]))) :
    (∃ ds, (w.forms none depth).1 = .ok ds ∧ Each (Q :: Qs) ds ∧
      (w.forms none depth).2.diagnostics = w.diagnostics) ∨
      Excused excuse (w.forms none depth) := by
  have hc := h.begins.current_ne_end ha
  have hend : ∀ {t : Token}, t ∈ ms ++ [e] → t.kind = .newline ∨ t.kind = .endOfText := by
    intro t ht
    rcases List.mem_append.mp ht with ht | ht
    · exact .inl (hn t ht)
    · exact .inr (List.mem_singleton.mp ht ▸ he)
  induction hm generalizing Q ts w with
  | nil =>
    obtain ⟨t, out, hto⟩ : ∃ t out, ms ++ [e] = t :: out := List.exists_cons_of_ne_nil (by simp)
    have hd : dropNewlines (t :: out) = [e] := by
      rw [← hto, dropNewlines_append hn]
      exact dropNewlines_cons (by rw [he]; decide) []
    rw [List.nil_append, hto] at ha
    rcases h.turn hx hs ha (hend (by simp [hto])) with ⟨d, v, ht, hQ, -, hdiag, hr⟩ | hex
    · have hk : v.current.kind = .endOfText := by
        rw [Window.current_of_ahead (hr.trans hd), he]
      have hf := forms_of_last hc ht hk
      exact .inl ⟨[d], by rw [hf], .cons hQ .nil, by rw [hf, hdiag]⟩
    · exact .inr hex
  | @cons ns ts' us' Q' Qs hns hne h' hm ih =>
    obtain ⟨t, ns, rfl⟩ := List.exists_cons_of_ne_nil hne
    have hd : dropNewlines (t :: (ns ++ (ts' ++ (us' ++ (ms ++ [e]))))) =
        ts' ++ (us' ++ (ms ++ [e])) := by
      rw [← List.cons_append, dropNewlines_append hns, h'.begins.dropNewlines_append]
    have ha : w.ahead = ts ++ t :: (ns ++ (ts' ++ (us' ++ (ms ++ [e])))) := by simpa using ha
    rcases h.turn hx hs ha (.inl (hns t (by simp))) with ⟨d, v, ht, hQ, hsv, hdiag, hr⟩ | hex
    · have hcv := h'.begins.current_ne_end (hr.trans hd)
      rcases ih h' hsv (hr.trans hd) hcv with ⟨ds, hok, hds, hdv⟩ | hex
      · refine .inl ⟨d :: ds, ?_, .cons hQ hds, ?_⟩
        · rw [Window.forms_of_turn hc, ht]
          dsimp only
          rw [hok]
          rfl
        · rw [Window.forms_of_turn hc, ht]
          exact hdv.trans hdiag
      · exact .inr (hex.of_turn hc ht)
    · exact .inr hex

/-- The forms of a text, none or more. -/
theorem more_forms_give (hx : ∀ f, excuse f → f = .tooDeep none ∨ ∃ cause, f = .abort cause)
    {Qs : List (Decl → Prop)} {us ms : List Token} {e : Token} (hm : MoreForms excuse Qs us)
    (hn : Newlines ms) (he : e.kind = .endOfText) {w : Window} (hs : w.Silent)
    (ha : w.ahead = dropNewlines (us ++ (ms ++ [e]))) :
    (∃ ds, (w.forms none depth).1 = .ok ds ∧ Each Qs ds ∧
      (w.forms none depth).2.diagnostics = w.diagnostics) ∨
      Excused excuse (w.forms none depth) := by
  cases hm with
  | nil =>
    rw [List.nil_append, dropNewlines_append hn, dropNewlines_cons (by rw [he]; decide)] at ha
    have hc : w.current.kind = .endOfText := by rw [Window.current_of_ahead ha, he]
    rw [Window.forms_of_end hc]
    exact .inl ⟨[], rfl, .nil, rfl⟩
  | @cons ns ts us Q Qs hns _ h hm =>
    rw [List.append_assoc, List.append_assoc, dropNewlines_append hns,
      h.begins.dropNewlines_append] at ha
    exact forms_give hx hm h hn he hs ha

end
end ArrowLang
