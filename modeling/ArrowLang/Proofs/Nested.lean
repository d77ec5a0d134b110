import ArrowLang.Proofs.Twin

/-!
# Two runs inside brackets

Newlines are skipped inside brackets, so behind a seam the first run can stand at the end of the
text while the second one reads on. Such a run is lost: it goes on without moving until it misses
the closing bracket or nests too deep, and is off then at the latest.
-/
namespace ArrowLang

open Reading

structure NestedTwin extends Twin where
  lost : Window → Prop
  lost_end : ∀ {v}, lost v → v.current.kind = .endOfText
  lost_advance : ∀ {v}, lost v → lost v.advance
  seam_pass : ∀ {w w'}, near w w' → seam w w' → ∀ stack : Stack,
    (∃ v, w.passNewlines stack = (.ok (), v) ∧ lost v) ∨
      ∃ f v, w.passNewlines stack = (.error f, v) ∧ ∀ r v', off f v r v'
  seam_fault : ∀ {w w'}, near w w' → seam w w' → ∀ g r v', off (.fault g w.current) w r v'
  lost_fault : ∀ {v t}, lost v → t.kind = .endOfText → ∀ g r v', off (.fault g t) v r v'
  lost_tooDeep : ∀ {v}, lost v → ∀ r v', off (.tooDeep none) v r v'

namespace NestedTwin

variable (T : NestedTwin) {α β γ δ : Type}

/-- The runs meet, or the first one is lost. -/
inductive Loose (same : α → β → Prop) :
    Except Failure α × Window → Except Failure β × Window → Prop where
  | meets {a b} : T.Meets same a b → Loose same a b
  | lost {x v b} : T.lost v → Loose same (.ok x, v) b

/-- The reading fails at the window, and with that the run is off. -/
def FailsAt (R : Reading α) (stack : Stack) (v : Window) : Prop :=
  ∃ f u, R.on stack v = (.error f, u) ∧ ∀ r x, T.off f u r x

/-- The reading fails at the window or leaves the run lost. -/
def StraysAt (R : Reading α) (stack : Stack) (v : Window) : Prop :=
  T.FailsAt R stack v ∨ ∃ x u, R.on stack v = (.ok x, u) ∧ T.lost u

variable {T} {same : α → β → Prop} {same' : γ → δ → Prop} {stack : Stack}

theorem FailsAt.bind {R : Reading α} {f : α → Reading γ} {v : Window} (h : T.FailsAt R stack v) :
    T.FailsAt (R >>= f) stack v := by
  obtain ⟨e, u, hR, ho⟩ := h
  exact ⟨e, u, on_bind_error hR, ho⟩

theorem StraysAt.fails_bind {R : Reading α} {f : α → Reading γ} {v : Window}
    (h : T.StraysAt R stack v) (hf : ∀ x u, T.lost u → T.FailsAt (f x) stack u) :
    T.FailsAt (R >>= f) stack v := by
  rcases h with h | ⟨x, u, hR, hu⟩
  · exact h.bind
  · obtain ⟨e, z, he, ho⟩ := hf x u hu
    exact ⟨e, z, (on_bind_ok hR).trans he, ho⟩

theorem StraysAt.bind {R : Reading α} {f : α → Reading γ} {v : Window} (h : T.StraysAt R stack v)
    (hf : ∀ x u, T.lost u → T.StraysAt (f x) stack u) : T.StraysAt (R >>= f) stack v := by
  rcases h with h | ⟨x, u, hR, hu⟩
  · exact .inl h.bind
  · rcases hf x u hu with ⟨e, z, he, ho⟩ | ⟨y, z, hy, hz⟩
    · exact .inl ⟨e, z, (on_bind_ok hR).trans he, ho⟩
    · exact .inr ⟨y, z, (on_bind_ok hR).trans hy, hz⟩

theorem Loose.of_meets {R : Reading α} {R' : Reading β} {f : α → Reading γ} {f' : β → Reading δ}
    {w w' : Window} (h : T.Meets same (R.on stack w) (R'.on stack w'))
    (hf : ∀ x y v v', R.on stack w = (.ok x, v) → R'.on stack w' = (.ok y, v') → same x y →
      T.near v v' → T.Loose same' ((f x).on stack v) ((f' y).on stack v')) :
    T.Loose same' ((R >>= f).on stack w) ((R' >>= f').on stack w') := by
  rw [on_bind, on_bind]
  generalize hR : R.on stack w = a at h
  generalize hR' : R'.on stack w' = b at h
  cases h with
  | ok hs hn => exact hf _ _ _ _ hR hR' hs hn
  | error hb hm hm' hn => exact .meets (.error hb hm hm' hn)
  | @off e v v' r ho =>
    cases r with
    | error e' => exact .meets (.off ho)
    | ok y => exact .meets (.off (T.astray ho _ _))
  | dropped hd => exact .meets (.dropped hd)

theorem Loose.bind {R : Reading α} {R' : Reading β} {f : α → Reading γ} {f' : β → Reading δ}
    {w w' : Window} (h : T.Loose same (R.on stack w) (R'.on stack w'))
    (hf : ∀ x y v v', R.on stack w = (.ok x, v) → R'.on stack w' = (.ok y, v') → same x y →
      T.near v v' → T.Loose same' ((f x).on stack v) ((f' y).on stack v'))
    (hl : ∀ x v, T.lost v → T.StraysAt (f x) stack v) :
    T.Loose same' ((R >>= f).on stack w) ((R' >>= f').on stack w') := by
  rw [on_bind, on_bind]
  generalize hR : R.on stack w = a at h
  generalize hR' : R'.on stack w' = b at h
  cases h with
  | @lost x v b hv =>
    rcases hl x v hv with ⟨e, z, he, ho⟩ | ⟨y, z, hy, hz⟩
    · simp only [he]
      exact .meets (.off (ho _ _))
    · simp only [hy]
      exact .lost hz
  | meets h =>
    subst hR hR'
    rw [← on_bind, ← on_bind]
    exact .of_meets h hf

/-- Where what follows fails once the run is lost, the runs meet in the end. -/
theorem Loose.bind_meets {R : Reading α} {R' : Reading β} {f : α → Reading γ} {f' : β → Reading δ}
    {w w' : Window} (h : T.Loose same (R.on stack w) (R'.on stack w'))
    (hf : ∀ x y v v', R.on stack w = (.ok x, v) → R'.on stack w' = (.ok y, v') → same x y →
      T.near v v' → T.Meets same' ((f x).on stack v) ((f' y).on stack v'))
    (hl : ∀ x v, T.lost v → T.FailsAt (f x) stack v) :
    T.Meets same' ((R >>= f).on stack w) ((R' >>= f').on stack w') := by
  rw [on_bind, on_bind]
  generalize hR : R.on stack w = a at h
  generalize hR' : R'.on stack w' = b at h
  cases h with
  | @lost x v b hv =>
    obtain ⟨e, z, he, ho⟩ := hl x v hv
    simp only [he]
    exact .off (ho _ _)
  | meets h =>
    subst hR hR'
    rw [← on_bind, ← on_bind]
    exact Twin.meets_bind h hf

theorem Loose.call {R : Reading α} {R' : Reading β} {w w' : Window} (hw : T.near w w')
    (h : ∀ stack, T.Loose same (R.on stack w) (R'.on stack w')) :
    T.Loose same ((call R).on stack w) ((call R').on stack w') := by
  rw [on_call, on_call]
  split
  · exact h _
  · exact .meets (.failed rfl rfl rfl hw)

theorem kind_ne_of_lost {v : Window} (h : T.lost v) {k : TokenKind} (hk : k ≠ .endOfText) :
    v.current.kind ≠ k := by
  rw [T.lost_end h]
  exact hk.symm

section
variable {v : Window} (h : T.lost v)
include h

theorem strays_call {R : Reading α} (hR : ∀ stack, T.StraysAt R stack v) :
    T.StraysAt (call R) stack v := by
  unfold StraysAt FailsAt
  rw [on_call]
  split
  · exact hR _
  · exact .inl ⟨_, v, rfl, T.lost_tooDeep h⟩

theorem fails_call {R : Reading α} (hR : ∀ stack, T.FailsAt R stack v) :
    T.FailsAt (call R) stack v := by
  unfold FailsAt
  rw [on_call]
  split
  · exact hR _
  · exact ⟨_, v, rfl, T.lost_tooDeep h⟩

theorem fails_missing : T.FailsAt missing stack v := by
  unfold FailsAt
  cases hs : stack.holds 1 with
  | false => exact ⟨_, v, missing_of_full hs, T.lost_tooDeep h⟩
  | true =>
    have hl := T.lost_advance h
    rw [missing_of_move hs (Window.move_of_end _ (T.lost_end h))]
    split
    · exact ⟨_, _, rfl, T.lost_fault hl (T.lost_end h) _⟩
    · exact ⟨_, _, rfl, T.lost_tooDeep hl⟩

theorem fails_expression (depth : Nat) (p : Precedence) :
    T.FailsAt (expression depth p) stack v := by
  cases depth with
  | zero => exact ⟨_, _, rfl, T.lost_tooDeep h⟩
  | succ depth =>
    unfold FailsAt
    rw [expression_of_isStop (by rw [T.lost_end h]; rfl)]
    exact fails_call h fun _ => fails_missing h

theorem strays_skipNewlines : T.StraysAt skipNewlines stack v :=
  strays_call h fun stack =>
    .inr ⟨(), v, Window.passNewlines_of_ne stack (kind_ne_of_lost h (by decide)), h⟩

theorem on_check_of_lost {k : TokenKind} (hk : k ≠ .endOfText) (f : Bool → Reading α) :
    (check k >>= f).on stack v = (f false).on stack v := by
  rw [on_bind_ok (on_check _ v), beq_eq_false_iff_ne.mpr (kind_ne_of_lost h hk)]

theorem fails_check {k : TokenKind} (hk : k ≠ .endOfText) {f : Bool → Reading α}
    (hf : T.FailsAt (f false) stack v) : T.FailsAt (check k >>= f) stack v := by
  unfold FailsAt
  rwa [on_check_of_lost h hk]

theorem strays_check {k : TokenKind} (hk : k ≠ .endOfText) {f : Bool → Reading α}
    (hf : T.StraysAt (f false) stack v) : T.StraysAt (check k >>= f) stack v := by
  unfold StraysAt FailsAt
  rwa [on_check_of_lost h hk]

/-- A token that is not there is not accepted, if the question is asked at all. -/
theorem accept_of_lost {k : TokenKind} (hk : k ≠ .endOfText) :
    T.FailsAt (accept k) stack v ∨ (accept k).on stack v = (.ok false, v) := by
  rw [FailsAt, accept, on_call]
  split
  · exact .inr (on_check_of_lost h hk _)
  · exact .inl ⟨_, v, rfl, T.lost_tooDeep h⟩

theorem strays_accept {k : TokenKind} (hk : k ≠ .endOfText) {f : Bool → Reading α}
    (hf : T.StraysAt (f false) stack v) : T.StraysAt (accept k >>= f) stack v := by
  rcases (accept_of_lost h hk : T.FailsAt (accept k) stack v ∨ _) with ha | ha
  · exact .inl ha.bind
  · unfold StraysAt FailsAt
    rwa [on_bind_ok ha]

theorem fails_expect {k : TokenKind} (hk : k ≠ .endOfText) (message : String) :
    T.FailsAt (expect k message) stack v := by
  refine fails_call h fun stack => ?_
  rcases (accept_of_lost h hk : T.FailsAt (accept k) stack v ∨ _) with ha | ha
  · exact ha.bind
  · unfold FailsAt
    rw [on_bind_ok ha]
    exact ⟨_, v, rfl, T.lost_fault h (T.lost_end h) _⟩

variable (depth : Nat)

theorem fails_item : T.FailsAt (item (expression depth)) stack v :=
  fails_call h fun _ => (strays_skipNewlines h).fails_bind fun _ _ hu =>
    (fails_expression hu depth .or).bind

/-- An item, with the token that it begins with. -/
theorem fails_currentItem (f : Token → Expr → Reading α) :
    T.FailsAt (Reading.current >>= fun t => item (expression depth) >>= f t) stack v := by
  have hitem : T.FailsAt (item (expression depth)) stack v := fails_item h depth
  obtain ⟨e, u, he, ho⟩ := hitem.bind (f := f v.current)
  exact ⟨e, u, (on_bind_ok (on_current v)).trans he, ho⟩

theorem strays_moreItems (n : Nat) : T.StraysAt (moreItems (expression depth) n) stack v := by
  cases n with
  | zero => exact .inr ⟨_, v, rfl, h⟩
  | succ n => exact strays_accept h (by decide) (.inr ⟨[], v, rfl, h⟩)

theorem strays_guard (first : Expr) : T.StraysAt (guard (expression depth) first) stack v :=
  strays_accept h (by decide) (.inr ⟨.mk .always first, v, rfl, h⟩)

theorem strays_afterComma (g : Guard) (n : Nat) : T.StraysAt (accept .comma >>= fun b =>
    if b then afterGuard (expression depth) n g else pure ([g], none)) stack v :=
  strays_accept h (by decide) (.inr ⟨([g], none), v, rfl, h⟩)

theorem strays_guards (n : Nat) (first : Expr) :
    T.StraysAt (guards (expression depth) n first) stack v := by
  cases n with
  | zero => exact .inr ⟨_, v, rfl, h⟩
  | succ n => exact (strays_guard h depth first).bind fun g u hu => strays_afterComma hu depth g n

theorem strays_cases (n : Nat) (head : CaseHead) :
    T.StraysAt (cases (expression depth) n head) stack v := by
  cases n with
  | zero => exact .inr ⟨_, v, rfl, h⟩
  | succ n => exact .inl (fails_expect h (by decide) _).bind

theorem strays_afterGuards (n : Nat) (p : Pattern) (r : List Guard × Option CaseHead) :
    T.StraysAt (afterGuards (expression depth) n p r) stack v := by
  obtain ⟨gs, _ | head⟩ := r
  · exact .inr ⟨_, v, rfl, h⟩
  · exact (strays_cases h depth n head).bind fun cs u hu => .inr ⟨_, u, rfl, hu⟩

end

/-- Moving over newlines is a move, and moving over those behind it. -/
theorem passNewlines_eq {w : Window} (hc : w.current.kind = .newline) :
    w.passNewlines stack =
      (step (fun stack w => w.move (stack.inside 2)) >>= fun _ =>
        step fun stack w => w.passNewlines stack).on stack w := by
  rw [on_bind, on_step]
  rcases hm : w.move (stack.inside 2) with ⟨f | x, v⟩
  · rw [Window.passNewlines_of_error hc hm]
  · rw [Window.passNewlines_of_ok _ hc hm]
    rfl

theorem loose_passNewlines {w w' : Window} (hw : T.near w w') :
    T.Loose (fun _ _ : Unit => True) (w.passNewlines stack) (w'.passNewlines stack) := by
  have atSeam : ∀ {w w' : Window}, T.near w w' → T.seam w w' →
      T.Loose (fun _ _ : Unit => True) (w.passNewlines stack) (w'.passNewlines stack) := by
    intro w w' hw hs
    rcases T.seam_pass hw hs stack with ⟨v, hv, hl⟩ | ⟨f, v, hv, ho⟩
    · rw [hv]
      exact .lost hl
    · rw [hv]
      exact .meets (.off (ho _ _))
  induction w using Window.newlines_induction generalizing w' with
  | newline w hc ih =>
    by_cases hs : T.seam w w'
    · exact atSeam hw hs
    · have hc' : w'.current.kind = .newline := Token.kind_eq_of_bare (T.bare hw hs) ▸ hc
      rw [passNewlines_eq hc, passNewlines_eq hc']
      refine .of_meets (T.move hw hs (stack.inside 2)) fun _ _ v v' hr hr' _ hv => ?_
      obtain rfl := Window.move_eq_advance hr
      obtain rfl := Window.move_eq_advance hr'
      exact ih hv
  | last w hc =>
    by_cases hs : T.seam w w'
    · exact atSeam hw hs
    · have hc' : w'.current.kind ≠ .newline := Token.kind_eq_of_bare (T.bare hw hs) ▸ hc
      rw [Window.passNewlines_of_ne stack hc, Window.passNewlines_of_ne stack hc']
      exact .meets (.ok trivial hw)

theorem loose_skipNewlines {w w' : Window} (hw : T.near w w') :
    T.Loose (fun _ _ : Unit => True) (skipNewlines.on stack w) (skipNewlines.on stack w') :=
  .call hw fun _ => loose_passNewlines hw

/-- Behind newlines the runs are at no seam, or the first one is lost. -/
theorem not_seam_or_lost {w v v' : Window} (hr : skipNewlines.on stack w = (.ok (), v))
    (hv : T.near v v') : ¬ T.seam v v' ∨ T.lost v := by
  by_cases hs : T.seam v v'
  · have hk : v.current.kind ≠ .newline := by
      rw [skipNewlines_of_on hr]
      exact w.skipNewlines_current_ne
    rcases T.seam_pass hv hs none with ⟨u, hu, hl⟩ | ⟨f, u, hu, -⟩ <;>
      rw [Window.passNewlines_of_ne none hk] at hu
    · exact .inr ((Prod.mk.inj hu).2 ▸ hl)
    · cases hu
  · exact .inl hs

section
variable {w w' : Window} (hw : T.near w w') {k : TokenKind} (hk : k.isStop = false)
include hw hk

/-- Both runs decide alike whether a token stands there that is no newline. -/
theorem check_alike {P : Except Failure α × Window → Except Failure β × Window → Prop}
    {f : Bool → Reading α} {f' : Bool → Reading β}
    (ht : w.current.kind = k → P ((f true).on stack w) ((f' true).on stack w'))
    (hf : P ((f false).on stack w) ((f' false).on stack w')) :
    P ((check k >>= f).on stack w) ((check k >>= f').on stack w') := by
  rw [on_bind_ok (on_check _ w), on_bind_ok (on_check _ w')]
  by_cases hc : w.current.kind = k
  · rw [beq_iff_eq.mpr hc, beq_iff_eq.mpr ((Twin.kind_eq_iff hw hk).mp hc)]
    exact ht hc
  · have hc' := fun hc' => hc ((Twin.kind_eq_iff hw hk).mpr hc')
    rw [beq_eq_false_iff_ne.mpr hc, beq_eq_false_iff_ne.mpr hc']
    exact hf

theorem accept_meets :
    T.Meets (fun b b' : Bool => b = b') ((accept k).on stack w) ((accept k).on stack w') :=
  Twin.call_meets hw fun _ => check_alike (P := T.Meets _) hw hk
    (fun hc => Twin.meets_bind (Twin.advance_meets hw (Twin.not_seam hk hc))
      fun _ _ _ _ _ _ _ hv => .ok rfl hv)
    (.ok rfl hw)

theorem loose_accept {f : Bool → Reading α} {f' : Bool → Reading β}
    (ht : w.current.kind = k → w'.current.kind = k → T.near w.advance w'.advance →
      T.Loose same ((f true).on stack w.advance) ((f' true).on stack w'.advance))
    (hf : T.Loose same ((f false).on stack w) ((f' false).on stack w')) :
    T.Loose same ((accept k >>= f).on stack w) ((accept k >>= f').on stack w') := by
  refine .of_meets (accept_meets hw hk) fun b b' v v' hr hr' hb hv => ?_
  rcases accept_of_on hr with ⟨hc, rfl, rfl⟩ | ⟨hc, rfl, rfl⟩ <;>
    rcases accept_of_on hr' with ⟨hc', rfl, rfl⟩ | ⟨hc', rfl, rfl⟩
  · exact ht hc hc' hv
  · cases hb
  · cases hb
  · exact hf

theorem expect_meets (message : String) : T.Meets (fun t t' : Token => t.bare = t'.bare)
    ((expect k message).on stack w) ((expect k message).on stack w') := by
  refine Twin.call_meets hw fun stack => Twin.meets_bind (accept_meets hw hk)
    fun b b' v v' hr hr' hb hv => ?_
  rcases accept_of_on hr with ⟨hc, rfl, rfl⟩ | ⟨hc, rfl, rfl⟩ <;>
    rcases accept_of_on hr' with ⟨hc', rfl, rfl⟩ | ⟨hc', rfl, rfl⟩
  · have hs : ¬ T.seam w w' := Twin.not_seam hk hc
    exact .ok (by simpa using T.bare hw hs) hv
  · cases hb
  · cases hb
  · by_cases hs : T.seam v v'
    · exact .off (T.seam_fault hw hs _ _ _)
    · exact .failed (by simp [Failure.bare, T.bare hw hs]) rfl rfl hw

end

theorem pattern_meets {w w' : Window} (hw : T.near w w') {e e' : Expr} {t t' : Token}
    (he : e.bare = e'.bare) (ht : t.bare = t'.bare) :
    T.Meets (fun p p' : Pattern => p.bare = p'.bare) ((pattern e t).on stack w)
      ((pattern e' t').on stack w') := by
  have hp := pattern?_retoken (g := Token.bare) Token.kind_bare e
  have hp' := pattern?_retoken (g := Token.bare) Token.kind_bare e'
  simp only [Expr.bare] at he
  rw [he, hp'] at hp
  unfold pattern
  cases hc : pattern? e <;> cases hc' : pattern? e' <;> rw [hc, hc'] at hp <;>
    simp only [Option.map_none, Option.map_some, Option.some.injEq, reduceCtorEq] at hp
  · exact .failed (by simp [Failure.bare, ht]) rfl rfl hw
  · exact .ok hp.symm hw

theorem length_rest_item {depth : Nat} {w v : Window} {e : Expr}
    (hr : (item (expression depth)).on stack w = (.ok e, v)) : v.rest.length ≤ w.rest.length :=
  ((moves.item (moves_expression depth)).reaches_of_ok hr).length_rest_le

theorem closeList_meets {es es' : List Expr} (hes : es.map Expr.bare = es'.map Expr.bare)
    {w w' : Window} (hw : T.near w w') :
    T.Meets (fun e e' : Expr => e.bare = e'.bare) ((closeList es).on stack w)
      ((closeList es').on stack w') :=
  Twin.meets_bind (expect_meets hw rfl _) fun _ _ x x' _ _ _ hx => .ok (by simp [hes]) hx

section
variable {depth : Nat} (h : T.Lockstep depth)
include h

theorem loose_item {w w' : Window} (hw : T.near w w') :
    T.Loose (fun e e' : Expr => e.bare = e'.bare) ((item (expression depth)).on stack w)
      ((item (expression depth)).on stack w') := by
  refine .call hw fun stack => ?_
  refine (loose_skipNewlines hw).bind (fun _ _ v v' _ _ _ hv => ?_) fun _ v hv =>
    .inl (fails_expression hv depth .or).bind
  refine .of_meets (h .or (by decide) stack v v' hv) fun e e' v v' _ _ he hv => ?_
  exact (loose_skipNewlines hv).bind (fun _ _ v v' _ _ _ hv => .meets (.ok he hv))
    fun _ v hv => .inr ⟨e, v, rfl, hv⟩

theorem loose_moreItems {n n' : Nat} {w w' : Window} (hw : T.near w w') (hn : w.rest.length < n)
    (hn' : w'.rest.length < n') :
    T.Loose (fun es es' : List Expr => es.map Expr.bare = es'.map Expr.bare)
      ((moreItems (expression depth) n).on stack w)
      ((moreItems (expression depth) n').on stack w') := by
  induction n generalizing n' w w' with
  | zero => omega
  | succ n ih =>
    obtain ⟨n', rfl⟩ : ∃ k, n' = k + 1 := ⟨n' - 1, by omega⟩
    refine loose_accept hw rfl (fun hc hc' ha => ?_) (.meets (.ok rfl hw))
    have hl := Window.length_rest_advance (w := w) (by simp [hc])
    have hl' := Window.length_rest_advance (w := w') (by simp [hc'])
    refine (loose_item h ha).bind (fun e e' v v' hr hr' he hv => ?_)
      fun e v hv => (strays_moreItems hv depth n).bind fun es u hu => .inr ⟨_, u, rfl, hu⟩
    have hi := length_rest_item hr
    have hi' := length_rest_item hr'
    refine (ih hv (by omega) (by omega)).bind (fun es es' u u' _ _ hes hu => ?_)
      fun es u hu => .inr ⟨_, u, rfl, hu⟩
    exact .meets (.ok (by simp [he, hes]) hu)

theorem group_meets {w w' : Window} (hw : T.near w w') :
    T.Meets (fun e e' : Expr => e.bare = e'.bare) ((group (expression depth)).on stack w)
      ((group (expression depth)).on stack w') := by
  refine (loose_item h hw).bind_meets (fun e e' v v' _ _ he hv => ?_) fun e v hv => ?_
  · refine check_alike (P := T.Meets _) hv rfl (fun _ => ?_) ?_
    · rw [if_pos rfl, if_pos rfl, on_bind_ok (on_bound v), on_bind_ok (on_bound v')]
      refine (loose_moreItems h hv (Nat.lt_succ_of_le v.length_rest_le)
        (Nat.lt_succ_of_le v'.length_rest_le)).bind_meets
        (fun es es' u u' _ _ hes hu => ?_) fun es u hu => (fails_expect hu (by decide) _).bind
      exact Twin.meets_bind (expect_meets hu rfl _) fun _ _ x x' _ _ _ hx =>
        .ok (by simp [he, hes]) hx
    · exact Twin.meets_bind (expect_meets hv rfl _) fun _ _ x x' _ _ _ hx => .ok he hx
  · exact fails_check hv (by decide) (fails_expect hv (by decide) _).bind

theorem list_meets {w w' : Window} (hw : T.near w w') :
    T.Meets (fun e e' : Expr => e.bare = e'.bare) ((list (expression depth)).on stack w)
      ((list (expression depth)).on stack w') := by
  refine (loose_skipNewlines hw).bind_meets (fun _ _ v v' _ _ _ hv => ?_) fun _ v hv =>
    fails_check hv (by decide) (fails_item hv depth).bind
  refine check_alike (P := T.Meets _) hv rfl (fun _ => closeList_meets rfl hv) ?_
  refine (loose_item h hv).bind_meets (fun e e' u u' _ _ he hu => ?_) fun e u hu =>
    StraysAt.fails_bind (.inr ⟨_, u, on_bound u, hu⟩) fun n x hx =>
      (strays_moreItems hx depth n).fails_bind fun es y hy => (fails_expect hy (by decide) _).bind
  rw [on_bind_ok (on_bound u), on_bind_ok (on_bound u')]
  exact (loose_moreItems h hu (Nat.lt_succ_of_le u.length_rest_le)
    (Nat.lt_succ_of_le u'.length_rest_le)).bind_meets
    (fun es es' x x' _ _ hes hx => closeList_meets (by simp [he, hes]) hx)
    fun es x hx => (fails_expect hx (by decide) _).bind

theorem loose_guard {e e' : Expr} (he : e.bare = e'.bare) {w w' : Window} (hw : T.near w w') :
    T.Loose (fun g g' : Guard => g.bare = g'.bare) ((guard (expression depth) e).on stack w)
      ((guard (expression depth) e').on stack w') := by
  refine loose_accept hw rfl (fun _ _ ha => ?_) (.meets (.ok (by simp [he]) hw))
  exact (loose_item h ha).bind (fun v v' u u' _ _ hv hu => .meets (.ok (by simp [he, hv]) hu))
    fun v u hu => .inr ⟨_, u, rfl, hu⟩

/-- Heads of cases that agree up to positions. -/
def SameHead (c c' : CaseHead) : Prop := c.expr.bare = c'.expr.bare ∧ c.start.bare = c'.start.bare

def SameGuards (r r' : List Guard × Option CaseHead) : Prop :=
  r.1.map Guard.bare = r'.1.map Guard.bare ∧ Option.Rel SameHead r.2 r'.2

/-- Behind a comma: an item, and what begins with it. The guards of that are near by assumption. -/
theorem loose_afterGuard {n n' : Nat} {g g' : Guard} (hg : g.bare = g'.bare) {w w' : Window}
    (hw : T.near w w')
    (ih : ∀ e e' : Expr, e.bare = e'.bare → ∀ v v', T.near v v' → v.rest.length ≤ w.rest.length →
      v'.rest.length ≤ w'.rest.length → T.Loose SameGuards
        ((guards (expression depth) n e).on stack v)
        ((guards (expression depth) n' e').on stack v')) :
    T.Loose SameGuards ((afterGuard (expression depth) n g).on stack w)
      ((afterGuard (expression depth) n' g').on stack w') := by
  refine (loose_skipNewlines hw).bind (fun _ _ v v' hr hr' _ hv => ?_)
    fun _ v hv => .inl (fails_currentItem hv depth _)
  have hl : v.rest.length ≤ w.rest.length := (moves.skipNewlines.reaches_of_ok hr).length_rest_le
  have hl' : v'.rest.length ≤ w'.rest.length :=
    (moves.skipNewlines.reaches_of_ok hr').length_rest_le
  rcases not_seam_or_lost hr hv with hs | hlost
  · rw [on_bind_ok (on_current v), on_bind_ok (on_current v')]
    refine (loose_item h hv).bind (fun e e' u u' hr hr' he hu => ?_) fun e u hu => ?_
    · have hi := length_rest_item hr
      have hi' := length_rest_item hr'
      refine check_alike (P := T.Loose _) hu rfl
        (fun _ => .meets (.ok ⟨by simp [hg], .some ⟨he, T.bare hv hs⟩⟩ hu)) ?_
      refine (ih e e' he u u' hu (by omega) (by omega)).bind
        (fun ⟨gs, c⟩ ⟨gs', c'⟩ x x' _ _ hgs hx => .meets (.ok ⟨?_, hgs.2⟩ hx))
        fun ⟨gs, c⟩ x hx => .inr ⟨_, x, rfl, hx⟩
      simp [hg, hgs.1]
    · exact strays_check hu (by decide) ((strays_guards hu depth n e).bind
        fun ⟨_, _⟩ x hx => .inr ⟨_, x, rfl, hx⟩)
  · obtain ⟨f, x, hf, ho⟩ := (fails_currentItem hlost depth _ : T.FailsAt _ stack _)
    rw [hf]
    exact .meets (.off (ho _ _))

theorem loose_guards {n n' : Nat} {e e' : Expr} (he : e.bare = e'.bare) {w w' : Window}
    (hw : T.near w w') (hn : w.rest.length < n) (hn' : w'.rest.length < n') :
    T.Loose SameGuards ((guards (expression depth) n e).on stack w)
      ((guards (expression depth) n' e').on stack w') := by
  induction n generalizing n' e e' w w' with
  | zero => omega
  | succ n ih =>
    obtain ⟨n', rfl⟩ : ∃ k, n' = k + 1 := ⟨n' - 1, by omega⟩
    rw [on_guards, on_guards]
    refine (loose_guard h he hw).bind (fun g g' v v' hr hr' hg hv => ?_) fun g v hv =>
      strays_afterComma hv depth g n
    have hl := ((moves.guard (moves_expression depth) e).reaches_of_ok hr).length_rest_le
    have hl' := ((moves.guard (moves_expression depth) e').reaches_of_ok hr').length_rest_le
    refine loose_accept hv rfl (fun hc hc' ha => ?_) (.meets (.ok ⟨by simp [hg], .none⟩ hv))
    have ha₁ := Window.length_rest_advance (w := v) (by simp [hc])
    have ha₁' := Window.length_rest_advance (w := v') (by simp [hc'])
    exact loose_afterGuard h hg ha fun e e' he x x' hx hlx hlx' => ih he hx (by omega) (by omega)

theorem loose_cases {n n' : Nat} {c c' : CaseHead} (hc : SameHead c c') {w w' : Window}
    (hw : T.near w w') (hn : w.rest.length < n) (hn' : w'.rest.length < n') :
    T.Loose (fun cs cs' : List Case => cs.map Case.bare = cs'.map Case.bare)
      ((cases (expression depth) n c).on stack w) ((cases (expression depth) n' c').on stack w') := by
  induction n generalizing n' c c' w w' with
  | zero => omega
  | succ n ih =>
    obtain ⟨n', rfl⟩ : ∃ k, n' = k + 1 := ⟨n' - 1, by omega⟩
    rw [on_cases, on_cases]
    refine .of_meets (expect_meets hw rfl _) fun _ _ v v' hr hr' _ hv => ?_
    obtain ⟨hk, -, rfl⟩ := expect_of_on hr
    obtain ⟨hk', -, rfl⟩ := expect_of_on hr'
    have hl := Window.length_rest_advance (w := w) (by simp [hk])
    have hl' := Window.length_rest_advance (w := w') (by simp [hk'])
    refine .of_meets (pattern_meets hv hc.1 hc.2) fun p p' v v' hr hr' hp hv => ?_
    have hl₁ := ((moves.pattern _ _).reaches_of_ok hr).length_rest_le
    have hl₁' := ((moves.pattern _ _).reaches_of_ok hr').length_rest_le
    refine (loose_item h hv).bind (fun e e' u u' hr hr' he hu => ?_) fun e u hu => ?_
    · have hl₂ := length_rest_item hr
      have hl₂' := length_rest_item hr'
      rw [on_bind_ok (on_bound u), on_bind_ok (on_bound u')]
      refine (loose_guards h he hu (Nat.lt_succ_of_le u.length_rest_le)
        (Nat.lt_succ_of_le u'.length_rest_le)).bind
        (fun ⟨gs, c⟩ ⟨gs', c'⟩ x x' hr hr' ⟨hgs, hcs⟩ hx => ?_) fun ⟨gs, c⟩ x hx => ?_
      · have hl₃ := ((moves.guards (moves_expression depth) _ _).reaches_of_ok hr).length_rest_le
        have hl₃' := ((moves.guards (moves_expression depth) _ _).reaches_of_ok hr').length_rest_le
        cases hcs with
        | none => exact .meets (.ok (by simp [hp, hgs]) hx)
        | some hc =>
          refine (ih hc hx (by omega) (by omega)).bind (fun cs cs' y y' _ _ hcs hy => ?_)
            fun cs y hy => .inr ⟨_, y, rfl, hy⟩
          exact .meets (.ok (by simp [hp, hgs, hcs]) hy)
      · exact strays_afterGuards hx depth n p (gs, c)
    · exact StraysAt.bind (.inr ⟨_, u, on_bound u, hu⟩) fun m x hx =>
        (strays_guards hx depth m e).bind fun r y hy => strays_afterGuards hy depth n p r

theorem function_meets {w w' : Window} (hw : T.near w w') :
    T.Meets (fun e e' : Expr => e.bare = e'.bare) ((function (expression depth)).on stack w)
      ((function (expression depth)).on stack w') := by
  refine (loose_skipNewlines hw).bind_meets (fun _ _ v v' hr hr' _ hv => ?_) fun _ v hv =>
    fails_currentItem hv depth _
  rcases not_seam_or_lost hr hv with hs | hlost
  · rw [on_bind_ok (on_current v), on_bind_ok (on_current v')]
    refine (loose_item h hv).bind_meets (fun e e' u u' _ _ he hu => ?_) fun e u hu =>
      StraysAt.fails_bind (.inr ⟨_, u, on_bound u, hu⟩) fun n x hx =>
        (strays_cases hx depth n _).fails_bind fun cs y hy => (fails_expect hy (by decide) _).bind
    rw [on_bind_ok (on_bound u), on_bind_ok (on_bound u')]
    refine (loose_cases h ⟨he, T.bare hv hs⟩ hu (Nat.lt_succ_of_le u.length_rest_le)
      (Nat.lt_succ_of_le u'.length_rest_le)).bind_meets
      (fun cs cs' x x' _ _ hcs hx => ?_) fun cs x hx => (fails_expect hx (by decide) _).bind
    exact Twin.meets_bind (expect_meets hx rfl _) fun _ _ y y' _ _ _ hy => .ok (by simp [hcs]) hy
  · obtain ⟨f, x, hf, ho⟩ := (fails_currentItem hlost depth _ : T.FailsAt _ stack _)
    rw [hf]
    exact .off (ho _ _)

end

/-- Behind an opening bracket the runs meet, whatever is nested there. -/
theorem brackets (T : NestedTwin) : T.Brackets := by
  intro depth h form hform stack w w' hw hs hf
  have ha := T.advance hw hs
  rcases hform with rfl | rfl | rfl
  all_goals
    refine Twin.call_meets ha fun stack => ?_
    rw [on_bind_ok (on_previous w.advance), on_bind_ok (on_previous w'.advance)]
  · exact group_meets h ha
  · exact list_meets h ha
  · exact function_meets h ha

end NestedTwin
end ArrowLang
