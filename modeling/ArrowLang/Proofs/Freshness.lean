import ArrowLang.Documents
import Mathlib.Data.List.Forall2
import Mathlib.Data.List.Induction
import Mathlib.Data.String.Basic

/-!
# Documents are independent and fresh

Whatever is opened, changed and closed in whatever order, a document is kept with the text that came
last and with what reading this text alone reports.
-/
namespace ArrowLang

/-- The event brings a text for an address: the last one of a change, or the empty text if the
change has none. -/
inductive DocumentEvent.Delivers : DocumentEvent → String → String → Prop where
  | opened (address text : String) : Delivers (.opened address text) address text
  | changed (address : String) (texts : List String) (text : String) :
      Delivers (.changed address (texts ++ [text])) address text
  | emptied (address : String) : Delivers (.changed address []) address ""

def DocumentEvent.address : DocumentEvent → String
  | .opened address _ => address
  | .changed address _ => address
  | .closed address => address

/-- The note tells of the diagnostic: it marks the one character before the column, counted from zero
and not before the first, and says that it is an error, whose, by its code, and in its words with the
place. -/
structure Note.TellsOf (n : Note) (d : Diagnostic) : Prop where
  startLine : (n.span.startLine : Int) = max 0 (d.line - 1)
  endLine : n.span.endLine = n.span.startLine
  startChar : (n.span.startChar : Int) = max 0 (d.col - 1)
  endChar : n.span.endChar = n.span.startChar + 1
  severity : n.severity = 1
  source : n.source = "gwn"
  code : n.code = d.code
  message : n.message = d.message ++ d.place

/-- The document holds a text and a note for each diagnostic that reading the text reports, in the order
of the reports. -/
structure Document.Reads (stack : Nat) (text : String) (d : Document) : Prop where
  holds : d.text = text
  notes : ∃ p, Program.read stack text = .ok p ∧ List.Forall₂ Note.TellsOf d.notes p.diagnostics

theorem Note.tellsOf_iff {n : Note} {d : Diagnostic} : n.TellsOf d ↔ n = .ofDiagnostic d := by
  constructor
  · rintro ⟨hsl, hel, hsc, hec, hs, ho, hc, hm⟩
    obtain ⟨⟨sl, sc, el, ec⟩, severity, source, code, message⟩ := n
    dsimp only at hsl hel hsc hec hs ho hc hm
    have hline : sl = (d.line - 1).toNat := by omega
    have hchar : sc = (d.col - 1).toNat := by omega
    rw [hel, hec, hs, ho, hc, hm, hline, hchar]
    rfl
  · rintro rfl
    refine ⟨?_, rfl, ?_, rfl, rfl, rfl, rfl, rfl⟩ <;> dsimp only [ofDiagnostic, Span.before] <;> omega

theorem Document.reads_iff {stack : Nat} {text : String} {d : Document} :
    Document.Reads stack text d ↔ Document.read stack text = .ok d := by
  have hnotes : ∀ (ns : List Note) (ds : List Diagnostic),
      List.Forall₂ Note.TellsOf ns ds ↔ ns = ds.map .ofDiagnostic := by
    intro ns ds
    have htells : Note.TellsOf = fun n d => n = .ofDiagnostic d :=
      funext₂ fun _ _ => propext Note.tellsOf_iff
    rw [htells, ← List.forall₂_map_right_iff, List.forall₂_eq_eq_eq]
  constructor
  · rintro ⟨rfl, p, hp, hd⟩
    rw [Document.read, hp, Except.map, ← (hnotes _ _).mp hd]
  · intro h
    rw [Document.read] at h
    cases hp : Program.read stack text with
    | error cause =>
      rw [hp] at h
      cases h
    | ok p =>
      rw [hp] at h
      cases h
      exact ⟨rfl, p, hp, (hnotes _ _).mpr rfl⟩

/-- Behind the event an earlier text for the address counts no more. -/
def DocumentEvent.Ends (stack : Nat) (e : DocumentEvent) (address : String) : Prop :=
  e = .closed address ∨ ∃ text d, e.Delivers address text ∧ Document.Reads stack text d

namespace Documents

/-- What an event publishes, or why it fails, and the documents behind it. -/
def step (stack : Nat) (ds : Documents) (e : DocumentEvent) :
    Except Abort (List Publication) × Documents :=
  match ds.handle stack e with
  | .ok (published, ds) => (.ok published, ds)
  | .error cause => (.error cause, ds)

/-- The documents behind a number of events. -/
def after (stack : Nat) (es : List DocumentEvent) : Documents :=
  es.foldl (fun ds e => (step stack ds e).2) []

/-- The last event for an address that was not in vain brought the document. -/
def Latest (stack : Nat) (es : List DocumentEvent) (address : String) (d : Document) : Prop :=
  ∃ before e behind text, es = before ++ e :: behind ∧ e.Delivers address text ∧
    Document.Reads stack text d ∧ ∀ e' ∈ behind, ¬ e'.Ends stack address

/-- Every address once, in ascending order. -/
def Ordered (ds : Documents) : Prop := ds.Pairwise fun x y => x.1 < y.1

variable {stack : Nat} {ds ds' : Documents} {a b text : String} {d d' : Document}
  {e e' : DocumentEvent}

theorem Ordered.nodup (h : Ordered ds) : ds.Nodup :=
  h.imp fun hlt heq => (heq ▸ hlt).false

theorem Ordered.ext (h : Ordered ds) (h' : Ordered ds') (hm : ∀ x, x ∈ ds ↔ x ∈ ds') : ds = ds' :=
  ((List.perm_ext_iff_of_nodup h.nodup h'.nodup).mpr hm).eq_of_pairwise
    (fun _ _ _ _ hlt hgt => (lt_asymm hlt hgt).elim) h h'

theorem mem_put_of_lt (h : ∀ x ∈ ds, a < x.1) {x : String × Document} :
    x ∈ (a, d) :: ds ↔ x = (a, d) ∨ x.1 ≠ a ∧ x ∈ ds := by
  rw [List.mem_cons]
  exact or_congr_right ⟨fun hx => ⟨(h x hx).ne', hx⟩, And.right⟩

theorem mem_put (h : Ordered ds) {x : String × Document} :
    x ∈ put a d ds ↔ x = (a, d) ∨ x.1 ≠ a ∧ x ∈ ds := by
  induction ds with
  | nil => simp [put]
  | cons y ds ih =>
    obtain ⟨c, f⟩ := y
    obtain ⟨hlt, hds⟩ := List.pairwise_cons.mp h
    unfold put
    split_ifs with hac hlt'
    · subst hac
      rw [mem_put_of_lt hlt]
      refine or_congr_right (and_congr_right fun hx => ?_)
      rw [List.mem_cons, or_iff_right]
      rintro rfl
      exact hx rfl
    · refine mem_put_of_lt fun y hy => ?_
      rcases List.mem_cons.mp hy with rfl | hy
      · exact hlt'
      · exact hlt'.trans (hlt y hy)
    · rw [List.mem_cons, ih hds, List.mem_cons]
      constructor
      · rintro (rfl | rfl | ⟨hx, hm⟩)
        · exact .inr ⟨Ne.symm hac, .inl rfl⟩
        · exact .inl rfl
        · exact .inr ⟨hx, .inr hm⟩
      · rintro (rfl | ⟨hx, rfl | hm⟩)
        · exact .inr (.inl rfl)
        · exact .inl rfl
        · exact .inr (.inr ⟨hx, hm⟩)

theorem Ordered.put (h : Ordered ds) (a : String) (d : Document) : Ordered (ds.put a d) := by
  induction ds with
  | nil => exact List.pairwise_singleton _ _
  | cons y ds ih =>
    obtain ⟨c, f⟩ := y
    obtain ⟨hlt, hds⟩ := List.pairwise_cons.mp h
    unfold Documents.put
    split_ifs with hac hlt'
    · subst hac
      exact List.pairwise_cons.mpr ⟨hlt, hds⟩
    · refine List.pairwise_cons.mpr ⟨fun y hy => ?_, h⟩
      rcases List.mem_cons.mp hy with rfl | hy
      · exact hlt'
      · exact hlt'.trans (hlt y hy)
    · refine List.pairwise_cons.mpr ⟨fun y hy => ?_, ih hds⟩
      rcases (mem_put hds).mp hy with rfl | ⟨-, hy⟩
      · exact lt_of_le_of_ne (not_lt.mp hlt') (Ne.symm hac)
      · exact hlt y hy

theorem mem_erase {x : String × Document} : x ∈ erase a ds ↔ x.1 ≠ a ∧ x ∈ ds := by
  simp [erase, and_comm]

theorem Ordered.erase (h : Ordered ds) (a : String) : Ordered (ds.erase a) := h.filter _

/-- An event has one address: it brings a text for it or closes it. -/
theorem delivers_or_closed (e : DocumentEvent) :
    (∃ text, e.Delivers e.address text) ∨ e = .closed e.address := by
  cases e with
  | opened a text => exact .inl ⟨text, .opened a text⟩
  | closed a => exact .inr rfl
  | changed a texts =>
    rcases List.eq_nil_or_concat' texts with rfl | ⟨ts, text, rfl⟩
    · exact .inl ⟨"", .emptied a⟩
    · exact .inl ⟨text, .changed a ts text⟩

theorem address_of_delivers (h : e.Delivers a text) : e.address = a := by
  cases h <;> rfl

theorem address_of_ends (h : e.Ends stack a) : e.address = a := by
  rcases h with rfl | ⟨text, d, h, -⟩
  · rfl
  · exact address_of_delivers h

theorem handle_of_delivers (h : e.Delivers a text) (ds : Documents) :
    ds.handle stack e = ds.update stack a text := by
  cases h with
  | opened _ _ => rfl
  | changed _ ts _ => simp [handle]
  | emptied _ => rfl

/-- What a text brings is the text's alone. -/
theorem delivers_text_eq {text' : String} (h : e.Delivers a text) (h' : e.Delivers b text') :
    text = text' := by
  cases h with
  | opened _ _ => cases h'; rfl
  | emptied _ =>
    generalize he : DocumentEvent.changed a [] = e at h'
    cases h' <;> simp_all
  | changed _ ts _ =>
    generalize he : DocumentEvent.changed a (ts ++ [text]) = e at h'
    cases h' <;> simp_all

theorem step_of_reads (h : e.Delivers a text) (hd : Document.Reads stack text d) (ds : Documents) :
    ds.step stack e = (.ok [⟨a, d.notes⟩], ds.put a d) := by
  rw [step, handle_of_delivers h, update, Document.reads_iff.mp hd]
  rfl

theorem step_of_error (h : e.Delivers a text) {cause : Abort}
    (hc : Program.read stack text = .error cause) (ds : Documents) :
    ds.step stack e = (.error cause, ds) := by
  rw [step, handle_of_delivers h, update, Document.read, hc]
  rfl

theorem step_closed (a : String) (ds : Documents) :
    ds.step stack (.closed a) = (.ok [], ds.erase a) := rfl

theorem reads_or_error (text : String) :
    (∃ d, Document.Reads stack text d) ∨ ∃ cause, Program.read stack text = .error cause := by
  rcases h : Program.read stack text with cause | p
  · exact .inr ⟨cause, rfl⟩
  · exact .inl ⟨_, Document.reads_iff.mpr (by rw [Document.read, h]; rfl)⟩

/-- What an event can do: it brings a document that can be read, it is in vain, or it closes one. -/
theorem step_cases (e : DocumentEvent) :
    (∃ text d, e.Delivers e.address text ∧ Document.Reads stack text d ∧
      ∀ ds, step stack ds e = (.ok [⟨e.address, d.notes⟩], ds.put e.address d)) ∨
    (∃ text cause, e.Delivers e.address text ∧ Program.read stack text = .error cause ∧
      ∀ ds, step stack ds e = (.error cause, ds)) ∨
    (e = .closed e.address ∧ ∀ ds, step stack ds e = (.ok [], ds.erase e.address)) := by
  rcases delivers_or_closed e with ⟨text, h⟩ | h
  · rcases reads_or_error text with ⟨d, hd⟩ | ⟨cause, hc⟩
    · exact .inl ⟨text, d, h, hd, step_of_reads h hd⟩
    · exact .inr (.inl ⟨text, cause, h, hc, step_of_error h hc⟩)
  · refine .inr (.inr ⟨h, fun ds => ?_⟩)
    rw [h]
    rfl

theorem Ordered.step (h : Ordered ds) (e : DocumentEvent) : Ordered (ds.step stack e).2 := by
  rcases step_cases e with ⟨text, d, -, -, hs⟩ | ⟨text, cause, -, -, hs⟩ | ⟨-, hs⟩
  · rw [hs]
    exact h.put _ d
  · rw [hs]
    exact h
  · rw [hs]
    exact h.erase _

/-- What an event publishes depends on no document. -/
theorem step_fst (e : DocumentEvent) (ds ds' : Documents) :
    (ds.step stack e).1 = (ds'.step stack e).1 := by
  rcases step_cases e with ⟨text, d, -, -, hs⟩ | ⟨text, cause, -, -, hs⟩ | ⟨-, hs⟩ <;> rw [hs, hs]

theorem reads_inj (h : Document.Reads stack text d) (h' : Document.Reads stack text d') : d = d' := by
  have hread := (Document.reads_iff.mp h).symm.trans (Document.reads_iff.mp h')
  exact Except.ok.inj hread

/-- Behind an event a document is one that the event brings, or one from before that the event does
not end. -/
theorem mem_step (h : Ordered ds) {x : String × Document} : x ∈ (ds.step stack e).2 ↔
    (∃ text, e.Delivers x.1 text ∧ Document.Reads stack text x.2) ∨ ¬ e.Ends stack x.1 ∧ x ∈ ds := by
  rcases step_cases e with ⟨text, d, he, hd, hs⟩ | ⟨text, cause, he, hc, hs⟩ | ⟨he, hs⟩
  · rw [hs, mem_put h]
    constructor
    · rintro (rfl | ⟨hne, hx⟩)
      · exact .inl ⟨text, he, hd⟩
      · exact .inr ⟨fun hends => hne (address_of_ends hends).symm, hx⟩
    · rintro (⟨text', he', hd'⟩ | ⟨hends, hx⟩)
      · obtain rfl := delivers_text_eq he he'
        exact .inl (Prod.ext (address_of_delivers he').symm (reads_inj hd' hd))
      · exact .inr ⟨fun heq => hends (heq ▸ .inr ⟨text, d, he, hd⟩), hx⟩
  · have hvain : ∀ {a d text'}, e.Delivers a text' → ¬ Document.Reads stack text' d := by
      rintro a d text' he' ⟨-, p, hp, -⟩
      obtain rfl := delivers_text_eq he he'
      rw [hc] at hp
      cases hp
    rw [hs]
    constructor
    · refine fun hx => .inr ⟨?_, hx⟩
      rintro (rfl | ⟨text', d, he', hd⟩)
      · cases he
      · exact hvain he' hd
    · rintro (⟨text', he', hd⟩ | ⟨-, hx⟩)
      · exact (hvain he' hd).elim
      · exact hx
  · rw [hs, mem_erase]
    constructor
    · rintro ⟨hne, hx⟩
      exact .inr ⟨fun hends => hne (address_of_ends hends).symm, hx⟩
    · rintro (⟨text, he', -⟩ | ⟨hends, hx⟩)
      · rw [he] at he'
        cases he'
      · exact ⟨fun heq => hends (.inl (heq ▸ he)), hx⟩

/-- Documents at other addresses are left alone. -/
theorem mem_step_of_ne (h : Ordered ds) {x : String × Document} (hne : e.address ≠ x.1) :
    x ∈ (ds.step stack e).2 ↔ x ∈ ds := by
  rw [mem_step h]
  constructor
  · rintro (⟨text, he, -⟩ | ⟨-, hx⟩)
    · exact (hne (address_of_delivers he)).elim
    · exact hx
  · exact fun hx => .inr ⟨fun hends => hne (address_of_ends hends), hx⟩

/-- The last event for an address is the one at the end, or an earlier one that that does not end. -/
theorem latest_concat {es : List DocumentEvent} : Latest stack (es ++ [e]) a d ↔
    (∃ text, e.Delivers a text ∧ Document.Reads stack text d) ∨
      ¬ e.Ends stack a ∧ Latest stack es a d := by
  constructor
  · rintro ⟨before, e', behind, text, hes, hd, hr, hb⟩
    rcases List.eq_nil_or_concat' behind with rfl | ⟨behind, e'', rfl⟩
    · obtain ⟨rfl, he⟩ := List.append_inj' hes rfl
      obtain rfl := List.singleton_inj.mp he
      exact .inl ⟨text, hd, hr⟩
    · rw [← List.cons_append, ← List.append_assoc] at hes
      obtain ⟨rfl, he⟩ := List.append_inj' hes rfl
      obtain rfl := List.singleton_inj.mp he
      exact .inr ⟨hb e (by simp), before, e', behind, text, rfl, hd, hr,
        fun x hx => hb x (List.mem_append_left _ hx)⟩
  · rintro (⟨text, hd, hr⟩ | ⟨he, before, e', behind, text, rfl, hd, hr, hb⟩)
    · exact ⟨es, e, [], text, rfl, hd, hr, nofun⟩
    · refine ⟨before, e', behind ++ [e], text, by simp, hd, hr, fun x hx => ?_⟩
      rcases List.mem_append.mp hx with hx | hx
      · exact hb x hx
      · exact List.mem_singleton.mp hx ▸ he

theorem after_concat (es : List DocumentEvent) (e : DocumentEvent) :
    after stack (es ++ [e]) = ((after stack es).step stack e).2 := by
  simp [after]

theorem ordered_after (es : List DocumentEvent) : Ordered (after stack es) := by
  induction es using List.reverseRecOn with
  | nil => exact List.Pairwise.nil
  | append_singleton es e ih =>
    rw [after_concat]
    exact ih.step e

theorem mem_after (es : List DocumentEvent) : (a, d) ∈ after stack es ↔ Latest stack es a d := by
  induction es using List.reverseRecOn with
  | nil =>
    refine iff_of_false List.not_mem_nil ?_
    rintro ⟨before, e, behind, text, hes, -⟩
    simp at hes
  | append_singleton es e ih => rw [after_concat, mem_step (ordered_after es), latest_concat, ih]

/-- Events for different addresses commute. -/
theorem step_comm (h : Ordered ds) (hne : e.address ≠ e'.address) :
    ((ds.step stack e).2.step stack e').2 = ((ds.step stack e').2.step stack e).2 := by
  refine Ordered.ext ((h.step e).step e') ((h.step e').step e) fun x => ?_
  by_cases hx : e.address = x.1
  · have hx' : e'.address ≠ x.1 := fun hx' => hne (hx.trans hx'.symm)
    rw [mem_step_of_ne (h.step e) hx', mem_step h, mem_step (h.step e'), mem_step_of_ne h hx']
  · rw [mem_step_of_ne (h.step e') hx, mem_step h, mem_step (h.step e), mem_step_of_ne h hx]

/-- What holds behind any events, and what the next one does. -/
structure Fresh (stack : Nat) (es : List DocumentEvent) : Prop where
  ordered : Ordered (after stack es)
  holds : ∀ a d, (a, d) ∈ after stack es ↔ Latest stack es a d
  publishes : ∀ e a text d, e.Delivers a text → Document.Reads stack text d →
    (after stack es).step stack e = (.ok [⟨a, d.notes⟩], after stack (es ++ [e])) ∧
      (a, d) ∈ after stack (es ++ [e])
  raises : ∀ e a text cause, e.Delivers a text → Program.read stack text = .error cause →
    (after stack es).step stack e = (.error cause, after stack es)
  closes : ∀ a, (after stack es).step stack (.closed a) = (.ok [], after stack (es ++ [.closed a])) ∧
    ∀ d, (a, d) ∉ after stack (es ++ [.closed a])
  swaps : ∀ e e', e.address ≠ e'.address →
    after stack (es ++ [e, e']) = after stack (es ++ [e', e]) ∧
    ((after stack (es ++ [e'])).step stack e).1 = ((after stack es).step stack e).1 ∧
    ((after stack (es ++ [e])).step stack e').1 = ((after stack es).step stack e').1

theorem after_pair (es : List DocumentEvent) (e e' : DocumentEvent) :
    after stack (es ++ [e, e']) = (((after stack es).step stack e).2.step stack e').2 := by
  simp [after]

/-- Behind any events the documents are independent and fresh. -/
theorem fresh_after (es : List DocumentEvent) : Fresh stack es where
  ordered := ordered_after es
  holds _ _ := mem_after es
  publishes e a text d he hd := by
    rw [after_concat, step_of_reads he hd]
    exact ⟨rfl, (mem_put (ordered_after es)).mpr (.inl rfl)⟩
  raises e a text cause he hc := step_of_error he hc (after stack es)
  closes a := by
    rw [after_concat, step_closed]
    exact ⟨rfl, fun d hm => (mem_erase.mp hm).1 rfl⟩
  swaps e e' hne := by
    rw [after_pair, after_pair]
    exact ⟨step_comm (ordered_after es) hne, step_fst e _ _, step_fst e' _ _⟩

end Documents
end ArrowLang
