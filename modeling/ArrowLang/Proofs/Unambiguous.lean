import ArrowLang.Proofs.Echo
import ArrowLang.Proofs.Longest
import ArrowLang.Proofs.Titles

/-!
# Outlines tell trees apart

Each kind of node has its own title and its fields tell its parts, so well-formed trees with one block
are the same up to positions. A dump is cut into lines and the lines into blocks, so texts with one
dump have the same declarations up to positions.
-/
namespace ArrowLang

open Outline
open Outline.Block (Visible AllNeat)

theorem Token.Spelled.bare_eq {t u : Token} (ht : t.Spelled) (hu : u.Spelled)
    (h : t.lexeme = u.lexeme) : t.bare = u.bare :=
  Token.bare_eq_iff.mpr ⟨Lexical.kind_unique (.spelled ht) (h ▸ .spelled hu), h⟩

theorem Token.IsIdentifier.bare_eq {t u : Token} (ht : t.IsIdentifier) (hu : u.IsIdentifier)
    (h : t.lexeme = u.lexeme) : t.bare = u.bare :=
  Token.bare_eq_iff.mpr ⟨ht.1.trans hu.1.symm, h⟩

/-- A tree whose block no other tree of the kind has, up to positions. -/
def Distinct {α : Type} (block : α → Outline.Block) (bare : α → α) (P : α → Prop) (x : α) : Prop :=
  ∀ y, P y → block x = block y → bare x = bare y

def Expr.Distinct : Expr → Prop := ArrowLang.Distinct Expr.block Expr.bare Expr.WellFormed
def Case.Distinct : Case → Prop := ArrowLang.Distinct Case.block Case.bare Case.WellFormed
def Guard.Distinct : Guard → Prop := ArrowLang.Distinct Guard.block Guard.bare Guard.WellFormed
def Decl.Distinct : Decl → Prop := ArrowLang.Distinct Decl.block Decl.bare Decl.WellFormed

theorem map_eq_of_distinct {α : Type} {block : α → Outline.Block} {bare : α → α} {P : α → Prop}
    {xs ys : List α} (hx : ∀ x ∈ xs, Distinct block bare P x) (hy : ∀ y ∈ ys, P y)
    (h : xs.map block = ys.map block) : xs.map bare = ys.map bare := by
  induction xs generalizing ys with
  | nil => rw [List.map_eq_nil_iff.mp h.symm]
  | cons x xs ih =>
    obtain ⟨y, ys, rfl, hyx, hrest⟩ := List.map_eq_cons_iff.mp h.symm
    obtain ⟨hxy, hxs⟩ := List.forall_mem_cons.mp hx
    obtain ⟨hyP, hys⟩ := List.forall_mem_cons.mp hy
    rw [List.map_cons, List.map_cons, hxy y hyP hyx.symm, ih hxs hys hrest.symm]

theorem Literal.block_inj {l l' : Literal} {label label' : String} (hl : l.Signed) (hl' : l'.Signed)
    (hname : l.nodeName ++ label = l'.nodeName ++ label' → l.nodeName = l'.nodeName)
    (h : l.block label = l'.block label') : l = l' := by
  obtain ⟨htitle, hfields⟩ := nodeBlock_inj.mp h
  exact valueText_inj hl hl' (hname htitle) (fieldBlock_inj.mp (List.singleton_inj.mp hfields))

theorem Pattern.WellFormed.bare_eq_of_field {p q : Pattern} (hp : p.WellFormed) (hq : q.WellFormed)
    (h : p.field = q.field) : p.bare = q.bare := by
  cases p with
  | literal l =>
    cases q with
    | literal l' =>
      have hblock : l.block "" = l'.block "" := by simpa [Pattern.field] using h
      rw [Literal.block_inj hp hq (by simp) hblock]
    | name t => simp [Pattern.field] at h
    | stray v => cases hq
  | name t =>
    cases q with
    | literal l => simp [Pattern.field] at h
    | name u =>
      have hlexeme : t.lexeme = u.lexeme := by simpa [Pattern.field] using h
      exact congrArg Pattern.name (hp.bare_eq hq hlexeme)
    | stray v => cases hq
  | stray v => cases hp

theorem map_eq_of_listBlock {α : Type} {block : α → Outline.Block} {bare : α → α} {P : α → Prop}
    {name : String} {xs ys : List α} (hx : ∀ x ∈ xs, Distinct block bare P x) (hy : ∀ y ∈ ys, P y)
    (h : [listBlock name (xs.map block)] = [listBlock name (ys.map block)]) :
    xs.map bare = ys.map bare :=
  map_eq_of_distinct hx hy (listBlock_inj.mp (List.singleton_inj.mp h))

section
variable {o t : Token} {x l r c v : Expr}

theorem distinct_literal {l : Literal} (hl : l.Unsigned) : (Expr.of (.literal l)).Distinct := by
  intro e he h
  cases he with
  | literal hl' => rw [Literal.block_inj hl.signed hl'.signed nodeName_of_title h]
  | _ => exact absurd (nodeBlock_inj.mp h).1 (title_literal_ne l _)

theorem distinct_name (ht : t.IsIdentifier) : (Expr.of (.name t)).Distinct := by
  intro e he h
  cases he with
  | @name u hu =>
    have hlexeme : t.lexeme = u.lexeme := by simpa using h
    rw [Expr.bare_of_name, Expr.bare_of_name, ht.bare_eq hu hlexeme]
  | literal => exact absurd (nodeBlock_inj.mp h).1.symm (title_literal_ne _ _)
  | _ => simp at h

theorem distinct_unary (ho : o.Spelled) (hx : x.Distinct) : (Expr.of (.unary o x)).Distinct := by
  intro e he h
  cases he with
  | @unary o' x' ho' _ hx' =>
    obtain ⟨hop, hblock⟩ : o.lexeme = o'.lexeme ∧ x.block = x'.block := by simpa using h
    rw [Expr.bare_of_unary, Expr.bare_of_unary, ho.bare_eq ho' hop, hx _ hx' hblock]
  | literal => exact absurd (nodeBlock_inj.mp h).1.symm (title_literal_ne _ _)
  | _ => simp at h

section
variable (ho : o.Spelled) (hl : l.Distinct) (hr : r.Distinct)
include ho hl hr

/-- An operator and two sides, whatever their fields are called. -/
theorem bare_eq_of_sides {left right : String} {o' : Token} {l' r' : Expr} (ho' : o'.Spelled)
    (hl' : l'.WellFormed) (hr' : r'.WellFormed)
    (h : [tokenBlock "operator" o, belowBlock left [l.block], belowBlock right [r.block]] =
      [tokenBlock "operator" o', belowBlock left [l'.block], belowBlock right [r'.block]]) :
    o.bare = o'.bare ∧ l.bare = l'.bare ∧ r.bare = r'.bare := by
  obtain ⟨hop, hleft, hright⟩ : o.lexeme = o'.lexeme ∧ l.block = l'.block ∧ r.block = r'.block := by
    simpa using h
  exact ⟨ho.bare_eq ho' hop, hl l' hl' hleft, hr r' hr' hright⟩

theorem distinct_binary : (Expr.of (.binary o l r)).Distinct := by
  intro e he h
  cases he with
  | binary ho' _ hl' hr' =>
    obtain ⟨hop, hleft, hright⟩ := bare_eq_of_sides ho hl hr ho' hl' hr' (nodeBlock_inj.mp h).2
    rw [Expr.bare_of_binary, Expr.bare_of_binary, hop, hleft, hright]
  | literal => exact absurd (nodeBlock_inj.mp h).1.symm (title_literal_ne _ _)
  | _ => simp at h

theorem distinct_logical : (Expr.of (.logical o l r)).Distinct := by
  intro e he h
  cases he with
  | logical ho' _ hl' hr' =>
    obtain ⟨hop, hleft, hright⟩ := bare_eq_of_sides ho hl hr ho' hl' hr' (nodeBlock_inj.mp h).2
    rw [Expr.bare_of_logical, Expr.bare_of_logical, hop, hleft, hright]
  | literal => exact absurd (nodeBlock_inj.mp h).1.symm (title_literal_ne _ _)
  | _ => simp at h

theorem distinct_apply : (Expr.of (.apply o l r)).Distinct := by
  intro e he h
  cases he with
  | apply ho' _ hl' hr' =>
    obtain ⟨hop, hleft, hright⟩ := bare_eq_of_sides ho hl hr ho' hl' hr' (nodeBlock_inj.mp h).2
    rw [Expr.bare_of_apply, Expr.bare_of_apply, hop, hleft, hright]
  | literal => exact absurd (nodeBlock_inj.mp h).1.symm (title_literal_ne _ _)
  | _ => simp at h

end

theorem distinct_function {cs : List Case} (hcs : ∀ c ∈ cs, c.Distinct) :
    (Expr.of (.function cs)).Distinct := by
  intro e he h
  cases he with
  | function _ hcs' =>
    rw [Expr.block_of_function, Expr.block_of_function, nodeBlock_inj] at h
    rw [Expr.bare_of_function, Expr.bare_of_function, map_eq_of_listBlock hcs hcs' h.2]
  | literal => exact absurd (nodeBlock_inj.mp h).1.symm (title_literal_ne _ _)
  | _ => simp at h

theorem distinct_tuple {es : List Expr} (hes : ∀ e ∈ es, e.Distinct) :
    (Expr.of (.tuple es)).Distinct := by
  intro e he h
  cases he with
  | tuple _ hes' =>
    rw [Expr.block_of_tuple, Expr.block_of_tuple, nodeBlock_inj] at h
    rw [Expr.bare_of_tuple, Expr.bare_of_tuple, map_eq_of_listBlock hes hes' h.2]
  | literal => exact absurd (nodeBlock_inj.mp h).1.symm (title_literal_ne _ _)
  | _ => simp at h

theorem distinct_list {es : List Expr} (hes : ∀ e ∈ es, e.Distinct) :
    (Expr.of (.list es)).Distinct := by
  intro e he h
  cases he with
  | list hes' =>
    rw [Expr.block_of_list, Expr.block_of_list, nodeBlock_inj] at h
    rw [Expr.bare_of_list, Expr.bare_of_list, map_eq_of_listBlock hes hes' h.2]
  | literal => exact absurd (nodeBlock_inj.mp h).1.symm (title_literal_ne _ _)
  | _ => simp at h

theorem distinct_case {p : Pattern} {gs : List Guard} (hp : p.WellFormed)
    (hgs : ∀ g ∈ gs, g.Distinct) : (Case.mk p gs).Distinct := by
  rintro _ ⟨hp', -, hgs'⟩ h
  rw [Case.block_mk, Case.block_mk, nodeBlock_inj] at h
  obtain ⟨hfield, hguards⟩ := List.append_inj' h.2 rfl
  rw [Case.bare_mk, Case.bare_mk, hp.bare_eq_of_field hp' hfield, map_eq_of_listBlock hgs hgs' hguards]

theorem distinct_guard (hc : c.Distinct) (hv : v.Distinct) : (Guard.mk c v).Distinct := by
  rintro _ ⟨hc', hv'⟩ h
  next c' v' =>
  obtain ⟨hcondition, hvalue⟩ : c.block = c'.block ∧ v.block = v'.block := by simpa using h
  rw [Guard.bare_mk, Guard.bare_mk, hc _ hc' hcondition, hv _ hv' hvalue]

end

/-- By induction on the tree: each kind of node has its own title, and its fields tell its parts. -/
theorem Expr.WellFormed.distinct {e : Expr} (h : e.WellFormed) : e.Distinct :=
  h.rec (motive_1 := fun e _ => e.Distinct) (motive_2 := fun c _ => c.Distinct)
    (motive_3 := fun g _ => g.Distinct)
    (fun hl => distinct_literal hl)
    (fun ht => distinct_name ht)
    (fun ho _ _ hx => distinct_unary ho hx)
    (fun ho _ _ _ hl hr => distinct_binary ho hl hr)
    (fun ho _ _ _ hl hr => distinct_logical ho hl hr)
    (fun ho _ _ _ hl hr => distinct_apply ho hl hr)
    (fun _ _ h => distinct_function h)
    (fun _ _ h => distinct_tuple h)
    (fun _ h => distinct_list h)
    (fun hp _ _ h => distinct_case hp h)
    (fun _ _ hc hv => distinct_guard hc hv)

theorem Decl.WellFormed.distinct {d : Decl} (h : d.WellFormed) : d.Distinct := by
  intro d' h' heq
  cases d with
  | constant n t e =>
    obtain ⟨hn, ht, he⟩ := h
    cases d' with
    | constant n' t' e' =>
      obtain ⟨hn', ht', he'⟩ := h'
      rw [Decl.bare_constant, Decl.bare_constant]
      cases t with
      | none =>
        cases t' with
        | none =>
          obtain ⟨hname, hblock⟩ : n.lexeme = n'.lexeme ∧ e.block = e'.block := by
            simpa [Decl.block] using heq
          rw [hn.bare_eq hn' hname, he.distinct e' he' hblock, Option.map_none]
        | some u' => simp [Decl.block] at heq
      | some u =>
        cases t' with
        | none => simp [Decl.block] at heq
        | some u' =>
          obtain ⟨hname, htype, hblock⟩ :
              n.lexeme = n'.lexeme ∧ u.lexeme = u'.lexeme ∧ e.block = e'.block := by
            simpa [Decl.block] using heq
          rw [hn.bare_eq hn' hname, Option.map_some, Option.map_some,
            (ht u rfl).bare_eq (ht' u' rfl) htype, he.distinct e' he' hblock]
    | evaluated e' => simp [Decl.block] at heq
    | stray v => cases h'
  | evaluated e =>
    cases d' with
    | constant n t e' => simp [Decl.block] at heq
    | evaluated e' =>
      have hblock : e.block = e'.block := by simpa [Decl.block] using heq
      rw [Decl.bare_evaluated, Decl.bare_evaluated, Expr.WellFormed.distinct h e' h' hblock]
    | stray v => cases h'
  | stray v => cases h

namespace Report

open Outline.Block (linesAll Dangling)

/-- Nothing is dropped from a line without control characters. -/
theorem echo_visible (terminal : Bool) {line : String} (h : Visible line) :
    echo terminal line = line ++ "\n" := by
  have hescape : '\x1b' ∉ (line ++ "\n").toList := by
    rw [String.toList_append, List.mem_append, not_or]
    exact ⟨h.not_mem (by decide), by decide⟩
  cases terminal with
  | true => rfl
  | false => exact Text.plain_eq_self_iff.mpr fun hc => hescape (Text.escape_mem_of_hasControl hc)

theorem join_echo (terminal : Bool) {lines : List String} (h : ∀ line ∈ lines, Visible line) :
    (String.join (lines.map (echo terminal))).toList = lined (lines.map String.toList) := by
  have hecho : ∀ line ∈ lines, (echo terminal line).toList = line.toList ++ ['\n'] := by
    intro line hline
    rw [echo_visible terminal (h line hline), String.toList_append]
    rfl
  rw [String.toList_join, lined, List.flatMap_map, List.flatMap_map]
  exact List.flatMap_congr hecho

theorem allNeat_decls {ds : List Decl} (h : ∀ d ∈ ds, d.WellFormed) :
    ∀ b ∈ ds.map Decl.block, AllNeat b := by
  rw [List.forall_mem_map]
  exact fun d hd => (h d hd).allNeat

/-- What is written shows all lines of the declarations, or with an error as its end lines of which the
last one is that of a field without a value. -/
theorem decls_outline (color terminal : Bool) {s : Stack} (hs : s.holds 1 = true) {ds : List Decl}
    (h : ∀ d ∈ ds, d.WellFormed) :
    ∃ lines, (decls ⟨true, color, terminal⟩ s ds).1.toList = lined (lines.map String.toList) ∧
      (∀ line ∈ lines, Visible line) ∧
      ((decls ⟨true, color, terminal⟩ s ds).2 = none ∧ lines = linesAll (ds.map Decl.block) 0 ∨
        (decls ⟨true, color, terminal⟩ s ds).2 ≠ none ∧ Dangling lines) := by
  induction ds with
  | nil => exact ⟨[], rfl, by simp, .inl ⟨rfl, rfl⟩⟩
  | cons d ds ih =>
    obtain ⟨hd, hds⟩ := List.forall_mem_cons.mp h
    have hvisible := Outline.Block.visible_lines hd.allNeat 0
    rcases Outline.shows_decl d 0 s with ⟨-, hall | hbreaks⟩ | ⟨hno, -⟩
    · obtain ⟨lines, htext, hv, hend⟩ := ih hds
      have hlines : declLines true s d = (d.block.lines 0, none) := by
        rw [declLines, if_pos rfl, hall]
        rfl
      simp only [decls, hlines]
      refine ⟨d.block.lines 0 ++ lines, ?_, List.forall_mem_append.mpr ⟨hvisible, hv⟩, ?_⟩
      · rw [String.toList_append, htext, join_echo terminal hvisible, List.map_append, lined, lined,
          lined, List.flatMap_append]
      · refine hend.imp (And.imp_right fun heq => ?_) (And.imp_right fun hdangling => ?_)
        · rw [heq, List.map_cons, Outline.Block.linesAll_cons]
        · exact hdangling.append _
    · have hlines : declLines true s d = ((Outline.decl d 0 "" s).lines, some .tooDeep) := by
        simp [declLines, hbreaks.broken]
      have hfront : ∀ line ∈ (Outline.decl d 0 "" s).lines, Visible line :=
        fun line hline => hvisible line (hbreaks.front.subset hline)
      simp only [decls, hlines]
      exact ⟨_, join_echo terminal hfront, hfront, .inr ⟨Option.some_ne_none _, hbreaks.dangling⟩⟩
    · rw [hs] at hno
      cases hno

/-- Lines without control characters are found in the text that they are written as. -/
theorem lined_inj {ls ls' : List String} (hv : ∀ line ∈ ls, Visible line)
    (hv' : ∀ line ∈ ls', Visible line)
    (h : lined (ls.map String.toList) = lined (ls'.map String.toList)) : ls = ls' := by
  have hnewline {ls : List String} (hv : ∀ line ∈ ls, Visible line) :
      ∀ cs ∈ ls.map String.toList, '\n' ∉ cs :=
    List.forall_mem_map.mpr fun line hline => (hv line hline).not_mem (by decide)
  have hsplit := congrArg Text.splitLines h
  rw [splitLines_lined (hnewline hv), splitLines_lined (hnewline hv')] at hsplit
  exact List.map_injective_iff.mpr (fun _ _ => String.toList_inj.mp)
    (List.append_cancel_right hsplit)

/-- The lines are found in the dump, the blocks in the lines and the trees in the blocks. -/
theorem bare_eq_of_outline {s s' : Stack} (hs : s.holds 1 = true) (hs' : s'.holds 1 = true)
    {ds es : List Decl} (hd : ∀ d ∈ ds, d.WellFormed) (he : ∀ e ∈ es, e.WellFormed)
    {color color' terminal terminal' : Bool} (hnone : (decls ⟨true, color, terminal⟩ s ds).2 = none)
    (h : (decls ⟨true, color, terminal⟩ s ds).1 = (decls ⟨true, color', terminal'⟩ s' es).1) :
    (decls ⟨true, color', terminal'⟩ s' es).2 = none ∧ ds.map Decl.bare = es.map Decl.bare := by
  obtain ⟨lines, htext, hv, hall⟩ := decls_outline color terminal hs hd
  obtain ⟨lines', htext', hv', hend⟩ := decls_outline color' terminal' hs' he
  obtain rfl : lines = lines' := lined_inj hv hv' (by rw [← htext, ← htext', h])
  obtain ⟨-, rfl⟩ := hall.resolve_right fun hbroken => hbroken.1 hnone
  have hwhole := Outline.Block.not_dangling_linesAll fun b hb =>
    Outline.Block.not_dangling_lines (allNeat_decls hd b hb) 0
  obtain ⟨hnone', hlines⟩ := hend.resolve_right fun hbroken => hwhole hbroken.2
  have hblocks := Outline.Block.linesAll_inj (allNeat_decls hd) (allNeat_decls he) hlines
  exact ⟨hnone', map_eq_of_distinct (fun d h => (hd d h).distinct) he hblocks⟩

/-- What is written of a text that is read is the outlines of its declarations, and the run ends well
if these are whole. -/
theorem run_outline {stack : Nat} {source : String} {p : Program}
    (h : Program.read stack source = .ok p) (color terminal : Bool) :
    (run stack ⟨true, color, terminal⟩ source).2.stdout =
        (decls ⟨true, color, terminal⟩ (some (Window.ownFrames + stack)) p.decls).1 ∧
      ((∃ ok, (run stack ⟨true, color, terminal⟩ source).1 = .ok ok) ↔
        (decls ⟨true, color, terminal⟩ (some (Window.ownFrames + stack)) p.decls).2 = none) := by
  obtain ⟨hds, -⟩ := Program.read_eq_ok h
  have hp : (Window.ofText source).program stack = (.ok p.decls, (Window.read stack source).2) := by
    rw [Window.program_ofText, ← hds]
  simp only [run, hp]
  split <;> next heq => simp [heq]

/-- If the same outlines are written of two texts and those of the one are whole, then so are those of
the other, and the texts have the same declarations up to positions. -/
theorem outline_unambiguous {stack stack' : Nat} {a b : String} {p q : Program} {ok : Bool}
    (ha : Program.read stack a = .ok p) (hb : Program.read stack' b = .ok q)
    {color color' terminal terminal' : Bool}
    (hrun : (run stack ⟨true, color, terminal⟩ a).1 = .ok ok)
    (h : (run stack ⟨true, color, terminal⟩ a).2.stdout =
      (run stack' ⟨true, color', terminal'⟩ b).2.stdout) :
    (∃ ok, (run stack' ⟨true, color', terminal'⟩ b).1 = .ok ok) ∧
      p.decls.map Decl.bare = q.decls.map Decl.bare := by
  obtain ⟨hout, hok⟩ := run_outline ha color terminal
  obtain ⟨hout', hok'⟩ := run_outline hb color' terminal'
  have hholds (stack : Nat) : Stack.holds (some (Window.ownFrames + stack)) 1 = true :=
    decide_eq_true (Nat.le_add_right_of_le (by decide))
  rw [hok']
  rw [hout, hout'] at h
  exact bare_eq_of_outline (hholds stack) (hholds stack')
    (Window.wellFormed_of_forms (Program.read_eq_ok ha).1)
    (Window.wellFormed_of_forms (Program.read_eq_ok hb).1) (hok.mp ⟨ok, hrun⟩) h

/-- A quoted quote in a list, and the same behind a comment and with blanks. -/
theorem outline_unambiguous_blanks : ∃ p q, Program.read 3 "x=[\"'\"]" = .ok p ∧
    Program.read 3 "# y\nx = [ \"'\" ]" = .ok q ∧
    (run 3 ⟨true, true, false⟩ "x=[\"'\"]").2.stdout =
      (run 3 ⟨true, false, true⟩ "# y\nx = [ \"'\" ]").2.stdout ∧
    p.decls.map Decl.bare = q.decls.map Decl.bare := by
  have ha : Program.read 3 "x=[\"'\"]" = .ok ⟨[.constant ⟨.identifier, "x", 1, 1⟩ none
      (.of (.list [.of (.literal (.text "'"))]))], []⟩ := by cbv
  have hb : Program.read 3 "# y\nx = [ \"'\" ]" = .ok ⟨[.constant ⟨.identifier, "x", 2, 1⟩ none
      (.of (.list [.of (.literal (.text "'"))]))], []⟩ := by cbv
  have hrun : (run 3 ⟨true, true, false⟩ "x=[\"'\"]").1 = .ok true := by cbv
  have h : (run 3 ⟨true, true, false⟩ "x=[\"'\"]").2.stdout =
      (run 3 ⟨true, false, true⟩ "# y\nx = [ \"'\" ]").2.stdout := by cbv
  exact ⟨_, _, ha, hb, h, (outline_unambiguous ha hb hrun h).2⟩

/-- Chains that differ deep down only are read without a diagnostic. Where the frames run out above
this place, the same is written of both. -/
theorem outline_ambiguous_deep : ∃ p q, Program.read 1 "2+1+1+1+1+1+1+1+1" = .ok p ∧
    Program.read 1 "3+1+1+1+1+1+1+1+1" = .ok q ∧
    p.diagnostics = [] ∧ q.diagnostics = [] ∧
    (run 1 ⟨true, false, false⟩ "2+1+1+1+1+1+1+1+1").2.stdout =
      (run 1 ⟨true, false, false⟩ "3+1+1+1+1+1+1+1+1").2.stdout ∧
    p.decls.map Decl.bare ≠ q.decls.map Decl.bare := by
  have ha : (Program.read 1 "2+1+1+1+1+1+1+1+1").map (fun p =>
      (p.diagnostics, formatDecls p.decls none)) =
        .ok ([], .ok "((((((((2 + 1) + 1) + 1) + 1) + 1) + 1) + 1) + 1)\n") := by
    set_option maxRecDepth 2000 in cbv
  have hb : (Program.read 1 "3+1+1+1+1+1+1+1+1").map (fun p =>
      (p.diagnostics, formatDecls p.decls none)) =
        .ok ([], .ok "((((((((3 + 1) + 1) + 1) + 1) + 1) + 1) + 1) + 1)\n") := by
    set_option maxRecDepth 2000 in cbv
  have h : (run 1 ⟨true, false, false⟩ "2+1+1+1+1+1+1+1+1").2.stdout =
      (run 1 ⟨true, false, false⟩ "3+1+1+1+1+1+1+1+1").2.stdout := by
    set_option maxRecDepth 2000 in cbv
  obtain ⟨p, hp, hpsame⟩ := ok_of_map ha
  obtain ⟨q, hq, hqsame⟩ := ok_of_map hb
  obtain ⟨hpd, hpf⟩ := Prod.mk.inj hpsame
  obtain ⟨hqd, hqf⟩ := Prod.mk.inj hqsame
  refine ⟨p, q, hp, hq, hpd, hqd, h, fun hbare => ?_⟩
  have hformat : formatDecls p.decls = formatDecls q.decls := by
    rw [← formatDecls_retoken keeps_bare, ← formatDecls_retoken keeps_bare q.decls]
    exact congrArg formatDecls hbare
  rw [hformat, hqf] at hpf
  exact absurd (Except.ok.inj hpf) (by decide)

end Report
end ArrowLang
