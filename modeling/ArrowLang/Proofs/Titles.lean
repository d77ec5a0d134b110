import ArrowLang.Proofs.Exact
import ArrowLang.Proofs.Outlined
import ArrowLang.Proofs.Unquoted
import ArrowLang.Proofs.WellFormed

/-!
# The lines of an outline

What stands behind the indentation of a line: the name of a node with its type, or the name of a field
with a value. The texts of two values of one kind differ, and no line of a well-formed tree holds a
control character.
-/
namespace ArrowLang

open Outline
open Outline.Block (Visible Neat Ended AllNeat)

/-- A character that is visible and that announces nothing. -/
def Inked (c : Char) : Prop := ' ' ≤ c ∧ c ≠ ':'

instance (c : Char) : Decidable (Inked c) := inferInstanceAs (Decidable (_ ∧ _))

theorem inked_of_isDigit {c : Char} (h : c.isDigit) : Inked c := by
  simp only [Char.isDigit, Bool.and_eq_true, decide_eq_true_eq] at h
  refine ⟨le_trans (by decide : ' ' ≤ '0') h.1, ?_⟩
  rintro rfl
  exact absurd h.2 (by decide)

theorem ended_of_inked {s : String} (h : ∀ c ∈ s.toList, Inked c) : Ended s :=
  fun hlast => (h ':' (List.mem_of_getLast? hlast)).2 rfl

namespace Decimal

theorem inked_natDigits (n : Nat) : ∀ c ∈ natDigits n, Inked c :=
  fun c hc => inked_of_isDigit ((digits_natDigits n).2 c hc)

theorem inked_short (d : Scaled) : ∀ c ∈ d.short, Inked c := by
  unfold Scaled.short
  split
  · obtain ⟨whole, frac, hw, hf, hp, -⟩ := positional_spec d
    rw [hp, List.forall_mem_append, List.forall_mem_cons]
    exact ⟨fun c hc => inked_of_isDigit (hw.2 c hc), by decide,
      fun c hc => inked_of_isDigit (hf.2 c hc)⟩
  · have hds := inked_natDigits d.digits
    have hk : ∀ c ∈ List.replicate (2 - (natDigits d.order.natAbs).length) '0' ++
        natDigits d.order.natAbs, Inked c :=
      fun c hc => inked_of_isDigit (isDigit_pad (digits_natDigits _).2 c hc)
    have hsign : Inked (if d.order < 0 then '-' else '+') := by split <;> decide
    unfold Scaled.scientific
    rw [List.forall_mem_append, List.forall_mem_cons, List.forall_mem_cons]
    refine ⟨?_, by decide, hsign, hk⟩
    split
    · nofun
    · next h => rwa [h] at hds
    · next c cs _ h =>
      rw [h, List.forall_mem_cons] at hds
      exact List.forall_mem_cons.mpr ⟨hds.1, List.forall_mem_cons.mpr ⟨by decide, hds.2⟩⟩

theorem inked_signed (negative : Bool) {cs : List Char} (h : ∀ c ∈ cs, Inked c) :
    ∀ c ∈ Binary64.signed negative cs, Inked c := by
  cases negative with
  | false => exact h
  | true => exact List.forall_mem_cons.mpr ⟨by decide, h⟩

theorem Binary64.inked_text (v : Binary64) : ∀ c ∈ v.text.toList, Inked c := by
  cases v with
  | finite negative m e hn =>
    rw [text, String.toList_ofList]
    exact inked_signed negative (inked_short _)
  | infinite negative =>
    rw [text, String.toList_ofList]
    exact inked_signed negative (by simp [Inked])
  | nan => simp [text, Inked]

theorem toList_intText_signed (n : Int) :
    (intText n).toList = Binary64.signed (n < 0) (natDigits n.natAbs) := by
  rw [intText, String.toList_ofList, intDigits, Binary64.signed]
  simp

/-- Digits with a sign denote the number that they are written for. -/
theorem denoted_intText (n : Int) : denoted? (intText n).toList = some (decide (n < 0), (n : ℚ)) := by
  have hds := digits_natDigits n.natAbs
  have hend : ∀ c ∈ ([] : List Char).head?, c.isDigit = false ∧ c ≠ '.' := nofun
  have hm := magnitude_whole hds hend (k := 0) rfl
  obtain ⟨c, cs, hc⟩ := List.exists_cons_of_ne_nil hds.1
  rw [toList_intText_signed, hc, denoted_signed _ (hds.2 c (hc ▸ List.mem_cons_self)), ← hc,
    ← List.append_nil (natDigits _), hm, digitsValue_natDigits]
  by_cases hn : n < 0
  · simp [hn, abs_of_neg]
  · simp [hn, abs_of_nonneg (not_lt.mp hn)]

end Decimal

theorem intText_inj {m n : Int} (h : intText m = intText n) : m = n := by
  have hdenoted := (Decimal.denoted_intText m).symm.trans (h ▸ Decimal.denoted_intText n)
  exact Int.cast_injective (Prod.mk.inj (Option.some.inj hdenoted)).2

theorem Text.ended_quoted (s : String) : Ended (Text.quoted s) := by
  rw [Ended, quoted, String.toList_ofList, quotedChars, List.getLast?_concat, quoteMark]
  split <;> decide

namespace Literal

/-- The text of a value is visible and announces nothing. -/
theorem visible_valueText (l : Literal) : Visible l.valueText ∧ Ended l.valueText := by
  have hinked {s : String} (h : ∀ c ∈ s.toList, Inked c) : Visible s ∧ Ended s :=
    ⟨fun c hc => (h c hc).1, ended_of_inked h⟩
  cases l with
  | int n =>
    refine hinked ?_
    rw [valueText, Decimal.toList_intText_signed]
    exact Decimal.inked_signed _ (Decimal.inked_natDigits _)
  | float v => exact hinked v.inked_text
  | bool b => cases b <;> exact hinked (by simp [valueText, boolName, Inked])
  | text s => exact ⟨Text.blank_le_quoted s, Text.ended_quoted s⟩

/-- No two values of one kind have the same text. -/
theorem valueText_inj {l l' : Literal} (hl : l.Signed) (hl' : l'.Signed)
    (hname : l.nodeName = l'.nodeName) (h : l.valueText = l'.valueText) : l = l' := by
  cases l <;> cases l' <;> try simp [nodeName] at hname
  case int.int m n => rw [intText_inj h]
  case float.float v w => rw [Decimal.Binary64.text_inj hl hl' h]
  case bool.bool a b =>
    cases a <;> cases b <;> first | rfl | simp [valueText, boolName] at h
  case text.text s t => rw [Text.quoted_inj h]

end Literal

namespace Outline

section
variable {name label value : String} {bs : List Block}

theorem allNeat_nodeBlock (hn : Neat name) (hl : Visible label) (hb : bs ≠ []) :
    AllNeat (nodeBlock name label bs) ↔ ∀ b ∈ bs, AllNeat b :=
  Block.allNeat_mk.trans <| (and_iff_right (hn.append hl)).trans (and_iff_right fun h => (hb h).elim)

theorem allNeat_fieldBlock (hn : Neat name) (hv : Visible value ∧ Ended value) :
    AllNeat (fieldBlock name value) := by
  refine .mk ((hn.append (by decide)).append hv.1) (fun _ => ?_) nofun
  have hsep : Ended (name ++ ": ") := by
    rw [Ended, String.toList_append, List.getLast?_append]
    exact fun h => absurd (Option.some.inj h) (by decide)
  exact hsep.append hv.2

theorem allNeat_belowBlock (hn : Neat name) (hb : bs ≠ []) :
    AllNeat (belowBlock name bs) ↔ ∀ b ∈ bs, AllNeat b :=
  Block.allNeat_mk.trans <| (and_iff_right (hn.append (by decide))).trans
    (and_iff_right fun h => (hb h).elim)

theorem allNeat_nodeBlock_cons {b : Block} (hn : Neat name) (hl : Visible label) :
    AllNeat (nodeBlock name label (b :: bs)) ↔ AllNeat b ∧ ∀ b ∈ bs, AllNeat b :=
  (allNeat_nodeBlock hn hl (List.cons_ne_nil b bs)).trans List.forall_mem_cons

theorem allNeat_belowBlock_cons {b : Block} (hn : Neat name) :
    AllNeat (belowBlock name (b :: bs)) ↔ AllNeat b ∧ ∀ b ∈ bs, AllNeat b :=
  (allNeat_belowBlock hn (List.cons_ne_nil b bs)).trans List.forall_mem_cons

theorem allNeat_tokenBlock (hn : Neat name) (t : Token) : AllNeat (tokenBlock name t) :=
  allNeat_fieldBlock hn ⟨Text.blank_le_quoted t.lexeme, Text.ended_quoted t.lexeme⟩

theorem allNeat_listBlock (hn : Neat name) :
    AllNeat (listBlock name bs) ↔ ∀ b ∈ bs, AllNeat b := by
  unfold listBlock
  split
  · next h =>
    rw [List.isEmpty_iff.mp h]
    exact iff_of_true (allNeat_fieldBlock hn (by decide)) nofun
  · next h => exact allNeat_belowBlock hn fun hnil => h (hnil ▸ rfl)

theorem neat_nodeName : ∀ l : Literal, Neat l.nodeName
  | .int _ => (by decide : Neat "IntLit")
  | .float _ => (by decide : Neat "FloatLit")
  | .bool _ => (by decide : Neat "BoolLit")
  | .text _ => (by decide : Neat "StringLit")

theorem visible_typeLabel : ∀ l : Literal, Visible (typeLabel (.ofLiteral l))
  | .int _ => (by decide : Visible (typeLabel .int))
  | .float _ => (by decide : Visible (typeLabel .float))
  | .bool _ => (by decide : Visible (typeLabel .bool))
  | .text _ => (by decide : Visible (typeLabel .text))

theorem allNeat_literal (l : Literal) (hl : Visible label) : AllNeat (l.block label) :=
  (allNeat_nodeBlock (neat_nodeName l) hl (List.cons_ne_nil _ _)).mpr
    (List.forall_mem_singleton.mpr (allNeat_fieldBlock (by decide) l.visible_valueText))

@[simp] theorem tokenBlock_inj {t u : Token} :
    tokenBlock name t = tokenBlock name u ↔ t.lexeme = u.lexeme :=
  fieldBlock_inj.trans ⟨Text.quoted_inj, congrArg Text.quoted⟩

end

/-- The types of literals are known. -/
theorem title_literal_ne (l : Literal) (name : String) :
    l.nodeName ++ typeLabel (.ofLiteral l) ≠ name ++ typeLabel .unknown := by
  intro h
  have hlast := congrArg (fun s : String => s.toList.getLast?) h
  cases l <;> simp [typeLabel, Literal.nodeName, TypeTag.ofLiteral, TypeTag.name, TypeTag.unknown,
    TypeTag.int, TypeTag.float, TypeTag.bool, TypeTag.text] at hlast

theorem nodeName_of_title {l l' : Literal}
    (h : l.nodeName ++ typeLabel (.ofLiteral l) = l'.nodeName ++ typeLabel (.ofLiteral l')) :
    l.nodeName = l'.nodeName := by
  cases l <;> cases l' <;> first
    | rfl
    | simp [typeLabel, Literal.nodeName, TypeTag.ofLiteral, TypeTag.name, TypeTag.int, TypeTag.float,
        TypeTag.bool, TypeTag.text] at h

end Outline

theorem Pattern.WellFormed.allNeat {p : Pattern} (h : p.WellFormed) : ∀ b ∈ p.field, AllNeat b := by
  cases p with
  | literal l =>
    simp (disch := decide) [Pattern.field, allNeat_belowBlock_cons, allNeat_nodeBlock_cons,
      allNeat_literal]
  | name t =>
    simp (disch := decide) [Pattern.field, allNeat_belowBlock_cons, allNeat_nodeBlock_cons,
      allNeat_tokenBlock]
  | stray v => cases h

section
variable {name first second third : String} {o : Token} {l r : Expr}

theorem allNeat_sides (hn : Neat name) (h₁ : Neat first) (h₂ : Neat second) (h₃ : Neat third)
    (hl : AllNeat l.block) (hr : AllNeat r.block) :
    AllNeat (nodeBlock name (typeLabel .unknown)
      [tokenBlock first o, belowBlock second [l.block], belowBlock third [r.block]]) := by
  have hlabel : Visible (typeLabel .unknown) := by decide
  simp [allNeat_nodeBlock_cons hn hlabel, allNeat_tokenBlock h₁, allNeat_belowBlock_cons h₂,
    allNeat_belowBlock_cons h₃, hl, hr]

end

theorem Expr.WellFormed.allNeat {e : Expr} (h : e.WellFormed) : AllNeat e.block :=
  h.rec (motive_1 := fun e _ => AllNeat e.block) (motive_2 := fun c _ => AllNeat c.block)
    (motive_3 := fun g _ => AllNeat g.block)
    (fun {l} _ => allNeat_literal l (visible_typeLabel l))
    (fun _ => by simp (disch := decide) [allNeat_nodeBlock_cons, allNeat_tokenBlock])
    (fun _ _ _ hx => by
      simp (disch := decide) [allNeat_nodeBlock_cons, allNeat_tokenBlock, allNeat_belowBlock_cons, hx])
    (fun _ _ _ _ hl hr => allNeat_sides (by decide) (by decide) (by decide) (by decide) hl hr)
    (fun _ _ _ _ hl hr => allNeat_sides (by decide) (by decide) (by decide) (by decide) hl hr)
    (fun _ _ _ _ hl hr => allNeat_sides (by decide) (by decide) (by decide) (by decide) hl hr)
    (fun _ _ h => by simpa (disch := decide) [allNeat_nodeBlock_cons, allNeat_listBlock] using h)
    (fun _ _ h => by simpa (disch := decide) [allNeat_nodeBlock_cons, allNeat_listBlock] using h)
    (fun _ h => by simpa (disch := decide) [allNeat_nodeBlock_cons, allNeat_listBlock] using h)
    (fun hp _ _ h => by
      rw [Case.block_mk, allNeat_nodeBlock (by decide) (by decide) (by simp), List.forall_mem_append,
        List.forall_mem_singleton, allNeat_listBlock (by decide), List.forall_mem_map]
      exact ⟨hp.allNeat, h⟩)
    (fun _ _ hc hv => by
      simp (disch := decide) [allNeat_nodeBlock_cons, allNeat_belowBlock_cons, hc, hv])

theorem Decl.WellFormed.allNeat {d : Decl} (h : d.WellFormed) : AllNeat d.block := by
  cases d with
  | constant n t e =>
    obtain ⟨-, -, he⟩ := h
    cases t <;> simp (disch := decide) [Decl.block, allNeat_nodeBlock_cons, allNeat_tokenBlock,
      allNeat_belowBlock_cons, he.allNeat]
  | evaluated e =>
    have he : AllNeat e.block := Expr.WellFormed.allNeat h
    simp (disch := decide) [Decl.block, allNeat_nodeBlock_cons, allNeat_belowBlock_cons, he]
  | stray v => cases h

end ArrowLang
