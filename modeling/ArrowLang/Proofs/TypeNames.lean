import ArrowLang.Proofs.Lookahead
import ArrowLang.Tree.TypeTag

/-!
# The names of types

In front of an arrow a function is in parentheses, so the first arrow outside brackets stands behind the
whole parameter. A name is cut there in one way and so are its parts: no two types have the same name if
their primitive types have words for names.
-/
namespace ArrowLang.TypeTag

open Lexeme (isWordChar)

/-- All primitive types in it have words for names. -/
inductive WellNamed : TypeTag → Prop where
  | primitive {n : String} : n ≠ "" → (∀ c ∈ n.toList, isWordChar c) → WellNamed (.primitive n)
  | list {t : TypeTag} : WellNamed t → WellNamed (.list t)
  | function {p r : TypeTag} : WellNamed p → WellNamed r → WellNamed (.function p r)

/-- What stands for a type in front of an arrow. -/
def paramName (t : TypeTag) : String := if t.isFunction then "(" ++ t.name ++ ")" else t.name

theorem paramName_primitive (n : String) : (primitive n).paramName = n := rfl

/-- The arrow of a function stands behind its parameter. -/
theorem name_function_append (p r : TypeTag) (rest : List Char) :
    (function p r).name.toList ++ rest =
      p.paramName.toList ++ (" -> ".toList ++ (r.name.toList ++ rest)) := by
  have hname : (function p r).name = p.paramName ++ " -> " ++ r.name := rfl
  rw [hname, String.toList_append, String.toList_append, List.append_assoc, List.append_assoc]

theorem toList_paramName_list (t : TypeTag) :
    (list t).paramName.toList = '[' :: (t.name.toList ++ [']']) := by
  simp [paramName, isFunction, name]

theorem toList_paramName_function (p r : TypeTag) :
    (function p r).paramName.toList = '(' :: ((function p r).name.toList ++ [')']) := by
  simp [paramName, isFunction]

/-- Only the name of a function is changed in front of an arrow. -/
theorem WellNamed.function_or_plain {t : TypeTag} (h : t.WellNamed) :
    (∃ p r : TypeTag, p.WellNamed ∧ r.WellNamed ∧ t = .function p r) ∨ t.name = t.paramName := by
  cases h with
  | primitive => exact .inr rfl
  | list => exact .inr rfl
  | function hp hr => exact .inl ⟨_, _, hp, hr, rfl⟩

/-- No word goes on. -/
def Parted (rest : List Char) : Prop := ∀ c ∈ rest.head?, isWordChar c = false

/-- A bracket is closed, or the text ends. -/
def Closed (rest : List Char) : Prop := ∀ c ∈ rest.head?, c = ']' ∨ c = ')'

theorem Closed.parted {rest : List Char} (h : Closed rest) : Parted rest := fun c hc => by
  rcases h c hc with rfl | rfl <;> rfl

theorem parted_arrow (cs : List Char) : Parted (" -> ".toList ++ cs) := by
  rintro _ ⟨⟩
  rfl

theorem not_closed_arrow (cs : List Char) : ¬ Closed (" -> ".toList ++ cs) := fun h =>
  absurd (h ' ' rfl) (by decide)

/-- In front of such an end, the text of `t` is that of no other type, and it stops at one place. -/
def Told (text : TypeTag → String) (Ends : List Char → Prop) (t : TypeTag) : Prop :=
  ∀ u, u.WellNamed → ∀ rest rest', Ends rest → Ends rest' →
    (text t).toList ++ rest = (text u).toList ++ rest' → t = u ∧ rest = rest'

section
variable {n m : String} {t p r u : TypeTag} {rest rest' : List Char}

theorem word_append_inj (hn : ∀ c ∈ n.toList, isWordChar c) (hm : ∀ c ∈ m.toList, isWordChar c)
    (hr : Parted rest) (hr' : Parted rest') (h : n.toList ++ rest = m.toList ++ rest') :
    n = m ∧ rest = rest' := by
  obtain ⟨hword, hrest⟩ := Lexeme.takeWhile_boundary hn hr
  obtain ⟨hword', hrest'⟩ := Lexeme.takeWhile_boundary hm hr'
  rw [h, hword'] at hword
  rw [h, hrest'] at hrest
  exact ⟨String.toList_inj.mp hword.symm, hrest.symm⟩

/-- A word begins with no bracket. -/
theorem word_append_ne (hne : n ≠ "") (hn : ∀ c ∈ n.toList, isWordChar c) {b : Char}
    (hb : isWordChar b = false) : n.toList ++ rest ≠ b :: rest' := by
  obtain ⟨c, cs, hc⟩ := List.exists_cons_of_ne_nil (mt String.toList_eq_nil_iff.mp hne)
  intro h
  rw [hc] at h
  obtain ⟨rfl, -⟩ := List.cons.inj h
  exact Bool.false_ne_true (hb.symm.trans (hn c (hc ▸ List.mem_cons_self)))

/-- A name is told in front of the bracket that closes behind it, whatever follows the bracket. -/
theorem Told.bracket (h : t.Told name Closed) (hu : u.WellNamed) {b : Char} (hb : b = ']' ∨ b = ')')
    (heq : t.name.toList ++ [b] ++ rest = u.name.toList ++ [b] ++ rest') : t = u ∧ rest = rest' := by
  have hclosed (cs : List Char) : Closed ([b] ++ cs) := by
    rintro _ ⟨⟩
    exact hb
  rw [List.append_assoc, List.append_assoc] at heq
  obtain ⟨htype, hrest⟩ := h u hu _ _ (hclosed rest) (hclosed rest') heq
  exact ⟨htype, List.append_cancel_left hrest⟩

theorem told_param_primitive (hne : n ≠ "") (hn : ∀ c ∈ n.toList, isWordChar c) :
    (primitive n).Told paramName Parted := by
  intro u hu rest rest' hr hr' h
  rw [paramName_primitive] at h
  cases hu with
  | primitive _ hm =>
    obtain ⟨rfl, hrest⟩ := word_append_inj hn hm hr hr' h
    exact ⟨rfl, hrest⟩
  | list =>
    rw [toList_paramName_list] at h
    exact absurd h (word_append_ne hne hn rfl)
  | function =>
    rw [toList_paramName_function] at h
    exact absurd h (word_append_ne hne hn rfl)

theorem told_param_list (ht : t.Told name Closed) : (list t).Told paramName Parted := by
  intro u hu rest rest' _ _ h
  rw [toList_paramName_list] at h
  cases hu with
  | primitive hne hm => exact absurd h.symm (word_append_ne hne hm rfl)
  | list hu =>
    rw [toList_paramName_list] at h
    obtain ⟨rfl, hrest⟩ := ht.bracket hu (.inl rfl) (List.cons.inj h).2
    exact ⟨rfl, hrest⟩
  | function =>
    rw [toList_paramName_function] at h
    cases h

theorem told_param_function (h : (function p r).Told name Closed) :
    (function p r).Told paramName Parted := by
  intro u hu rest rest' _ _ heq
  rw [toList_paramName_function] at heq
  cases hu with
  | primitive hne hm => exact absurd heq.symm (word_append_ne hne hm rfl)
  | list =>
    rw [toList_paramName_list] at heq
    cases heq
  | function hp hr =>
    rw [toList_paramName_function] at heq
    exact h.bracket (.function hp hr) (.inr rfl) (List.cons.inj heq).2

theorem told_name_plain (hplain : t.name = t.paramName) (ht : t.Told paramName Parted) :
    t.Told name Closed := by
  intro u hu rest rest' hr hr' h
  rw [hplain] at h
  rcases hu.function_or_plain with ⟨p, r, hp, -, rfl⟩ | hplain'
  · rw [name_function_append] at h
    obtain ⟨-, hrest⟩ := ht p hp _ _ hr.parted (parted_arrow _) h
    exact absurd (hrest ▸ hr) (not_closed_arrow _)
  · rw [hplain'] at h
    exact ht u hu _ _ hr.parted hr'.parted h

theorem told_name_function (hp : p.Told paramName Parted) (hr : r.Told name Closed) :
    (function p r).Told name Closed := by
  intro u hu rest rest' hrest hrest' h
  rw [name_function_append] at h
  rcases hu.function_or_plain with ⟨q, s, hq, hs, rfl⟩ | hplain
  · rw [name_function_append] at h
    obtain ⟨rfl, htail⟩ := hp q hq _ _ (parted_arrow _) (parted_arrow _) h
    obtain ⟨rfl, heq⟩ := hr s hs _ _ hrest hrest' (List.append_cancel_left htail)
    exact ⟨rfl, heq⟩
  · rw [hplain] at h
    obtain ⟨-, htail⟩ := hp u hu _ _ (parted_arrow _) hrest'.parted h
    exact absurd (htail ▸ hrest') (not_closed_arrow _)

end

/-- By induction on the type. What stands in front of an arrow rests on the name in the parentheses, and
the name of a function on what stands in front of its arrow. -/
theorem WellNamed.told {t : TypeTag} (h : t.WellNamed) :
    t.Told name Closed ∧ t.Told paramName Parted := by
  induction h with
  | primitive hne hn =>
    have hparam := told_param_primitive hne hn
    exact ⟨told_name_plain rfl hparam, hparam⟩
  | list _ ih =>
    have hparam := told_param_list ih.1
    exact ⟨told_name_plain rfl hparam, hparam⟩
  | function _ _ ihp ihr =>
    have hname := told_name_function ihp.2 ihr.1
    exact ⟨hname, told_param_function hname⟩

theorem WellNamed.name_inj {t u : TypeTag} (ht : t.WellNamed) (hu : u.WellNamed)
    (h : t.name = u.name) : t = u :=
  (ht.told.1 u hu [] [] nofun nofun (congrArg (·.toList ++ []) h)).1

/-- No type is its own parameter. -/
theorem function_ne_param (p r : TypeTag) : function p r ≠ p := by
  intro h
  have hsize := congrArg sizeOf h
  rw [function.sizeOf_spec] at hsize
  omega

/-- Types have the same name if and only if they are the same, and a function that takes a function is
never named like one that gives a function. -/
theorem name_unambiguous :
    (∀ t u : TypeTag, t.WellNamed → u.WellNamed → (t.name = u.name ↔ t = u)) ∧
    ∀ p q r : TypeTag, p.WellNamed → q.WellNamed → r.WellNamed →
      (function (function p q) r).name ≠ (function p (function q r)).name := by
  refine ⟨fun t u ht hu => ⟨ht.name_inj hu, congrArg name⟩, fun p q r hp hq hr h => ?_⟩
  have heq := WellNamed.name_inj (.function (.function hp hq) hr) (.function hp (.function hq hr)) h
  exact function_ne_param p q (function.inj heq).1

/-- A function and a list of a list, with words that are no identifiers of the language. -/
theorem name_unambiguous_nested :
    (function (primitive "Int") (primitive "2nd")).WellNamed ∧
    (list (list (primitive "é_"))).WellNamed ∧ (primitive "_").WellNamed ∧
    (((list (list (primitive "é_"))).name = (list (primitive "é_")).name) ↔
      list (list (primitive "é_")) = list (primitive "é_")) ∧
    (function (function (function (primitive "Int") (primitive "2nd")) (list (list (primitive "é_"))))
        (primitive "_")).name ≠
      (function (function (primitive "Int") (primitive "2nd"))
        (function (list (list (primitive "é_"))) (primitive "_"))).name := by
  have hint : (primitive "Int").WellNamed :=
    .primitive (by decide) (List.all_eq_true.mp (by decide))
  have hsecond : (primitive "2nd").WellNamed :=
    .primitive (by decide) (List.all_eq_true.mp (by decide))
  have haccent : (primitive "é_").WellNamed :=
    .primitive (by decide) (List.all_eq_true.mp (by decide))
  have hline : (primitive "_").WellNamed :=
    .primitive (by decide) (List.all_eq_true.mp (by decide))
  exact ⟨.function hint hsecond, .list (.list haccent), hline,
    name_unambiguous.1 _ _ (.list (.list haccent)) (.list haccent),
    name_unambiguous.2 _ _ _ (.function hint hsecond) (.list (.list haccent)) hline⟩

/-- A name with an arrow in it can be that of a function. -/
example : (primitive "A -> B").name = (function (primitive "A") (primitive "B")).name := by decide

end ArrowLang.TypeTag
