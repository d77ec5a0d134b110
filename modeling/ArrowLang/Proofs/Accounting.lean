import ArrowLang.Proofs.Blame
import ArrowLang.Proofs.Positions
import ArrowLang.Proofs.Twin
import Mathlib.Data.List.NodupEquivFin

/-!
# Every token and every error is accounted for

A reading makes all calls for a token up to the end of the text and reports each lexical error that
one of them gives, once and in order. Every turn either reads a declaration or blames one token, and
moves behind the token that it began with and behind the one that it blames.
-/
namespace ArrowLang

/-- The token that a fault is blamed on. -/
def Diagnostic.blamed? : Diagnostic → Option Token
  | .grammar _ t => some t
  | _ => none

namespace Window

open Reading (declaration expression)

variable {u v w x : Window} {t : Token} {d : Option Decl} {stack : Stack} {depth : Nat}

/-- The tokens that were blamed. -/
def blamed (w : Window) : List Token := w.diagnostics.toList.filterMap Diagnostic.blamed?

/-- Nothing but lexical errors and faults of tokens was reported. -/
def Ordinary (w : Window) : Prop := ∀ d ∈ w.diagnostics.toList, d.isLexical ∨ d.blamed?.isSome

theorem Strays.blamed {lost : Outcome → Prop} (h : w.Strays lost v) : v.blamed = w.blamed := by
  obtain ⟨es, hds, -⟩ := h.reports
  have hes : (es.map Diagnostic.ofLexical).filterMap Diagnostic.blamed? = [] :=
    List.filterMap_eq_nil_iff.mpr (by simp [Diagnostic.ofLexical, Diagnostic.blamed?])
  rw [Window.blamed, hds, List.filterMap_append, hes, List.append_nil]
  rfl

theorem Reaches.blamed (h : w.Reaches v) : v.blamed = w.blamed :=
  h.safely.blamed

theorem Strays.ordinary {lost : Outcome → Prop} (h : w.Strays lost v) (hw : w.Ordinary) :
    v.Ordinary := by
  obtain ⟨es, hds, -⟩ := h.reports
  intro d hd
  rw [hds] at hd
  rcases List.mem_append.mp hd with hd | hd
  · exact hw d hd
  · obtain ⟨e, -, rfl⟩ := List.mem_map.mp hd
    exact .inl rfl

theorem Ordinary.report (hw : w.Ordinary) (g : GrammarFault) (t : Token) :
    (w.report (.grammar g t)).Ordinary := by
  intro d hd
  rcases mem_report.mp hd with hd | rfl
  · exact hw d hd
  · exact .inr rfl

/-- The tokens ahead of a window that no newline and no end is. -/
def words (w : Window) : List Token := w.ahead.filter fun t => !t.kind.isStop

/-- What the turns from a window on leave: the tokens that they blame are among those ahead, in
order, and together with the declarations they are no more than the words ahead. -/
structure Accounts (w x : Window) (ds : List Decl) (bs : List Token) : Prop where
  ahead : x.ahead.Sublist w.ahead
  ordinary : w.Ordinary → x.Ordinary
  blamed : x.blamed = w.blamed ++ bs
  sublist : bs.Sublist w.ahead
  few : ds.length + bs.length ≤ w.words.length

theorem Accounts.refl (w : Window) : Accounts w w [] [] where
  ahead := .refl _
  ordinary := id
  blamed := (List.append_nil _).symm
  sublist := List.nil_sublist _
  few := Nat.zero_le _

end Window

open Cursor (call after)

theorem Window.tokens_eq_calls {text : String} {k : Nat} (hk : Cursor.FirstEnd text k) :
    tokens text = (List.range (k + 1)).filterMap fun n => (call text n).toOption := by
  rw [tokens, Cursor.outcomes_eq_calls hk, List.filterMap_map]
  rfl

theorem ok_of_toOption {o : Outcome} {t : Token} (h : o.toOption = some t) : o = .ok t := by
  cases o with
  | error e => cases h
  | ok u => exact congrArg _ (Option.some.inj h)

theorem Window.nodup_tokens {text : String} {k : Nat} (hk : Cursor.FirstEnd text k) :
    (tokens text).Nodup := by
  rw [tokens_eq_calls hk, List.Nodup, List.pairwise_filterMap]
  refine List.pairwise_lt_range.imp_of_mem fun _ hn hmn t ht u hu => ?_
  exact Cursor.call_ne hk.proceeds hmn (Nat.lt_succ_iff.mp (List.mem_range.mp hn)) (ok_of_toOption ht)
    (ok_of_toOption hu)

namespace Program

/-- The tokens that the faults are blamed on, in the order of the reports. -/
def blamed (p : Program) : List Token := p.diagnostics.filterMap Diagnostic.blamed?

end Program
end ArrowLang
