import ArrowLang.Proofs.Calls
import Mathlib.Data.Nat.Find

/-!
# Calls tile the text

What the calls skip and take, piece behind piece, is the text, and all of it is taken by a number of
calls that is bounded by its length. Behind them every call finds the end again.
-/
namespace ArrowLang

open Lexeme

/-- Blanks, and a comment at the end if any, which runs to the end of its line or of the text. -/
def IsGap (gap rest : List Char) : Prop :=
  ∃ blanks comment, gap = blanks ++ comment ∧ (∀ c ∈ blanks, c = ' ' ∨ c = '\t' ∨ c = '\r') ∧
    (comment = [] ∨ ∃ words, comment = '#' :: words ∧ '\n' ∉ words ∧ (rest = [] ∨ rest.head? = some '\n'))

/-- Inside a comment, what is skipped goes on to the end of the line. -/
theorem splitGap_comment (cs : List Char) : '\n' ∉ (splitGap true cs).1 ∧
    ((splitGap true cs).2 = [] ∨ (splitGap true cs).2.head? = some '\n') := by
  induction cs with
  | nil => exact ⟨by simp [splitGap], .inl rfl⟩
  | cons c cs ih =>
    by_cases hc : c = '\n'
    · subst hc
      exact ⟨by simp [splitGap, isGapChar], .inr rfl⟩
    · rw [splitGap, if_pos (by simp [hc])]
      exact ⟨by simpa [Ne.symm hc] using ih.1, ih.2⟩

theorem isGap_splitGap (cs : List Char) : IsGap (splitGap false cs).1 (splitGap false cs).2 := by
  induction cs with
  | nil => exact ⟨[], [], rfl, by simp, .inl rfl⟩
  | cons c cs ih =>
    by_cases hg : isGapChar c
    · obtain ⟨blanks, comment, hgap, hblanks, hcomment⟩ := ih
      rw [splitGap, if_pos (by simp [hg])]
      refine ⟨c :: blanks, comment, by simp [hgap], ?_, hcomment⟩
      have hc : c = ' ' ∨ c = '\t' ∨ c = '\r' := by
        simp only [isGapChar, Bool.or_eq_true, decide_eq_true_eq] at hg
        tauto
      simpa [hc] using hblanks
    · rw [splitGap, if_neg (by simp [hg])]
      by_cases hc : c = '#'
      · subst hc
        obtain ⟨hn, hr⟩ := splitGap_comment cs
        exact ⟨[], _, rfl, by simp, .inr ⟨_, rfl, hn, hr⟩⟩
      · rw [if_neg hc]
        exact ⟨[], [], rfl, by simp, .inl rfl⟩

namespace Cursor

variable {text : String}

/-- A call that does not find the end takes a character at least. -/
theorem current_lt (n : Nat) (h : (call text n).isEnd = false) :
    (after text n).current < (after text (n + 1)).current := by
  have hpos := List.length_pos_iff.mpr ((takes_call text n).ne_nil h)
  have hstart := start_after text n
  have hcurrent := current_after text n
  omega

/-- As long as no call finds the end, there are no more calls than characters taken. -/
theorem le_current {n : Nat} (h : ∀ i < n, (call text i).isEnd = false) :
    n ≤ (after text n).current := by
  induction n with
  | zero => exact Nat.zero_le _
  | succ n ih =>
    have hn := ih fun i hi => h i (by omega)
    have hlt := current_lt n (h n (by omega))
    omega

theorem le_length {n : Nat} (h : ∀ i < n, (call text i).isEnd = false) : n ≤ text.length :=
  (le_current h).trans (stands_after text n).rest_eq.2

/-- The first call that finds the end. -/
structure FirstEnd (text : String) (k : Nat) : Prop where
  ends : (call text k).isEnd = true
  proceeds : ∀ n < k, (call text n).isEnd = false

theorem exists_end (text : String) : ∃ k, FirstEnd text k := by
  have h : ∃ n, (call text n).isEnd = true := by
    by_contra hall
    have hnone : ∀ i < text.length + 1, (call text i).isEnd = false :=
      fun i _ => Bool.eq_false_iff.mpr fun hi => hall ⟨i, hi⟩
    have hlen := le_length hnone
    omega
  classical
  exact ⟨Nat.find h, Nat.find_spec h, fun n hn => Bool.eq_false_iff.mpr (Nat.find_min h hn)⟩

/-- The cuts of a text are what the calls give up to the first that finds the end. -/
theorem outcomes_eq_calls {k : Nat} (hk : FirstEnd text k) :
    (ofText text).outcomes = (List.range (k + 1)).map (call text) := by
  suffices h : ∀ m n, n + m = k →
      (after text n).outcomes = (List.range' n (m + 1)).map (call text) by
    rw [List.range_eq_range']
    exact h k 0 (Nat.zero_add k)
  intro m
  induction m with
  | zero =>
    intro n hn
    obtain rfl : n = k := hn
    rw [outcomes_of_ends hk.ends]
    rfl
  | succ m ih =>
    intro n hn
    have hn' : (after text n).outcomes = call text n :: (after text (n + 1)).outcomes :=
      outcomes_of_proceeds (hk.proceeds n (by omega))
    rw [hn', ih (n + 1) (by omega), ← List.map_cons, ← List.range'_succ]

theorem exists_call {o : Outcome} (h : o ∈ (ofText text).outcomes) : ∃ n, call text n = o := by
  obtain ⟨k, hk⟩ := exists_end text
  rw [outcomes_eq_calls hk] at h
  obtain ⟨n, -, hn⟩ := List.mem_map.mp h
  exact ⟨n, hn⟩

/-- At the end a call changes nothing but the start, and a second call nothing at all. -/
theorem next_of_isEnd {k : Nat} (h : (call text k).isEnd = true) :
    (after text (k + 1)).next = (call text k, after text (k + 1)) := by
  obtain ⟨hrest, ho, hv⟩ := (takes_call text k).of_isEnd h
  have hskip : (after text k).skipGap.skipGap = (after text k).skipGap := by
    simp only [skipGap] at hrest ⊢
    rw [hrest]
    rfl
  rw [hv, next, hskip, token, hrest, ho]

/-- Behind that call the whole text is read. -/
theorem current_of_isEnd {k : Nat} (h : (call text k).isEnd = true) :
    (after text (k + 1)).current = text.length ∧ (after text (k + 1)).rest = [] := by
  obtain ⟨hrest, -, hv⟩ := (takes_call text k).of_isEnd h
  have hstands := (stands_after text (k + 1)).rest_eq
  rw [hv] at hstands ⊢
  have hlen := List.drop_eq_nil_iff.mp (hstands.1.symm.trans hrest)
  rw [String.length_toList] at hlen
  exact ⟨Nat.le_antisymm hstands.2 hlen, hrest⟩

theorem after_end {k : Nat} (h : (call text k).isEnd = true) {n : Nat} (hn : k ≤ n) :
    call text n = call text k ∧ after text (n + 1) = after text (k + 1) := by
  induction n, hn using Nat.le_induction with
  | base => exact ⟨rfl, rfl⟩
  | succ n _ ih =>
    have hnext := next_of_isEnd h
    constructor
    · rw [call, ih.2, hnext]
    · rw [after, ih.2, hnext]

/-- The pieces of the first calls are what these calls have read. -/
theorem pieces_append (text : String) (n : Nat) :
    (List.range n).flatMap (fun i => gap text i ++ span text i) ++ (after text n).rest =
      text.toList := by
  induction n with
  | zero => rfl
  | succ n ih =>
    rw [List.range_succ, List.flatMap_append, List.append_assoc, ← ih, rest_after text n]
    simp

/-- The calls on a text, the first `k` of which do not find its end. -/
structure Tiles (text : String) (k : Nat) : Prop where
  few : k ≤ text.length
  proceeds : ∀ n < k, (call text n).isEnd = false ∧
    (after text n).current < (after text (n + 1)).current
  ends : ∀ n, k ≤ n → (call text n).isEnd = true ∧ call text n = call text k ∧
    after text (n + 1) = after text (k + 1)
  ordered : ∀ n, (after text n).current ≤ (after text (n + 1)).start ∧
    (after text (n + 1)).start ≤ (after text (n + 1)).current
  gaps : ∀ n, IsGap (gap text n) (text.toList.drop (after text (n + 1)).start)
  covers : (List.range (k + 1)).flatMap (fun n => gap text n ++ span text n) = text.toList
  lexeme : ∀ n t, call text n = .ok t → t.kind ≠ .string → t.kind ≠ .endOfText →
    t.lexeme = String.ofList (span text n)
  unknown : ∀ n e x, call text n = .error e → e.fault = .unrecognizedCharacter x →
    ∃ c, span text n = [c] ∧ x = c.toString

theorem Takes.lexeme_eq {s v : Cursor} {span : List Char} {t : Token} (h : s.Takes span (.ok t) v)
    (hs : t.kind ≠ .string) (he : t.kind ≠ .endOfText) : t.lexeme = String.ofList span := by
  cases h with
  | ended _ => exact absurd rfl he
  | newlines _ _ _ => rfl
  | lexeme _ _ _ _ _ => rfl
  | text _ _ _ => exact absurd rfl hs

theorem Takes.unknown_eq {s v : Cursor} {span : List Char} {e : LexicalError} {x : String}
    (h : s.Takes span (.error e) v) (he : e.fault = .unrecognizedCharacter x) :
    ∃ c, span = [c] ∧ x = c.toString := by
  cases h with
  | unknown _ _ => exact ⟨_, rfl, by simpa using he.symm⟩
  | unended _ _ => cases he
  | badEscape _ _ _ => cases he

theorem exists_tiles (text : String) : ∃ k, Tiles text k := by
  obtain ⟨k, hk, hmin⟩ := exists_end text
  obtain ⟨hrest, -, hv⟩ := (takes_call text k).of_isEnd hk
  refine ⟨k, ?_⟩
  constructor
  case few => exact le_length hmin
  case proceeds => exact fun n hn => ⟨hmin n hn, current_lt n (hmin n hn)⟩
  case ends =>
    intro n hn
    have hend := after_end hk hn
    exact ⟨hend.1 ▸ hk, hend⟩
  case ordered =>
    intro n
    rw [current_after, start_after]
    exact ⟨Nat.le_add_right _ _, Nat.le_add_right _ _⟩
  case gaps =>
    intro n
    have hstart : (after text (n + 1)).start = (after text n).skipGap.current :=
      (takes_call text n).start
    rw [gap_eq, hstart, ← (stands_after text n).skipGap.rest_eq.1]
    exact isGap_splitGap _
  case covers =>
    have hp := pieces_append text (k + 1)
    rwa [hv, hrest, List.append_nil] at hp
  case lexeme =>
    intro n t ht hs he
    exact (ht ▸ takes_call text n).lexeme_eq hs he
  case unknown =>
    intro n e x he hx
    exact (he ▸ takes_call text n).unknown_eq hx

end Cursor
end ArrowLang
