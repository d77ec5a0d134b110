import ArrowLang.Proofs.Longest
import ArrowLang.Proofs.Placed

/-!
# Classes of tokens

In a text that is cut without errors every token is a piece, and its class is that of its kind. Only a
keyword directly behind a number is a name, since the rules for keywords look at the character in front.
-/
namespace ArrowLang

open Cursor (call after span gap ahead)
open Lexeme
open Text (isBlank)

theorem isWordChar_of_isDigit {c : Char} (h : c.isDigit) : isWordChar c := by
  have hc : c.toNat < 128 := by
    simp only [Char.isDigit, Bool.and_eq_true, decide_eq_true_eq] at h
    exact Nat.lt_of_le_of_lt h.2 (by decide)
  revert h
  exact Text.ascii_cases (p := fun c => c.isDigit = true → isWordChar c = true) (by decide) hc

theorem isWordChar_of_wordStart {c : Char} (h : isWordStart c) : isWordChar c :=
  (Bool.and_eq_true_iff.mp (Coloring.isNameStart_of_wordStart h)).1

theorem Numeral.getLast_isWord {w : List Char} (h : Numeral w) : Coloring.isWord w.getLast? := by
  have hdigits : ∀ ds, Digits ds → Coloring.isWord ds.getLast? := by
    intro ds hds
    have hmem := hds.2 _ (List.getLast_mem hds.1)
    rw [List.getLast?_eq_some_getLast hds.1]
    exact isWordChar_of_isDigit hmem
  cases h with
  | whole hd => exact hdigits _ hd
  | pointed hd hf =>
    rw [List.getLast?_append_of_ne_nil _ (List.cons_ne_nil _ _), List.getLast?_cons_of_ne_nil hf.1]
    exact hdigits _ hf

theorem TokenKind.not_isWordChar_spelling {k : TokenKind} {w : List Char} (h : k.spelling? = some w)
    (hk : k.isKeyword = false) : ∀ c ∈ w, isWordChar c = false := by
  cases k <;>
    first
    | (cases hk; done)
    | (cases h; done)
    | (cases h; intro c hc; fin_cases hc <;> rfl)

/-- Of the lexemes that a word character can follow, only numbers end with one. -/
theorem Lexeme.isWord_getLast_iff {c : Char} {tail rest : List Char} {k : TokenKind}
    (h : tail? c (tail ++ rest) = some (k, tail)) (hnext : Coloring.isWord rest.head?) :
    Coloring.isWord (c :: tail).getLast? ↔ k = .number := by
  have hlast : (∀ d ∈ c :: tail, isWordChar d = false) → ¬ Coloring.isWord (c :: tail).getLast? := by
    intro hnot
    rw [List.getLast?_eq_some_getLast (List.cons_ne_nil _ _)]
    exact Bool.eq_false_iff.mp (hnot _ (List.getLast_mem _))
  rcases tail_cases h with ⟨-, rfl, -⟩ | ⟨-, -, hw⟩ | ⟨-, rfl, -⟩ | hop
  · exact iff_of_true (numeral_of_tail h).getLast_isWord rfl
  · have hstop := head_of_takeWhile hw.symm
    obtain ⟨d, hd, hword⟩ := (Option.any_eq_true _ _).mp hnext
    rw [hstop d hd] at hword
    cases hword
  · refine iff_of_false (hlast fun d hd => ?_) nofun
    rw [newlines_of_tail h d hd]
    rfl
  · have hspelled := (spelling_of_operator hop).1
    have hkey := Coloring.not_isKeyword_of_operator hop
    refine iff_of_false (hlast (TokenKind.not_isWordChar_spelling hspelled hkey)) ?_
    rintro rfl
    cases hspelled

namespace Cursor

variable {text : String}

/-- A token that is no string is a lexeme that is cut from the text. -/
theorem exists_tail {n : Nat} {t : Token} (ht : call text n = .ok t) (hs : t.kind ≠ .string)
    (he : t.kind ≠ .endOfText) : ∃ c tail, span text n = c :: tail ∧
      t.lexeme = String.ofList (c :: tail) ∧
        tail? c (tail ++ (after text (n + 1)).rest) = some (t.kind, tail) := by
  have hcut := cutToken_call text n
  rw [ht] at hcut
  cases hcs : span text n ++ (after text (n + 1)).rest with
  | nil =>
    rw [hcs] at hcut
    exact absurd (congrArg Token.kind (Except.ok.inj (congrArg Prod.fst hcut))).symm he
  | cons c cs =>
    rw [hcs, cutToken] at hcut
    split at hcut
    · obtain ⟨w, hw, hlexical⟩ := lexical_of_cutQuoted hcut
      obtain ⟨d, w, rfl⟩ := List.exists_cons_of_ne_nil hlexical.ne_nil
      obtain rfl := (List.cons.inj hw).1
      exact absurd hlexical.means_of_quote.1 hs
    · split at hcut
      · next k tail htail =>
        obtain ⟨htoken, hrest⟩ := Prod.mk.inj hcut
        have hbare := Except.ok.inj htoken
        obtain ⟨r, rfl⟩ := tail_isPrefix htail
        obtain rfl : r = (after text (n + 1)).rest := by rw [← hrest, List.drop_left]
        obtain rfl : k = t.kind := congrArg Token.kind hbare
        exact ⟨c, tail, List.append_cancel_right hcs, (congrArg Token.lexeme hbare).symm, htail⟩
      · cases congrArg Prod.fst hcut

/-- The token of a call stands directly behind a number. -/
def BehindNumber (text : String) (n : Nat) : Prop :=
  ∃ m u, n = m + 1 ∧ call text m = .ok u ∧ u.kind = .number ∧ gap text n = []

/-- In front of a word character there is another one only if that is the end of a number. -/
theorem isWord_behind {m : Nat} {u : Token} (hu : call text m = .ok u)
    (hnext : Coloring.isWord (after text (m + 1)).rest.head?) :
    Coloring.isWord (text.toList.take (after text (m + 1)).current).getLast? ↔ u.kind = .number := by
  have hlive : (call text m).isEnd = false := by
    by_contra h
    rw [(current_of_isEnd (Bool.not_eq_false _ ▸ h)).2] at hnext
    cases hnext
  have hlast : (text.toList.take (after text (m + 1)).current).getLast? = (span text m).getLast? := by
    rw [current_after, take_shown (List.append_nil _).symm,
      List.getLast?_append_of_ne_nil _ ((takes_call text m).ne_nil hlive)]
  rw [hlast]
  rw [hu] at hlive
  have hend : u.kind ≠ .endOfText := by simpa [Outcome.isEnd] using hlive
  by_cases hstring : u.kind = .string
  · have hlexical := lexical_span hu hend
    rw [hstring] at hlexical ⊢
    generalize span text m = w at hlexical
    cases hlexical with
    | quoted hm =>
      rw [← List.cons_append, List.getLast?_concat]
      exact iff_of_false (by decide) (by decide)
    | spelled hs => cases hs
  · obtain ⟨d, tail, hspan, -, htail⟩ := exists_tail hu hstring hend
    rw [hspan]
    exact isWord_getLast_iff htail hnext

/-- In front of a word there is a word character only if it stands directly behind a number. -/
theorem isWord_before (hgood : ∀ n, (call text n).Good) {n : Nat} {c : Char} {tail : List Char}
    (hspan : span text n = c :: tail) (hc : isWordStart c) :
    Coloring.isWord (text.toList.take (after text (n + 1)).start).getLast? ↔
      BehindNumber text n := by
  have hword : Coloring.isWord ((span text n ++ (after text (n + 1)).rest).head?) := by
    rw [hspan]
    exact isWordChar_of_wordStart hc
  have hstart := take_shown (List.nil_append (span text n)).symm
  rw [List.length_nil, Nat.add_zero, List.append_nil] at hstart
  rw [hstart]
  obtain ⟨blanks, comment, hgap, hblanks, hcomment⟩ := isGap_call text n
  -- a comment would go on to the end of the line
  have hnone : comment = [] := by
    rcases hcomment with h | ⟨words, -, -, h | h⟩
    · exact h
    · rw [hspan] at h
      cases h
    · rw [h] at hword
      cases hword
  rw [hnone, List.append_nil] at hgap
  rcases List.eq_nil_or_concat' blanks with rfl | ⟨blanks, d, rfl⟩
  · rw [hgap, List.append_nil]
    cases n with
    | zero =>
      refine iff_of_false nofun ?_
      rintro ⟨m, u, hm, -⟩
      cases hm
    | succ m =>
      obtain ⟨u, hu⟩ := hgood m
      have hnext : Coloring.isWord (after text (m + 1)).rest.head? := by
        rwa [rest_after, hgap]
      rw [isWord_behind hu hnext]
      constructor
      · exact fun hk => ⟨m, u, rfl, hu, hk, hgap⟩
      · rintro ⟨_, v, hm, hv, hk, -⟩
        obtain rfl := Nat.succ.inj hm
        obtain rfl := Except.ok.inj (hv.symm.trans hu)
        exact hk
  · have hd : isWordChar d = false := by
      rcases hblanks d (by simp) with rfl | rfl | rfl <;> rfl
    refine iff_of_false ?_ ?_
    · rw [hgap, ← List.append_assoc, List.getLast?_concat]
      exact Bool.eq_false_iff.mp hd
    · rintro ⟨m, u, -, -, -, hnil⟩
      rw [hgap] at hnil
      simp at hnil

/-- A text that is cut without errors has no byte order mark. -/
theorem head_ne_mark (hgood : ∀ n, (call text n).Good) : text.toList.head? ≠ some '\ufeff' := by
  intro hmark
  obtain ⟨cs, hcs⟩ := List.head?_eq_some_iff.mp hmark
  have hrest : (after text 0).rest = '\ufeff' :: cs := hcs
  have hgap : gap text 0 = [] := by
    rw [gap_eq, hrest]
    rfl
  have hcut := cutToken_call text 0
  have hahead := rest_after text 0
  rw [hgap, List.nil_append, hrest] at hahead
  have hnone : tail? '\ufeff' cs = none := by
    have hword : isWordStart '\ufeff' = false := by decide +kernel
    simp [tail?, hword, operatorTail?, TokenKind.single?, TokenKind.compound?]
  obtain ⟨t, ht⟩ := hgood 0
  rw [← hahead, ht, cutToken, if_neg (by decide), hnone] at hcut
  cases congrArg Prod.fst hcut

end Cursor

namespace Coloring

/-- Preparing leaves out newlines at the start and all but one at the end. -/
theorem prepare_eq {cs : List Char} (hr : '\r' ∉ cs) (hm : cs.head? ≠ some '\ufeff') :
    ∃ body j, cs.dropWhile (· = '\n') = body ++ List.replicate j '\n' ∧
      prepare cs = body ++ ['\n'] := by
  refine ⟨stripNewlines cs, ((cs.dropWhile (· = '\n')).rtakeWhile (· = '\n')).length, ?_, ?_⟩
  · have hend : (cs.dropWhile (· = '\n')).rtakeWhile (· = '\n') =
        List.replicate ((cs.dropWhile (· = '\n')).rtakeWhile (· = '\n')).length '\n' :=
      List.eq_replicate_iff.mpr ⟨rfl, fun c hc => by simpa using List.mem_rtakeWhile_imp hc⟩
    rw [← hend]
    exact List.rdropWhile_append_rtakeWhile.symm
  · rw [prepare, dropMark_of_head hm, unifyLineEnds_of_not_mem hr]

theorem pieceAt_prepare {cs : List Char} (hr : '\r' ∉ cs) (hm : cs.head? ≠ some '\ufeff') {i : Nat}
    {p : Piece} (hp : p.kind.IsLexeme) :
    pieceAt? i (pieces .code none (prepare cs)) = some p ↔
      pieceAt? i (pieces .code none (cs.dropWhile (· = '\n'))) = some p := by
  obtain ⟨body, j, hbody, hprepare⟩ := prepare_eq hr hm
  rw [hbody, hprepare, pieceAt_append_newline hp]
  clear hbody
  induction j with
  | zero => rw [List.replicate_zero, List.append_nil]
  | succ j ih =>
    rw [List.replicate_succ', ← List.append_assoc, pieceAt_append_newline hp]
    exact ih

/-- The newlines that a text begins with. -/
def leading (text : String) : List Char := text.toList.takeWhile (· = '\n')

theorem newline_of_leading (text : String) {c : Char} (h : c ∈ leading text) : c = '\n' := by
  simpa using List.mem_takeWhile_imp h

theorem leading_append (text : String) :
    text.toList = leading text ++ text.toList.dropWhile (· = '\n') :=
  List.takeWhile_append_dropWhile.symm

theorem isWord_leading (text : String) (cs : List Char) :
    isWord (leading text ++ cs).getLast? = isWord cs.getLast? := by
  rcases List.eq_nil_or_concat' cs with rfl | ⟨cs, c, rfl⟩
  · rw [List.append_nil]
    rcases List.eq_nil_or_concat' (leading text) with h | ⟨ns, c, h⟩
    · rw [h]
    · have hc : c = '\n' := newline_of_leading text (by rw [h]; simp)
      rw [h, List.getLast?_concat, hc]
      rfl
  · rw [← List.append_assoc, List.getLast?_concat, List.getLast?_concat]

section
variable {text : String} {n : Nat} {t : Token} {kind : Class}

/-- A token that has a class is a lexeme among the stretches. -/
theorem stretch_of_token (hgood : ∀ n, (call text n).Good) (ht : call text n = .ok t)
    (hkind : classOf? t.kind t.lexeme.toList = some kind) :
    ⟨.lexeme, (after text (n + 1)).start, (after text (n + 1)).current⟩ ∈
      outside (leading text).length (text.toList.dropWhile (· = '\n')) := by
  have hlexeme : t.kind.stretch? = some .lexeme := by
    generalize t.kind = k at hkind
    cases k <;> first | rfl | cases hkind
  have hblank : ∀ c ∈ leading text, isBlank c := by
    intro c hc
    rw [newline_of_leading text hc]
    rfl
  have hcalls := (Cursor.concur_calls text (n + 1)).all fun m _ => hgood m
  rw [leading_append text, outside_blanks hblank, Nat.zero_add] at hcalls
  rw [hcalls]
  have hmem : n ∈ List.range (n + 1) := List.mem_range.mpr (Nat.lt_succ_self n)
  refine List.mem_append_left _ (List.mem_flatMap.mpr ⟨n, hmem, List.mem_append_right _ ?_⟩)
  rw [ht]
  simp [Outcome.stretches, Outcome.stretch?, hlexeme]

/-- A keyword is a word. -/
theorem wordStart_of_isKeyword {c : Char} {cs tail : List Char} {k : TokenKind}
    (h : tail? c cs = some (k, tail)) (hk : k.isKeyword) : isWordStart c := by
  rcases tail_cases h with ⟨-, rfl, -⟩ | ⟨hc, -⟩ | ⟨-, rfl, -⟩ | hop
  · cases hk
  · exact hc
  · cases hk
  · rw [not_isKeyword_of_operator hop] at hk
    cases hk

/-- The piece of a token in a text without newlines at the start. -/
theorem pieceAt_of_token (hgood : ∀ n, (call text n).Good) (ht : call text n = .ok t)
    (hkind : classOf? t.kind t.lexeme.toList = some kind) :
    ∃ i k, (after text (n + 1)).start = (leading text).length + i ∧
      pieceAt? i (pieces .code none (text.toList.dropWhile (· = '\n'))) = some ⟨k, span text n⟩ ∧
        (¬ (t.kind.isKeyword ∧ Cursor.BehindNumber text n) → k = kind) ∧
          (t.kind.isKeyword → Cursor.BehindNumber text n → k = .name) := by
  obtain ⟨i, hi, c, rest, k, m, hdrop, hpiece, hat⟩ :=
    beginsAt_of_stretch (by simp) (stretch_of_token hgood ht hkind) rfl
  dsimp only at hi
  have hne : t.kind ≠ .string ∧ t.kind ≠ .endOfText ∧ t.kind ≠ .newline := by
    refine ⟨?_, ?_, ?_⟩ <;> intro hk <;> rw [hk] at hkind <;> cases hkind
  obtain ⟨c', tail, hspan, hlexeme, htail⟩ := Cursor.exists_tail ht hne.1 hne.2.1
  have hahead : c :: rest = c' :: (tail ++ (after text (n + 1)).rest) := by
    rw [← List.cons_append, ← hspan, Cursor.span_append_rest, ahead, hi, leading_append text,
      List.drop_length_add_append, ← hdrop]
  obtain ⟨rfl, rfl⟩ := List.cons.inj hahead
  have htake : text.toList.take (after text (n + 1)).start =
      leading text ++ (text.toList.dropWhile (· = '\n')).take i := by
    conv_lhs => rw [leading_append text, hi, List.take_length_add_append]
  obtain ⟨k', hk', hpiece'⟩ :=
    codePiece_tail ((text.toList.dropWhile (· = '\n')).take i).getLast? htail hne.2.2
  obtain rfl : k' = kind := by
    rw [hlexeme, String.toList_ofList, hk'] at hkind
    exact Option.some.inj hkind
  obtain ⟨rfl, hlength⟩ := Prod.mk.inj (hpiece'.symm.trans hpiece)
  obtain rfl := (Prod.mk.inj hlength).1
  rw [List.take_left, ← hspan] at hat
  have hbefore : t.kind.isKeyword →
      (isWord ((text.toList.dropWhile (· = '\n')).take i).getLast? ↔ Cursor.BehindNumber text n) := by
    intro hkey
    rw [← isWord_leading text, ← htake]
    exact Cursor.isWord_before hgood hspan (wordStart_of_isKeyword htail hkey)
  refine ⟨i, _, hi, hat, fun hnot => ?_, fun hkey hbehind => ?_⟩
  · refine if_neg fun h => ?_
    obtain ⟨hkey, hword⟩ := Bool.and_eq_true_iff.mp h
    exact hnot ⟨hkey, (hbefore hkey).mp hword⟩
  · exact if_pos (Bool.and_eq_true_iff.mpr ⟨hkey, (hbefore hkey).mpr hbehind⟩)

end

/-- In a text that is cut without errors, a piece begins where a token that is no string begins. It is
as long, and it has the class of the kind of the token, unless that is a keyword directly behind a
number: then it is a name. -/
theorem class_of_token {text : String} (hreturn : '\r' ∉ text.toList)
    (hgood : ∀ o ∈ (Cursor.ofText text).outcomes, o.Good) {n : Nat} {t : Token}
    (ht : call text n = .ok t) {kind : Class} (hkind : classOf? t.kind t.lexeme.toList = some kind) :
    ∃ i p, (after text (n + 1)).start = (leading text).length + i ∧
      pieceAt? i (ofText text) = some p ∧ p.text = span text n ∧
        (p.kind = kind ↔ ¬ (t.kind.isKeyword ∧ Cursor.BehindNumber text n)) ∧
          (t.kind.isKeyword → Cursor.BehindNumber text n → p.kind = .name) := by
  have hgood' := Cursor.good_of_outcomes hgood
  obtain ⟨i, k, hi, hat, hclass, hname⟩ := pieceAt_of_token hgood' ht hkind
  have hlexeme : k.IsLexeme := by
    by_cases hbehind : t.kind.isKeyword ∧ Cursor.BehindNumber text n
    · rw [hname hbehind.1 hbehind.2]
      decide
    · rw [hclass hbehind]
      exact isLexeme_of_class hkind false
  have hprepared := pieceAt_prepare hreturn (Cursor.head_ne_mark hgood') hlexeme (i := i)
    (p := ⟨k, span text n⟩)
  refine ⟨i, _, hi, hprepared.mpr hat, rfl, ⟨fun hk hbehind => ?_, hclass⟩, hname⟩
  obtain rfl : kind = .name := hk.symm.trans (hname hbehind.1 hbehind.2)
  have hkey := not_isKeyword_of_class hkind (by decide) (by decide)
  rw [hbehind.1] at hkey
  cases hkey

/-- In front of `and` there is a number, in front of `true` a blank. -/
theorem class_of_token_and : '\r' ∉ "1and true".toList ∧
    (∀ o ∈ (Cursor.ofText "1and true").outcomes, o.Good) ∧
      pieceAt? 1 (ofText "1and true") = some ⟨.name, ['a', 'n', 'd']⟩ ∧
        pieceAt? 5 (ofText "1and true") = some ⟨.constant, ['t', 'r', 'u', 'e']⟩ := by
  have hreturn : '\r' ∉ "1and true".toList := by decide
  have hgood : ∀ o ∈ (Cursor.ofText "1and true").outcomes, o.Good := by
    have houtcomes : (Cursor.ofText "1and true").outcomes = [.ok ⟨.number, "1", 1, 1⟩,
        .ok ⟨.andWord, "and", 1, 4⟩, .ok ⟨.trueWord, "true", 1, 9⟩, .ok ⟨.endOfText, "", 1, 9⟩] := by
      cbv
    rw [houtcomes]
    decide
  have hnumber : call "1and true" 0 = .ok ⟨.number, "1", 1, 1⟩ := by cbv
  have hand : call "1and true" 1 = .ok ⟨.andWord, "and", 1, 4⟩ := by cbv
  have htrue : call "1and true" 2 = .ok ⟨.trueWord, "true", 1, 9⟩ := by cbv
  have hbehind : Cursor.BehindNumber "1and true" 1 := ⟨0, _, rfl, hnumber, rfl, by cbv⟩
  have hblank : ¬ Cursor.BehindNumber "1and true" 2 := by
    rintro ⟨m, u, -, -, -, hgap⟩
    have : gap "1and true" 2 = [' '] := by cbv
    rw [this] at hgap
    cases hgap
  have hleading : leading "1and true" = [] := by decide
  refine ⟨hreturn, hgood, ?_, ?_⟩
  · obtain ⟨i, ⟨k, w⟩, hi, hat, hw, -, hname⟩ := class_of_token hreturn hgood hand rfl
    obtain rfl : k = .name := hname rfl hbehind
    obtain rfl : w = ['a', 'n', 'd'] := hw
    have hstart : (after "1and true" 2).start = 1 := by cbv
    obtain rfl : i = 1 := by simpa [hstart, hleading] using hi.symm
    exact hat
  · obtain ⟨i, ⟨k, w⟩, hi, hat, hw, hk, -⟩ := class_of_token hreturn hgood htrue rfl
    obtain rfl : k = .constant := hk.mpr fun h => hblank h.2
    obtain rfl : w = ['t', 'r', 'u', 'e'] := hw
    have hstart : (after "1and true" 3).start = 5 := by cbv
    obtain rfl : i = 5 := by simpa [hstart, hleading] using hi.symm
    exact hat

/-- So a keyword can have another class than its kind. -/
theorem class_of_token_ne : '\r' ∉ "1and".toList ∧
    (∀ o ∈ (Cursor.ofText "1and").outcomes, o.Good) ∧
      call "1and" 1 = .ok ⟨.andWord, "and", 1, 4⟩ ∧
        classOf? .andWord "and".toList = some .wordOperator ∧
          ofText "1and" = [⟨.integer, ['1']⟩, ⟨.name, ['a', 'n', 'd']⟩, ⟨.text, ['\n']⟩] := by
  have houtcomes : (Cursor.ofText "1and").outcomes =
      [.ok ⟨.number, "1", 1, 1⟩, .ok ⟨.andWord, "and", 1, 4⟩, .ok ⟨.endOfText, "", 1, 4⟩] := by cbv
  refine ⟨by decide, ?_, by cbv, rfl, by cbv⟩
  rw [houtcomes]
  decide

end Coloring
end ArrowLang
