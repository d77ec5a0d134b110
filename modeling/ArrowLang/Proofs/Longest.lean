import ArrowLang.Proofs.Strings

/-!
# The longest lexeme

The lexemes are told class by class, without the scanner. Of those that a text begins with, a call
takes the longest, and it fails where there is none.
-/
namespace ArrowLang

open Lexeme

/-- The lexemes of each kind. Keywords, operators and brackets are the spellings of their kinds. -/
inductive Lexical : TokenKind → List Char → Prop where
  | number {w : List Char} : Numeral w → Lexical .number w
  | name {w : List Char} : IsName w → Lexical .identifier w
  | quoted {body text : List Char} : Means body text → Lexical .string ('"' :: (body ++ ['"']))
  | newlines {w : List Char} : w ≠ [] → (∀ c ∈ w, c = '\n') → Lexical .newline w
  | spelled {k : TokenKind} {w : List Char} : k.spelling? = some w → Lexical k w

/-- A lexeme at the head of a text. -/
structure Heads (k : TokenKind) (w ahead : List Char) : Prop where
  lexical : Lexical k w
  nonempty : w ≠ []
  isPrefix : w <+: ahead

/-- A lexeme that no other one at the head of the text is longer than. -/
structure Longest (k : TokenKind) (w ahead : List Char) : Prop extends Heads k w ahead where
  longest : ∀ k' w', Heads k' w' ahead → w'.length ≤ w.length

theorem TokenKind.spelling_ne_nil {k : TokenKind} {w : List Char} (h : k.spelling? = some w) :
    w ≠ [] := by
  cases k <;> cases h <;> exact List.cons_ne_nil _ _

theorem Lexical.ne_nil {k : TokenKind} {w : List Char} (h : Lexical k w) : w ≠ [] := by
  cases h with
  | number h =>
    cases h with
    | whole hd => exact hd.1
    | pointed hd hf => simp
  | name h =>
    obtain ⟨⟨c, w, rfl, -⟩, -⟩ := h
    exact List.cons_ne_nil c w
  | quoted h => exact List.cons_ne_nil _ _
  | newlines h _ => exact h
  | spelled h => exact TokenKind.spelling_ne_nil h

namespace Lexeme

theorem lexical_of_tail {c : Char} {cs tail : List Char} {k : TokenKind}
    (h : tail? c cs = some (k, tail)) : Lexical k (c :: tail) := by
  rcases tail_spelling h with rfl | rfl | rfl | hk
  · exact .number (numeral_of_tail h)
  · exact .name (isName_of_tail h)
  · exact .newlines (List.cons_ne_nil c tail) (newlines_of_tail h)
  · exact .spelled hk

theorem numberTail_of_numeral {c : Char} {w : List Char} (h : Numeral (c :: w)) :
    c.isDigit ∧ numberTail w = w := by
  have hend : Boundary [] := by simp [Boundary]
  generalize hl : c :: w = l at h
  cases h with
  | whole hd =>
    subst hl
    have hw := numberTail_whole (fun d hm => hd.2 d (List.mem_cons_of_mem c hm)) hend
    exact ⟨hd.2 c List.mem_cons_self, by simpa using hw⟩
  | @pointed ds fs hd hf =>
    obtain ⟨d, ds, rfl⟩ := List.exists_cons_of_ne_nil hd.1
    obtain ⟨rfl, rfl⟩ := List.cons.inj hl
    have hw := numberTail_pointed (fun d hm => hd.2 d (List.mem_cons_of_mem c hm)) hf hend.isDigit
    exact ⟨hd.2 c List.mem_cons_self, by simpa using hw⟩

theorem takeWhile_append_of_eq {p : Char → Bool} {w : List Char} (h : w.takeWhile p = w)
    (r : List Char) : w <+: (w ++ r).takeWhile p := by
  rw [List.takeWhile_append_of_pos (List.takeWhile_eq_self_iff.mp h)]
  exact List.prefix_append w _

theorem numberTail_append_of_eq {w : List Char} (h : numberTail w = w) (r : List Char) :
    w <+: numberTail (w ++ r) := by
  rcases numberTail_cases w with hw | ⟨ds, f, fs, hw, hd, hf, hfs⟩
  · rw [h] at hw
    rw [numberTail_append hw]
    exact List.prefix_append w _
  · obtain rfl : w = ds ++ '.' :: f :: fs := h.symm.trans hw
    rw [List.append_assoc, numberTail_append hd, List.cons_append, List.cons_append,
      numberTail_point hf, List.takeWhile_append_of_pos hfs]
    exact ⟨r.takeWhile Char.isDigit, by simp⟩

theorem operatorTail_append_of_eq {c : Char} {w : List Char} {k : TokenKind}
    (h : operatorTail? c w = some (k, w)) (r : List Char) :
    ∃ p, operatorTail? c (w ++ r) = some p ∧ w <+: p.2 := by
  cases w with
  | nil =>
    unfold operatorTail? at h ⊢
    cases hs : TokenKind.single? c with
    | some k => exact ⟨_, rfl, List.nil_prefix⟩
    | none =>
      rw [hs] at h
      cases hc : TokenKind.compound? c with
      | none => simp [hc] at h
      | some pairs => exact ⟨_, rfl, List.nil_prefix⟩
  | cons d w => exact ⟨(k, d :: w), h, List.prefix_rfl⟩

/-- More text behind a lexeme can only make it longer. -/
theorem tail_append_of_eq {c : Char} {w : List Char} {k : TokenKind} (h : tail? c w = some (k, w))
    (r : List Char) : ∃ p, tail? c (w ++ r) = some p ∧ w <+: p.2 := by
  unfold tail? at h ⊢
  by_cases hd : c.isDigit
  · rw [if_pos hd] at h ⊢
    have hw : numberTail w = w := congrArg Prod.snd (Option.some.inj h)
    exact ⟨_, rfl, numberTail_append_of_eq hw r⟩
  · rw [if_neg hd] at h ⊢
    by_cases hs : isWordStart c
    · rw [if_pos hs] at h ⊢
      have hw : w.takeWhile isWordChar = w := congrArg Prod.snd (Option.some.inj h)
      exact ⟨_, rfl, takeWhile_append_of_eq hw r⟩
    · rw [if_neg hs] at h ⊢
      by_cases hn : c = '\n'
      · rw [if_pos hn] at h ⊢
        have hw : w.takeWhile (· = '\n') = w := congrArg Prod.snd (Option.some.inj h)
        exact ⟨_, rfl, takeWhile_append_of_eq hw r⟩
      · rw [if_neg hn] at h ⊢
        exact operatorTail_append_of_eq h r

/-- A spelling on its own is a lexeme of its kind. -/
theorem tail_of_spelling {c : Char} {w : List Char} {k : TokenKind}
    (h : k.spelling? = some (c :: w)) : tail? c w = some (k, w) := by
  cases k <;> cases h <;> rfl

end Lexeme

/-- A lexeme on its own is what is cut from it, strings apart. -/
theorem Lexical.tail_eq {k : TokenKind} {c : Char} {w : List Char} (h : Lexical k (c :: w))
    (hc : c ≠ '"') : tail? c w = some (k, w) := by
  generalize hl : c :: w = l at h
  cases h with
  | number h =>
    obtain ⟨hd, hw⟩ := numberTail_of_numeral (hl ▸ h)
    rw [tail?, if_pos hd, hw]
  | name h =>
    subst hl
    obtain ⟨⟨_, _, hcons, hs, hw⟩, hkey⟩ := h
    obtain ⟨rfl, rfl⟩ := List.cons.inj hcons
    rw [tail?, if_neg (not_isDigit_of_isWordStart hs), if_pos hs]
    dsimp only
    rw [List.takeWhile_eq_self_iff.mpr hw, wordKind, hkey]
    rfl
  | quoted h => exact absurd (List.cons.inj hl).1 hc
  | newlines _ h =>
    subst hl
    obtain ⟨rfl, hw⟩ := List.forall_mem_cons.mp h
    rw [tail_newline, List.takeWhile_eq_self_iff.mpr (by simpa using hw)]
  | spelled h => exact tail_of_spelling (hl ▸ h)

/-- A string is the only lexeme that begins with a quote. -/
theorem Lexical.means_of_quote {k : TokenKind} {w : List Char} (h : Lexical k ('"' :: w)) :
    k = .string ∧ ∃ body text, Means body text ∧ w = body ++ ['"'] := by
  generalize hl : '"' :: w = l at h
  cases h with
  | number h => cases (numberTail_of_numeral (hl ▸ h)).1
  | name h =>
    obtain ⟨⟨_, _, rfl, hs, -⟩, -⟩ := h
    rw [← (List.cons.inj hl).1] at hs
    cases hs
  | quoted h => exact ⟨rfl, _, _, h, (List.cons.inj hl).2⟩
  | newlines _ h => cases h '"' (by simp [← hl])
  | spelled h => cases hl; cases tail_of_spelling h

theorem cutToken_of_means {body text : List Char} (h : Means body text) (r : List Char) :
    cutToken ('"' :: (body ++ '"' :: r)) = (.ok ⟨.string, String.ofList text, 0, 0⟩, r) := by
  obtain ⟨hsplit, hbad, htext⟩ := h.read
  show cutQuoted (body ++ '"' :: r) = _
  rw [cutQuoted, hsplit]
  dsimp only
  rw [hbad, htext]

/-- A lexeme at the head of a text is cut, or a longer one. -/
theorem Lexical.cutToken_append {k : TokenKind} {w : List Char} (h : Lexical k w) (r : List Char) :
    ∃ t r', cutToken (w ++ r) = (.ok t, r') ∧ r'.length ≤ r.length := by
  obtain ⟨c, w, rfl⟩ := List.exists_cons_of_ne_nil h.ne_nil
  by_cases hc : c = '"'
  · subst hc
    obtain ⟨-, body, text, hm, rfl⟩ := h.means_of_quote
    have hcut := cutToken_of_means hm r
    exact ⟨_, r, by simpa using hcut, Nat.le_refl _⟩
  · obtain ⟨⟨k', tail⟩, ht, hw : w <+: tail⟩ := tail_append_of_eq (h.tail_eq hc) r
    refine ⟨_, _, by rw [List.cons_append, cutToken, if_neg hc, ht], ?_⟩
    have hlen := hw.length_le
    simp only [List.length_drop, List.length_append]
    omega

/-- A lexeme on its own is cut as a token of its kind. Of a string the token has what it means. -/
theorem Lexical.cutToken_eq {k : TokenKind} {w : List Char} (h : Lexical k w) :
    ∃ l, cutToken w = (.ok ⟨k, l, 0, 0⟩, []) ∧ (k ≠ .string → l = String.ofList w) := by
  obtain ⟨c, w, rfl⟩ := List.exists_cons_of_ne_nil h.ne_nil
  by_cases hc : c = '"'
  · subst hc
    obtain ⟨rfl, body, text, hm, rfl⟩ := h.means_of_quote
    exact ⟨_, cutToken_of_means hm [], fun hk => absurd rfl hk⟩
  · refine ⟨String.ofList (c :: w), ?_, fun _ => rfl⟩
    rw [cutToken, if_neg hc, h.tail_eq hc]
    simp

/-- No text is a lexeme of two kinds. -/
theorem Lexical.kind_unique {k k' : TokenKind} {w : List Char} (h : Lexical k w)
    (h' : Lexical k' w) : k = k' := by
  obtain ⟨l, hl, -⟩ := h.cutToken_eq
  obtain ⟨l', hl', -⟩ := h'.cutToken_eq
  have hcut := Except.ok.inj (congrArg Prod.fst (hl.symm.trans hl'))
  exact congrArg Token.kind hcut

theorem lexical_of_cutQuoted {s r : List Char} {t : Token} (h : cutQuoted s = (.ok t, r)) :
    ∃ w, '"' :: s = w ++ r ∧ Lexical t.kind w := by
  have hsplit := splitQuoted_append s
  unfold cutQuoted at h
  rcases splitQuoted_cases s with hq | ⟨rest, hq⟩
  · rw [hq] at h
    cases h
  · rw [hq] at h hsplit
    dsimp only at h
    cases hb : badEscape? (splitQuoted s).1 (0, 0) with
    | some b =>
      rw [hb] at h
      cases h
    | none =>
      rw [hb] at h
      obtain ⟨ht, rfl⟩ := Prod.mk.inj h
      obtain rfl := Except.ok.inj ht
      refine ⟨'"' :: ((splitQuoted s).1 ++ ['"']), ?_,
        .quoted (means_of_splitQuoted (Prod.ext rfl hq) hb)⟩
      rw [List.cons_append, List.append_assoc, List.singleton_append, hsplit]

/-- Every token is cut from a lexeme of its kind. -/
theorem lexical_of_cutToken {s r : List Char} {t : Token} (h : cutToken s = (.ok t, r))
    (hs : s ≠ []) : ∃ w, s = w ++ r ∧ Lexical t.kind w := by
  obtain ⟨c, cs, rfl⟩ := List.exists_cons_of_ne_nil hs
  unfold cutToken at h
  dsimp only at h
  split at h
  · next hc =>
    subst hc
    exact lexical_of_cutQuoted h
  · split at h
    · next k tail ht =>
      obtain ⟨hok, rfl⟩ := Prod.mk.inj h
      obtain rfl := Except.ok.inj hok
      refine ⟨c :: tail, ?_, lexical_of_tail ht⟩
      have hdrop := List.prefix_iff_eq_append.mp (tail_isPrefix ht)
      rw [List.cons_append, hdrop]
    · cases h

namespace Cursor

/-- What the call after so many others finds where it begins to take. -/
def ahead (text : String) (n : Nat) : List Char := text.toList.drop (after text (n + 1)).start

theorem span_append_rest (text : String) (n : Nat) :
    span text n ++ (after text (n + 1)).rest = ahead text n := by
  rw [ahead, drop_start, ← (takes_call text n).rest]

theorem ahead_ne_nil {text : String} {n : Nat} (h : (after text (n + 1)).start < text.length) :
    ahead text n ≠ [] := by
  intro hnil
  have hlen := congrArg List.length hnil
  rw [ahead, List.length_drop, String.length_toList, List.length_nil] at hlen
  omega

theorem cutToken_ahead (text : String) (n : Nat) :
    cutToken (ahead text n) = ((call text n).bare, (after text (n + 1)).rest) :=
  span_append_rest text n ▸ cutToken_call text n

/-- In front of a lexeme a call gives a token, and takes no less than the lexeme. -/
theorem call_of_heads {text : String} {n : Nat} {k : TokenKind} {w : List Char}
    (hw : Heads k w (ahead text n)) :
    (∃ t, call text n = .ok t) ∧ w.length ≤ (span text n).length := by
  obtain ⟨r, hr⟩ := hw.isPrefix
  obtain ⟨t, r', hcut, hle⟩ := hw.lexical.cutToken_append r
  rw [hr, cutToken_ahead] at hcut
  obtain ⟨hcall, rfl⟩ := Prod.mk.inj hcut
  obtain ⟨u, hu, -⟩ := Outcome.bare_eq_ok hcall
  refine ⟨⟨u, hu⟩, ?_⟩
  have hlen := congrArg List.length (hr.trans (span_append_rest text n).symm)
  rw [List.length_append, List.length_append] at hlen
  omega

/-- What a call takes for a token is a lexeme of its kind. -/
theorem heads_span {text : String} {n : Nat} {t : Token}
    (h : (after text (n + 1)).start < text.length) (ht : call text n = .ok t) :
    Heads t.kind (span text n) (ahead text n) := by
  have hcut := cutToken_ahead text n
  rw [ht] at hcut
  obtain ⟨w, hw, hl⟩ := lexical_of_cutToken hcut (ahead_ne_nil h)
  obtain rfl : span text n = w := List.append_cancel_right ((span_append_rest text n).trans hw)
  exact ⟨hl, hl.ne_nil, _, span_append_rest text n⟩

theorem lexical_span {text : String} {n : Nat} {t : Token} (ht : call text n = .ok t)
    (he : t.kind ≠ .endOfText) :
    Lexical t.kind (span text n) := by
  refine (heads_span ?_ ht).lexical
  by_contra hlt
  have hdrop : ahead text n = [] := by
    rw [ahead, List.drop_eq_nil_iff, String.length_toList]
    omega
  have hcut := cutToken_ahead text n
  rw [hdrop, ht] at hcut
  have hkind : t.kind = .endOfText := congrArg Token.kind (Except.ok.inj (congrArg Prod.fst hcut)).symm
  exact he hkind

/-- A call that does not begin at the end of the text takes the longest lexeme in front of it, as a
token of the only kind that has it, and fails if there is no lexeme. -/
theorem call_longest {text : String} {n : Nat} (h : (after text (n + 1)).start < text.length) :
    ((∃ t, call text n = .ok t) ↔ ∃ k w, Heads k w (ahead text n)) ∧
      (∀ t, call text n = .ok t → Longest t.kind (span text n) (ahead text n) ∧
        ∀ k, Lexical k (span text n) → k = t.kind) ∧
      ((¬ ∃ k w, Heads k w (ahead text n)) → ∃ e, call text n = .error e) := by
  refine ⟨⟨?_, ?_⟩, fun t ht => ⟨?_, ?_⟩, fun hnone => ?_⟩
  · rintro ⟨t, ht⟩
    exact ⟨t.kind, _, heads_span h ht⟩
  · rintro ⟨k, w, hw⟩
    exact (call_of_heads hw).1
  · exact ⟨heads_span h ht, fun k w hw => (call_of_heads hw).2⟩
  · exact fun k hk => hk.kind_unique (heads_span h ht).lexical
  · cases hcall : call text n with
    | ok t => exact absurd ⟨t.kind, _, heads_span h hcall⟩ hnone
    | error e => exact ⟨e, rfl⟩

/-- An arrow, a number and a point that belongs to neither. -/
theorem call_longest_point : (after "<-12.5." 1).start < "<-12.5.".length ∧
    Longest .leftArrow ['<', '-'] ['<', '-', '1', '2', '.', '5', '.'] ∧
    Longest .number ['1', '2', '.', '5'] ['1', '2', '.', '5', '.'] ∧
    ¬ ∃ k w, Heads k w ['.'] := by
  have harrow : call "<-12.5." 0 = .ok ⟨.leftArrow, "<-", 1, 2⟩ := rfl
  have hnumber : call "<-12.5." 1 = .ok ⟨.number, "12.5", 1, 6⟩ := rfl
  have hpoint : call "<-12.5." 2 = .error ⟨.unrecognizedCharacter ".", 1, 7⟩ := rfl
  refine ⟨by decide, ?_, ?_, ?_⟩
  · exact ((call_longest (by decide)).2.1 _ harrow).1
  · exact ((call_longest (by decide)).2.1 _ hnumber).1
  · intro h
    have hstart : (after "<-12.5." 3).start < "<-12.5.".length := by decide
    obtain ⟨t, ht⟩ := (call_longest hstart).1.mpr h
    cases hpoint.symm.trans ht

end Cursor
end ArrowLang
