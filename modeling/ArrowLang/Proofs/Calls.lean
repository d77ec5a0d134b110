import ArrowLang.Proofs.Lexed

/-!
# Calls for one token after the other

The cursor after a number of calls, and what each of them skips and takes by the positions alone.
What one call can do is said once, form by form.
-/
namespace ArrowLang

open Lexeme

/-- Characters that count as one column each and escape nothing. -/
def Plain (cs : List Char) : Prop := '\n' ∉ cs ∧ '\\' ∉ cs

instance (cs : List Char) : Decidable (Plain cs) := inferInstanceAs (Decidable (_ ∧ _))

theorem plain_of_forall {p : Char → Bool} (hn : p '\n' = false) (hb : p '\\' = false)
    {cs : List Char} (h : ∀ c ∈ cs, p c) : Plain cs := by
  constructor
  · intro hc
    rw [h _ hc] at hn
    cases hn
  · intro hc
    rw [h _ hc] at hb
    cases hb

theorem Plain.append {cs ds : List Char} (hc : Plain cs) (hd : Plain ds) : Plain (cs ++ ds) := by
  simp [Plain, hc.1, hc.2, hd.1, hd.2]

theorem Numeral.plain {cs : List Char} (h : Numeral cs) : Plain cs := by
  cases h with
  | whole hd => exact plain_of_forall rfl rfl hd.2
  | pointed hd hf =>
    have hpoint : Plain ['.'] := by decide
    exact (plain_of_forall rfl rfl hd.2).append (hpoint.append (plain_of_forall rfl rfl hf.2))

theorem IsName.plain {cs : List Char} (h : IsName cs) : Plain cs := by
  obtain ⟨⟨c, w, rfl, hc, hw⟩, -⟩ := h
  have hstart : ∀ d ∈ [c], isWordStart d := by simpa using hc
  exact (plain_of_forall rfl rfl hstart).append (plain_of_forall rfl rfl hw)

theorem TokenKind.plain_spelling {k : TokenKind} {cs : List Char} (h : k.spelling? = some cs) :
    Plain cs := by
  cases k <;> cases h <;> decide

/-- A lexeme with a newline is a run of newlines. -/
theorem plain_of_tail {c : Char} {cs tail : List Char} {k : TokenKind}
    (h : tail? c cs = some (k, tail)) (hk : k ≠ .newline) : Plain (c :: tail) := by
  rcases tail_spelling h with rfl | rfl | rfl | hs
  · exact (numeral_of_tail h).plain
  · exact (isName_of_tail h).plain
  · exact absurd rfl hk
  · exact TokenKind.plain_spelling hs

theorem newlines_of_tail {c : Char} {cs tail : List Char} (h : tail? c cs = some (.newline, tail)) :
    ∀ d ∈ c :: tail, d = '\n' := by
  rcases tail_cases h with ⟨-, hk, -⟩ | ⟨-, hk, -⟩ | ⟨rfl, -, rfl⟩ | h
  · cases hk
  · rcases wordKind_cases (c :: tail) with ⟨h, -⟩ | h <;> rw [← hk] at h <;> cases h
  · intro d hd
    rcases List.mem_cons.mp hd with hd | hd
    · exact hd
    · simpa using List.mem_takeWhile_imp hd
  · cases (spelling_of_operator h).1

namespace Cursor

/-- The cursor after a number of calls. -/
def after (text : String) : Nat → Cursor
  | 0 => ofText text
  | n + 1 => (after text n).next.2

/-- What a call gives; they are counted from zero. -/
def call (text : String) (n : Nat) : Outcome := (after text n).next.1

/-- The text that a call skips. -/
def gap (text : String) (n : Nat) : List Char :=
  text.toList.extract (after text n).current (after text (n + 1)).start

/-- The text that a call takes. -/
def span (text : String) (n : Nat) : List Char :=
  text.toList.extract (after text (n + 1)).start (after text (n + 1)).current

/-- The cursor behind a span that ends at a line and a column. -/
def behind (s : Cursor) (span : List Char) (place : Nat × Nat) (rest : List Char) : Cursor :=
  ⟨s.start, s.current + span.length, place.1, place.2, rest⟩

/-- What a call can take where no gap is left, what it gives, and the cursor behind it. -/
inductive Takes (s : Cursor) : List Char → Outcome → Cursor → Prop where
  | ended : s.rest = [] → Takes s [] (.ok ⟨.endOfText, "", s.line, s.col⟩) s
  | newlines {span rest : List Char} : s.rest = span ++ rest → span ≠ [] → (∀ c ∈ span, c = '\n') →
      Takes s span (.ok ⟨.newline, String.ofList span, s.line + span.length, 0⟩)
        (s.behind span (s.line + span.length, 0) rest)
  | lexeme {span rest : List Char} {k : TokenKind} : s.rest = span ++ rest → span ≠ [] →
      k ≠ .endOfText → k ≠ .string → Plain span →
      Takes s span (.ok ⟨k, String.ofList span, s.line, s.col + span.length⟩)
        (s.behind span (s.line, s.col + span.length) rest)
  | unknown {c : Char} {rest : List Char} : s.rest = c :: rest → c ≠ '\n' →
      Takes s [c] (.error ⟨.unrecognizedCharacter c.toString, s.line, s.col + 1⟩)
        (s.behind [c] (s.line, s.col + 1) rest)
  | unended {body : List Char} {place : Nat × Nat} : s.rest = '"' :: body →
      endOfQuoted body (s.line, s.col + 1) = place →
      Takes s ('"' :: body) (.error ⟨.unterminatedString, place.1, place.2⟩)
        (s.behind ('"' :: body) place [])
  | badEscape {body rest : List Char} {place : Nat × Nat} {c : Char} {l k : Nat} :
      s.rest = '"' :: body ++ '"' :: rest → endOfQuoted body (s.line, s.col + 1) = place →
      badEscape? body (s.line, s.col + 1) = some (c, l, k) →
      Takes s ('"' :: body ++ ['"']) (.error ⟨.unrecognizedEscape c.toString, l, k⟩)
        (s.behind ('"' :: body ++ ['"']) (place.1, place.2 + 1) rest)
  | text {body rest : List Char} {place : Nat × Nat} :
      s.rest = '"' :: body ++ '"' :: rest → endOfQuoted body (s.line, s.col + 1) = place →
      badEscape? body (s.line, s.col + 1) = none →
      Takes s ('"' :: body ++ ['"'])
        (.ok ⟨.string, String.ofList (unescape body), place.1, place.2 + 1⟩)
        (s.behind ('"' :: body ++ ['"']) (place.1, place.2 + 1) rest)

theorem takes_quoted {s : Cursor} {cs : List Char} (h : s.rest = '"' :: cs) :
    ∃ span, s.Takes span (s.quoted cs).1 (s.quoted cs).2 := by
  have happ := splitQuoted_append cs
  have hcases := splitQuoted_cases cs
  unfold quoted
  rcases hq : splitQuoted cs with ⟨body, rest⟩
  rw [hq] at happ hcases
  rcases hcases with rfl | ⟨rest, rfl⟩
  · obtain rfl : body = cs := by simpa using happ
    have ht := Takes.unended h rfl
    rw [behind, List.length_cons, Nat.add_comm body.length 1, ← Nat.add_assoc] at ht
    exact ⟨_, ht⟩
  · have hs : s.rest = '"' :: body ++ '"' :: rest := by rw [h, ← happ]; rfl
    have hlen : ('"' :: body ++ ['"']).length = body.length + 2 := by simp
    dsimp only
    rcases hb : badEscape? body (s.line, s.col + 1) with _ | ⟨c, l, k⟩
    · have ht := Takes.text hs rfl hb
      rw [behind, hlen, ← Nat.add_assoc] at ht
      exact ⟨_, ht⟩
    · have ht := Takes.badEscape hs rfl hb
      rw [behind, hlen, ← Nat.add_assoc] at ht
      exact ⟨_, ht⟩

theorem takes_token (s : Cursor) : ∃ span, s.Takes span s.token.1 s.token.2 := by
  unfold token
  rcases h : s.rest with _ | ⟨c, cs⟩
  · exact ⟨[], .ended h⟩
  · dsimp only
    split
    · next hc => exact takes_quoted (hc ▸ h)
    · split
      · next k tail ht =>
        obtain ⟨rest, rfl⟩ := tail_isPrefix ht
        have hrest : s.rest.drop (tail.length + 1) = rest := by rw [h]; simp
        refine ⟨c :: tail, ?_⟩
        by_cases hk : k = .newline
        · subst hk
          rw [if_pos rfl, skipNewlines, hrest]
          exact .newlines h (List.cons_ne_nil _ _) (newlines_of_tail ht)
        · rw [if_neg hk, skip, hrest]
          have hne := tail_kind_ne ht
          exact .lexeme h (List.cons_ne_nil _ _) hne.1 hne.2.1 (plain_of_tail ht hk)
      · next ht =>
        have hc : c ≠ '\n' := by
          rintro rfl
          cases ht
        refine ⟨[c], ?_⟩
        rw [skip, h]
        exact .unknown h hc

section
variable {s v : Cursor} {span : List Char} {o : Outcome}

theorem Takes.rest (h : s.Takes span o v) : s.rest = span ++ v.rest := by
  cases h with
  | ended hs => exact hs.trans hs.symm
  | newlines hs _ _ => exact hs
  | lexeme hs _ _ _ _ => exact hs
  | unknown hs _ => exact hs
  | unended hs _ => simpa [behind] using hs
  | badEscape hs _ _ => simpa [behind] using hs
  | text hs _ _ => simpa [behind] using hs

theorem Takes.start (h : s.Takes span o v) : v.start = s.start := by
  cases h <;> rfl

theorem Takes.current (h : s.Takes span o v) : v.current = s.current + span.length := by
  cases h <;> rfl

/-- Nothing is left where nothing is taken. -/
theorem Takes.ne_nil (h : s.Takes span o v) (ho : o.isEnd = false) : span ≠ [] := by
  cases h with
  | ended _ => cases ho
  | newlines _ hne _ => exact hne
  | lexeme _ hne _ _ _ => exact hne
  | unknown _ _ => exact List.cons_ne_nil _ _
  | unended _ _ => exact List.cons_ne_nil _ _
  | badEscape _ _ _ => simp
  | text _ _ _ => simp

theorem Takes.of_isEnd (h : s.Takes span o v) (ho : o.isEnd = true) :
    s.rest = [] ∧ o = .ok ⟨.endOfText, "", s.line, s.col⟩ ∧ v = s := by
  cases h with
  | ended hs => exact ⟨hs, rfl, rfl⟩
  | newlines _ _ _ => cases ho
  | lexeme _ _ he _ _ => exact absurd (of_decide_eq_true ho) he
  | unknown _ _ => cases ho
  | unended _ _ => cases ho
  | badEscape _ _ _ => cases ho
  | text _ _ _ => cases ho

end

/-- A cursor in a text: what it has read and what is left make up the text. -/
def Stands (text : String) (s : Cursor) : Prop :=
  ∃ read, text.toList = read ++ s.rest ∧ s.current = read.length

theorem rest_skipGap (s : Cursor) : s.rest = (splitGap false s.rest).1 ++ s.skipGap.rest :=
  (splitGap_append false s.rest).symm

theorem Stands.skipGap {text : String} {s : Cursor} (h : Stands text s) : Stands text s.skipGap := by
  obtain ⟨read, ht, hc⟩ := h
  refine ⟨read ++ (splitGap false s.rest).1, ?_, ?_⟩
  · rw [List.append_assoc, ← rest_skipGap, ht]
  · rw [List.length_append, ← hc]
    rfl

theorem Stands.takes {text : String} {s v : Cursor} {span : List Char} {o : Outcome}
    (h : Stands text s) (ht : s.Takes span o v) : Stands text v := by
  obtain ⟨read, htext, hc⟩ := h
  refine ⟨read ++ span, ?_, ?_⟩
  · rw [List.append_assoc, ← ht.rest, htext]
  · rw [List.length_append, ← hc, ht.current]

theorem stands_after (text : String) (n : Nat) : Stands text (after text n) := by
  induction n with
  | zero => exact ⟨[], rfl, rfl⟩
  | succ n ih =>
    obtain ⟨span, h⟩ := takes_token (after text n).skipGap
    exact ih.skipGap.takes h

theorem Stands.rest_eq {text : String} {s : Cursor} (h : Stands text s) :
    s.rest = text.toList.drop s.current ∧ s.current ≤ text.length := by
  obtain ⟨read, ht, hc⟩ := h
  rw [← String.length_toList, ht, hc]
  simp

theorem Stands.take_add {text : String} {s : Cursor} (h : Stands text s) {mid rest : List Char}
    (hs : s.rest = mid ++ rest) :
    text.toList.take (s.current + mid.length) = text.toList.take s.current ++ mid := by
  obtain ⟨read, ht, hc⟩ := h
  rw [ht, hs, hc, List.take_length_add_append, List.take_left, List.take_left]

/-- What stands between two places of a text. -/
theorem Stands.extract {text : String} {s : Cursor} (h : Stands text s) {mid rest : List Char}
    (hs : s.rest = mid ++ rest) :
    text.toList.extract s.current (s.current + mid.length) = mid := by
  obtain ⟨read, ht, hc⟩ := h
  rw [ht, hs, hc]
  simp

theorem gap_eq (text : String) (n : Nat) : gap text n = (splitGap false (after text n).rest).1 := by
  obtain ⟨span, h⟩ := takes_token (after text n).skipGap
  have hstart : (after text (n + 1)).start =
      (after text n).current + (splitGap false (after text n).rest).1.length := h.start
  rw [gap, hstart, (stands_after text n).extract (rest_skipGap _)]

/-- Every call skips its gap and takes its span. -/
theorem takes_call (text : String) (n : Nat) :
    (after text n).skipGap.Takes (span text n) (call text n) (after text (n + 1)) := by
  obtain ⟨taken, h⟩ := takes_token (after text n).skipGap
  have hstart : (after text (n + 1)).start = (after text n).skipGap.current := h.start
  have hcurrent : (after text (n + 1)).current =
      (after text n).skipGap.current + taken.length := h.current
  have hspan : span text n = taken := by
    rw [span, hstart, hcurrent, (stands_after text n).skipGap.extract h.rest]
  rw [hspan]
  exact h

theorem start_after (text : String) (n : Nat) :
    (after text (n + 1)).start = (after text n).current + (gap text n).length := by
  rw [(takes_call text n).start, gap_eq]
  rfl

theorem current_after (text : String) (n : Nat) :
    (after text (n + 1)).current = (after text (n + 1)).start + (span text n).length := by
  rw [(takes_call text n).current, (takes_call text n).start]
  rfl

theorem rest_after (text : String) (n : Nat) :
    (after text n).rest = gap text n ++ span text n ++ (after text (n + 1)).rest := by
  rw [List.append_assoc, ← (takes_call text n).rest, gap_eq, ← rest_skipGap]

/-- What a call takes is cut from the text behind its gap. -/
theorem cutToken_call (text : String) (n : Nat) :
    cutToken (span text n ++ (after text (n + 1)).rest) =
      ((call text n).bare, (after text (n + 1)).rest) := by
  rw [← (takes_call text n).rest]
  exact (bare_token (after text n).skipGap).symm

end Cursor
end ArrowLang
