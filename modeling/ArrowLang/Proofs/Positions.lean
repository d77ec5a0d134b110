import ArrowLang.Proofs.Tiling
import Mathlib.Data.List.DropRight
import Mathlib.Data.Prod.Lex

/-!
# Lines and columns

A cursor counts lines and columns by hand. It stands where the text that it has read ends, except
that a newline behind a backslash in a string begins no line.
-/
namespace ArrowLang

open Lexeme

/-- Line and column behind characters that begin at a line and a column. -/
def moved (place : Nat × Nat) (cs : List Char) : Nat × Nat :=
  cs.foldl (fun p c => if c = '\n' then (p.1 + 1, 0) else (p.1, p.2 + 1)) place

@[simp] theorem moved_nil (p : Nat × Nat) : moved p [] = p := rfl

@[simp] theorem moved_cons (p : Nat × Nat) (c : Char) (cs : List Char) :
    moved p (c :: cs) = moved (if c = '\n' then (p.1 + 1, 0) else (p.1, p.2 + 1)) cs := rfl

theorem moved_append (p : Nat × Nat) (cs ds : List Char) :
    moved p (cs ++ ds) = moved (moved p cs) ds :=
  List.foldl_append

theorem moved_line (p : Nat × Nat) (cs : List Char) : (moved p cs).1 = p.1 + cs.count '\n' := by
  induction cs generalizing p with
  | nil => rfl
  | cons c cs ih =>
    rw [moved_cons, ih, List.count_cons]
    by_cases hc : c = '\n'
    · simp [hc]
      omega
    · simp [hc]

theorem moved_of_not_mem {cs : List Char} (h : '\n' ∉ cs) (p : Nat × Nat) :
    moved p cs = (p.1, p.2 + cs.length) := by
  induction cs generalizing p with
  | nil => rfl
  | cons c cs ih =>
    obtain ⟨hc, hcs⟩ := not_or.mp (List.mem_cons.not.mp h)
    rw [moved_cons, if_neg (Ne.symm hc), ih hcs, List.length_cons]
    simp
    omega

theorem moved_newlines {cs : List Char} (h : ∀ c ∈ cs, c = '\n') (hne : cs ≠ []) (p : Nat × Nat) :
    moved p cs = (p.1 + cs.length, 0) := by
  obtain ⟨c, cs, rfl⟩ := List.exists_cons_of_ne_nil hne
  induction cs generalizing c p with
  | nil => simp [h c]
  | cons d cs ih =>
    have hd := ih (p.1 + 1, 0) d (fun e he => h e (List.mem_cons_of_mem c he)) (List.cons_ne_nil d cs)
    rw [moved_cons, if_pos (h c List.mem_cons_self), hd]
    simp only [List.length_cons, Prod.mk.injEq, and_true]
    omega

/-- The line counts the newlines, the column what stands behind the last of them. -/
theorem moved_start (cs : List Char) :
    moved (1, 0) cs = (1 + cs.count '\n', (cs.rtakeWhile (· ≠ '\n')).length) := by
  induction cs using List.reverseRecOn with
  | nil => rfl
  | append_singleton cs c ih =>
    rw [moved_append, ih]
    by_cases hc : c = '\n'
    · subst hc
      rw [List.rtakeWhile_concat_neg _ _ _ (by simp)]
      simp
      omega
    · rw [List.rtakeWhile_concat_pos _ _ _ (by simpa using hc)]
      simp [hc]

theorem moved_pair {d : Char} (hd : d ≠ '\n') (p : Nat × Nat) (cs : List Char) :
    moved p ('\\' :: d :: cs) = moved (p.1, p.2 + 2) cs := by
  rw [moved_cons, if_neg (by decide : '\\' ≠ '\n'), moved_cons, if_neg hd]

/-- How many newlines stand right behind a backslash that no backslash escapes. -/
def escapedNewlines : List Char → Nat
  | [] => 0
  | '\\' :: c :: cs => (if c = '\n' then 1 else 0) + escapedNewlines cs
  | _ :: cs => escapedNewlines cs

theorem escapedNewlines_of_not_mem {cs : List Char} (h : '\\' ∉ cs) : escapedNewlines cs = 0 := by
  fun_induction escapedNewlines cs with
  | case1 => rfl
  | case2 c cs ih => simp at h
  | case3 c cs _ ih => exact ih fun hm => h (List.mem_cons_of_mem c hm)

theorem escapedNewlines_cons {c : Char} (h : c ≠ '\\') (cs : List Char) :
    escapedNewlines (c :: cs) = escapedNewlines cs := by
  rw [escapedNewlines]
  intro d t hc
  exact absurd hc h

/-- The closing quote is no newline, even if it stands behind a backslash. -/
theorem escapedNewlines_quote (cs : List Char) :
    escapedNewlines (cs ++ ['"']) = escapedNewlines cs := by
  fun_induction escapedNewlines cs with
  | case1 => rfl
  | case2 c cs ih => rw [List.cons_append, List.cons_append, escapedNewlines, ih]
  | case3 c cs h ih =>
    by_cases hc : c = '\\'
    · subst hc
      cases cs with
      | nil => rfl
      | cons d cs => exact (h d cs rfl rfl).elim
    · rw [List.cons_append, escapedNewlines_cons hc, ih]

theorem escapedNewlines_le (cs : List Char) : escapedNewlines cs ≤ cs.count '\n' := by
  fun_induction escapedNewlines cs with
  | case1 => simp
  | case2 c cs ih =>
    rw [List.count_cons_of_ne (by decide), List.count_cons]
    by_cases hc : c = '\n'
    · simp only [hc, if_true, beq_self_eq_true]
      omega
    · simp only [hc, if_false, beq_iff_eq]
      omega
  | case3 c cs _ ih => exact ih.trans (List.count_le_count_cons)

/-- A character that neither ends a body nor is followed by what it escapes is no backslash. -/
theorem ne_backslash {c : Char} {cs : List Char} (h : c = '\\' → cs = [] → False)
    (h' : ∀ d t, c = '\\' → cs = d :: t → False) : c ≠ '\\' := by
  intro hc
  cases cs with
  | nil => exact h hc rfl
  | cons d t => exact h' d t hc rfl

theorem endOfQuoted_line (cs : List Char) (p : Nat × Nat) :
    (endOfQuoted cs p).1 + escapedNewlines cs = p.1 + cs.count '\n' := by
  fun_induction endOfQuoted cs p with
  | case1 => rfl
  | case2 => rfl
  | case3 d cs line col ih =>
    rw [escapedNewlines, List.count_cons_of_ne (by decide), List.count_cons]
    by_cases hd : d = '\n'
    · simp only [hd, if_true, beq_self_eq_true]
      omega
    · simp only [hd, if_false, beq_iff_eq]
      omega
  | case4 c cs line col h h' ih =>
    rw [escapedNewlines_cons (ne_backslash h h'), ih, List.count_cons]
    by_cases hc : c = '\n'
    · simp only [hc, if_true, beq_self_eq_true]
      omega
    · simp [hc]

theorem endOfQuoted_eq_moved {cs : List Char} (h : escapedNewlines cs = 0) (p : Nat × Nat) :
    endOfQuoted cs p = moved p cs := by
  fun_induction endOfQuoted cs p with
  | case1 => rfl
  | case2 => rfl
  | case3 d cs line col ih =>
    rw [escapedNewlines] at h
    have hd : d ≠ '\n' := by
      rintro rfl
      simp at h
    rw [ih (by omega), moved_pair hd]
  | case4 c cs line col hc hc' ih =>
    rw [escapedNewlines_cons (ne_backslash hc hc')] at h
    rw [ih h, moved_cons]

/-- The first bad escape: what stands in front of it escapes no newline. -/
theorem badEscape_spec {cs : List Char} {p : Nat × Nat} {c : Char} {l k : Nat}
    (h : badEscape? cs p = some (c, l, k)) : ∃ pre post, cs = pre ++ '\\' :: c :: post ∧
      escapedNewlines (pre ++ ['\\', c]) = (if c = '\n' then 1 else 0) ∧
      (l, k) = ((moved p pre).1, (moved p pre).2 + 2) := by
  fun_induction badEscape? cs p with
  | case1 => cases h
  | case2 => cases h
  | case3 d cs line col hd ih =>
    obtain ⟨pre, post, rfl, he, hp⟩ := ih h
    have hn : d ≠ '\n' := by
      rintro rfl
      cases hd
    refine ⟨'\\' :: d :: pre, post, rfl, ?_, ?_⟩
    · rw [List.cons_append, List.cons_append, escapedNewlines, he, if_neg hn, Nat.zero_add]
    · rw [hp, moved_pair hn]
  | case4 d cs line col hd =>
    obtain ⟨rfl, rfl, rfl⟩ := by simpa using h
    exact ⟨[], cs, rfl, rfl, rfl⟩
  | case5 d cs line col hd hd' ih =>
    obtain ⟨pre, post, rfl, he, hp⟩ := ih h
    refine ⟨d :: pre, post, rfl, ?_, ?_⟩
    · rw [List.cons_append, escapedNewlines_cons (ne_backslash hd hd'), he]
    · rw [hp, moved_cons]

/-- Line and column of what a call gives. -/
def Outcome.place : Outcome → Nat × Nat
  | .ok t => (t.line, t.col)
  | .error e => (e.line, e.col)

namespace Cursor

def place (s : Cursor) : Nat × Nat := (s.line, s.col)

theorem place_ofText (text : String) : (ofText text).place = (1, 0) := rfl

/-- A gap is on one line. -/
theorem newline_not_mem_gap (cs : List Char) : '\n' ∉ (splitGap false cs).1 := by
  obtain ⟨blanks, comment, hgap, hblanks, hcomment⟩ := isGap_splitGap cs
  rw [hgap, List.mem_append, not_or]
  constructor
  · intro h
    have hc := hblanks _ h
    simp at hc
  · rcases hcomment with rfl | ⟨words, rfl, hwords, -⟩
    · simp
    · simpa using hwords

theorem place_skipGap (s : Cursor) : s.skipGap.place = moved s.place (splitGap false s.rest).1 := by
  rw [moved_of_not_mem (newline_not_mem_gap s.rest)]
  rfl

/-- A place behind a span: the line misses the newlines behind a backslash, and where there are none
of these, the place is right. -/
def Behind (s : Cursor) (span : List Char) (place : Nat × Nat) : Prop :=
  place.1 + escapedNewlines span = s.line + span.count '\n' ∧
    (escapedNewlines span = 0 → place = moved s.place span)

section
variable {s v : Cursor} {span : List Char} {o : Outcome}

theorem Behind.line_le {place : Nat × Nat} (h : s.Behind span place) : s.line ≤ place.1 := by
  have hle := escapedNewlines_le span
  have heq := h.1
  omega

theorem behind_moved (s : Cursor) (h : escapedNewlines span = 0) : s.Behind span (moved s.place span) :=
  ⟨by rw [h, moved_line]; rfl, fun _ => rfl⟩

theorem behind_unended (s : Cursor) (body : List Char) :
    s.Behind ('"' :: body) (endOfQuoted body (s.line, s.col + 1)) := by
  have he : escapedNewlines ('"' :: body) = escapedNewlines body :=
    escapedNewlines_cons (by decide) body
  constructor
  · rw [he, endOfQuoted_line, List.count_cons_of_ne (by decide)]
  · intro h
    rw [endOfQuoted_eq_moved (he ▸ h)]
    rfl

theorem behind_quoted {body : List Char} {place : Nat × Nat} (s : Cursor)
    (h : endOfQuoted body (s.line, s.col + 1) = place) :
    s.Behind ('"' :: body ++ ['"']) (place.1, place.2 + 1) := by
  obtain ⟨hline, hmoved⟩ := s.behind_unended body
  rw [h] at hline hmoved
  constructor
  · rw [escapedNewlines_quote, List.count_append]
    simpa using hline
  · intro he
    rw [escapedNewlines_quote] at he
    rw [moved_append, ← hmoved he]
    rfl

theorem Takes.behind (h : s.Takes span o v) : s.Behind span v.place := by
  cases h with
  | ended _ => exact s.behind_moved rfl
  | @newlines _ rest _ hne hn =>
    have he : escapedNewlines span = 0 := by
      apply escapedNewlines_of_not_mem
      intro h
      have := hn _ h
      simp at this
    have hb := s.behind_moved he
    rwa [moved_newlines hn hne] at hb
  | lexeme _ _ _ _ hp =>
    have hb := s.behind_moved (escapedNewlines_of_not_mem hp.2)
    rwa [moved_of_not_mem hp.1] at hb
  | @unknown c rest _ hc =>
    have he : escapedNewlines [c] = 0 := by
      rw [escapedNewlines]
      · rfl
      · simp
    have hb := s.behind_moved he
    rwa [moved_of_not_mem (by simpa using Ne.symm hc)] at hb
  | unended _ hp =>
    subst hp
    exact s.behind_unended _
  | badEscape _ hp _ => exact s.behind_quoted hp
  | text _ hp _ => exact s.behind_quoted hp

/-- A token ends where its span ends. -/
theorem Takes.place_eq {t : Token} (h : s.Takes span (.ok t) v) : (t.line, t.col) = v.place := by
  cases h <;> rfl

/-- Where the thing that a call gives ends in what the call takes: at the end of it, or right behind
a bad escape. -/
inductive Shows : Outcome → List Char → List Char → Prop where
  | whole {o : Outcome} {span : List Char} :
      (∀ e x, o = .error e → e.fault ≠ .unrecognizedEscape x) → Shows o span span
  | escape {e : LexicalError} {c : Char} {pre rest : List Char} :
      e.fault = .unrecognizedEscape c.toString →
      Shows (.error e) (pre ++ ['\\', c] ++ rest) (pre ++ ['\\', c])

theorem Shows.span_eq {shown : List Char} (h : Shows o span shown) : ∃ rest, span = shown ++ rest := by
  cases h with
  | whole _ => exact ⟨[], (List.append_nil _).symm⟩
  | escape _ => exact ⟨_, rfl⟩

theorem Takes.shows (h : s.Takes span o v) : ∃ shown, Shows o span shown ∧ s.Behind shown o.place := by
  have hb := h.behind
  cases h with
  | ended _ => exact ⟨_, .whole nofun, hb⟩
  | newlines _ _ _ => exact ⟨_, .whole nofun, hb⟩
  | lexeme _ _ _ _ _ => exact ⟨_, .whole nofun, hb⟩
  | unknown _ _ =>
    refine ⟨_, .whole ?_, hb⟩
    rintro e x ⟨⟩
    simp
  | unended _ _ =>
    refine ⟨_, .whole ?_, hb⟩
    rintro e x ⟨⟩
    simp
  | text _ _ _ => exact ⟨_, .whole nofun, hb⟩
  | @badEscape body rest place c l k _ _ hbad =>
    obtain ⟨pre, post, rfl, he, hp⟩ := badEscape_spec hbad
    have hspan : '"' :: (pre ++ '\\' :: c :: post) ++ ['"'] =
        ('"' :: pre) ++ ['\\', c] ++ (post ++ ['"']) := by simp
    refine ⟨'"' :: pre ++ ['\\', c], hspan ▸ .escape rfl, ?_⟩
    have hshown : escapedNewlines ('"' :: pre ++ ['\\', c]) = if c = '\n' then 1 else 0 := by
      rw [List.cons_append, escapedNewlines_cons (by decide), he]
    have hplace : Outcome.place (.error ⟨.unrecognizedEscape c.toString, l, k⟩) = (l, k) := rfl
    rw [Behind, hshown, hplace, hp]
    constructor
    · rw [moved_line]
      by_cases hc : c = '\n'
      · simp [hc]
        omega
      · simp [hc]
    · intro hc
      have hc : c ≠ '\n' := by simpa using hc
      rw [moved_append, moved_pair hc]
      rfl

end

section
variable {s v : Cursor} {span : List Char} {o : Outcome}

theorem le_endOfQuoted (body : List Char) (p : Nat × Nat) :
    toLex p ≤ toLex (endOfQuoted body p) := by
  fun_induction endOfQuoted body p with
  | case1 p => exact le_rfl
  | case2 line col => exact Prod.Lex.toLex_le_toLex.mpr (.inr ⟨rfl, Nat.le_succ col⟩)
  | case3 c cs line col ih =>
    have hle : toLex (line, col) ≤ toLex (line, col + 2) :=
      Prod.Lex.toLex_le_toLex.mpr (.inr ⟨rfl, Nat.le_add_right col 2⟩)
    exact hle.trans ih
  | case4 c cs line col _ _ ih =>
    refine le_trans (Prod.Lex.toLex_le_toLex.mpr ?_) ih
    split
    · exact .inl (Nat.lt_succ_self line)
    · exact .inr ⟨rfl, Nat.le_succ col⟩

theorem place_lt_of_col {n : Nat} (hn : 0 < n) (s : Cursor) :
    toLex s.place < toLex (s.line, s.col + n) :=
  Prod.Lex.toLex_lt_toLex.mpr (.inr ⟨rfl, Nat.lt_add_of_pos_right hn⟩)

theorem place_lt_endOfQuoted {body : List Char} {place : Nat × Nat}
    (h : endOfQuoted body (s.line, s.col + 1) = place) : toLex s.place < toLex place :=
  lt_of_lt_of_le (s.place_lt_of_col Nat.one_pos) (h ▸ le_endOfQuoted body _)

/-- What is taken ends behind the place at which it begins. -/
theorem Takes.place_lt (h : s.Takes span o v) (ho : o.isEnd = false) :
    toLex s.place < toLex v.place := by
  have hclose : ∀ place : Nat × Nat, toLex place < toLex (place.1, place.2 + 1) :=
    fun place => Prod.Lex.toLex_lt_toLex.mpr (.inr ⟨rfl, Nat.lt_succ_self _⟩)
  cases h with
  | ended _ => cases ho
  | newlines _ hne _ =>
    exact Prod.Lex.toLex_lt_toLex.mpr (.inl (Nat.lt_add_of_pos_right (List.length_pos_iff.mpr hne)))
  | lexeme _ hne _ _ _ => exact s.place_lt_of_col (List.length_pos_iff.mpr hne)
  | unknown _ _ => exact s.place_lt_of_col Nat.one_pos
  | unended _ hp => exact place_lt_endOfQuoted hp
  | badEscape _ hp _ => exact (place_lt_endOfQuoted hp).trans (hclose _)
  | text _ hp _ => exact (place_lt_endOfQuoted hp).trans (hclose _)

end

theorem place_after_le (text : String) (n : Nat) :
    toLex (after text n).place ≤ toLex (after text n).skipGap.place :=
  Prod.Lex.toLex_le_toLex.mpr (.inr ⟨rfl, Nat.le_add_right _ _⟩)

theorem place_after_lt {text : String} {m n : Nat} (hmn : m < n) (h : ∀ i < n, (call text i).isEnd = false) :
    toLex (after text m).place < toLex (after text n).place := by
  induction n, hmn using Nat.le_induction with
  | base =>
    have htakes := (takes_call text m).place_lt (h m (Nat.lt_succ_self m))
    exact lt_of_le_of_lt (place_after_le text m) htakes
  | succ n _ ih =>
    have htakes := (takes_call text n).place_lt (h n (Nat.lt_succ_self n))
    exact (ih fun i hi => h i (by omega)).trans (lt_of_le_of_lt (place_after_le text n) htakes)

/-- Two calls up to the end give different tokens. -/
theorem call_ne {text : String} {k m n : Nat} (hk : ∀ i < k, (call text i).isEnd = false) (hmn : m < n) (hn : n ≤ k)
    {t u : Token} (ht : call text m = .ok t) (hu : call text n = .ok u) : t ≠ u := by
  rintro rfl
  have he : (call text n).isEnd = false := by rw [hu, ← ht, hk m (by omega)]
  have hall : ∀ i < n + 1, (call text i).isEnd = false := by
    intro i hi
    rcases Nat.lt_succ_iff_lt_or_eq.mp hi with hi | rfl
    · exact hk i (by omega)
    · exact he
  have hlt := place_after_lt (Nat.succ_lt_succ hmn) hall
  have hm := takes_call text m
  have hn := takes_call text n
  rw [ht] at hm
  rw [hu] at hn
  rw [← hm.place_eq, ← hn.place_eq] at hlt
  exact lt_irrefl _ hlt

/-- How many newlines the strings of the first calls hold behind a backslash. -/
def uncounted (text : String) : Nat → Nat
  | 0 => 0
  | n + 1 => uncounted text n + escapedNewlines (span text n)

theorem uncounted_eq_zero {text : String} {n : Nat} :
    uncounted text n = 0 ↔ ∀ i < n, escapedNewlines (span text i) = 0 := by
  induction n with
  | zero => simp [uncounted]
  | succ n ih => rw [uncounted, Nat.add_eq_zero_iff, ih, Nat.forall_lt_succ_right]

/-- The text up to a place in what a call takes. -/
theorem take_shown {text : String} {n : Nat} {shown rest : List Char}
    (h : span text n = shown ++ rest) :
    text.toList.take ((after text (n + 1)).start + shown.length) =
      text.toList.take (after text n).current ++ gap text n ++ shown := by
  have hrest : (after text n).rest = (gap text n ++ shown) ++ (rest ++ (after text (n + 1)).rest) := by
    rw [rest_after, h]
    simp
  rw [start_after, Nat.add_assoc, ← List.length_append, (stands_after text n).take_add hrest,
    List.append_assoc]

/-- A place that ends a part of the text, up to the newlines that were missed before. -/
def Follows (text : String) (missed : Nat) (place : Nat × Nat) (stop : Nat) : Prop :=
  place.1 + missed = 1 + (text.toList.take stop).count '\n' ∧
    (missed = 0 → place = moved (1, 0) (text.toList.take stop))

/-- The place at which something stands that a call takes. -/
theorem follows_shown {text : String} {n : Nat} {shown rest : List Char} {place : Nat × Nat}
    (hn : Follows text (uncounted text n) (after text n).place (after text n).current)
    (h : span text n = shown ++ rest) (hb : (after text n).skipGap.Behind shown place) :
    Follows text (uncounted text n + escapedNewlines shown) place
      ((after text (n + 1)).start + shown.length) := by
  have hgap := place_skipGap (after text n)
  rw [← gap_eq] at hgap
  have hnone : '\n' ∉ gap text n := gap_eq text n ▸ newline_not_mem_gap _
  have hline : (after text n).skipGap.line = (after text n).line := rfl
  rw [Follows, take_shown h]
  constructor
  · have h₁ := hn.1
    have h₂ := hb.1
    rw [List.count_append, List.count_append, List.count_eq_zero_of_not_mem hnone]
    change (after text n).line + _ = _ at h₁
    omega
  · intro h0
    rw [hb.2 (by omega), hgap, hn.2 (by omega), moved_append, moved_append]

theorem follows_after (text : String) (n : Nat) :
    Follows text (uncounted text n) (after text n).place (after text n).current := by
  induction n with
  | zero => exact ⟨rfl, fun _ => rfl⟩
  | succ n ih =>
    have hf := follows_shown ih (List.append_nil _).symm (takes_call text n).behind
    rwa [← current_after] at hf

/-- The line counts the newlines up to a place of the text, the column the characters behind the
last of them. -/
def Right (text : String) (place : Nat × Nat) (stop : Nat) : Prop :=
  place.1 = 1 + (text.toList.take stop).count '\n' ∧
    place.2 = ((text.toList.take stop).rtakeWhile (· ≠ '\n')).length

theorem Follows.right_iff {text : String} {missed stop : Nat} {place : Nat × Nat}
    (h : Follows text missed place stop) : Right text place stop ↔ missed = 0 := by
  constructor
  · intro hr
    have h₁ := h.1
    have h₂ := hr.1
    omega
  · intro h0
    rw [h.2 h0, moved_start]
    exact ⟨rfl, rfl⟩

/-- The cursor is where the text that was read ends if and only if no string before it has a newline
behind a backslash; and so is what the next call gives, a token or an error. -/
theorem place_right_iff (text : String) (n : Nat) :
    (Right text (after text n).place (after text n).current ↔
      ∀ i < n, escapedNewlines (span text i) = 0) ∧
    ∃ shown, Shows (call text n) (span text n) shown ∧
      (Right text (call text n).place ((after text (n + 1)).start + shown.length) ↔
        (∀ i < n, escapedNewlines (span text i) = 0) ∧ escapedNewlines shown = 0) := by
  have hn := follows_after text n
  obtain ⟨shown, hs, hb⟩ := (takes_call text n).shows
  obtain ⟨rest, hrest⟩ := hs.span_eq
  refine ⟨by rw [hn.right_iff, uncounted_eq_zero], shown, hs, ?_⟩
  rw [(follows_shown hn hrest hb).right_iff, Nat.add_eq_zero_iff, uncounted_eq_zero]

/-- A string of a backslash and a newline: the cursor is left on the first line. -/
theorem not_right_behind_escaped_newline :
    ¬ Right "\"\\\n\"" (after "\"\\\n\"" 1).place (after "\"\\\n\"" 1).current := by
  rw [Right]
  decide

end Cursor
end ArrowLang
