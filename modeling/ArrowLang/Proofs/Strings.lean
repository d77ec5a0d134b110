import ArrowLang.Proofs.Pieces
import ArrowLang.Proofs.Positions

/-!
# Where a string ends and what it says

A string goes on to the first quote that no backslash takes, whatever else its backslashes take.
Its closing quote, its first bad escape and the text that its body stands for are told without the
scanner, by the places of characters, and the scanner finds each of them.
-/
namespace ArrowLang

open Lexeme

/-- The character at a place is taken by the backslash in front of it, which none takes itself. -/
def Taken (cs : List Char) : Nat → Prop
  | 0 => False
  | i + 1 => cs[i]? = some '\\' ∧ ¬ Taken cs i

/-- The place of the quote that closes a string whose opening quote stands in front of the text. -/
structure Closes (cs : List Char) (i : Nat) : Prop where
  quote : cs[i]? = some '"'
  free : ¬ Taken cs i
  first : ∀ j < i, cs[j]? = some '"' → Taken cs j

instance decidableTaken (cs : List Char) : (i : Nat) → Decidable (Taken cs i)
  | 0 => .isFalse id
  | i + 1 =>
    have := decidableTaken cs i
    inferInstanceAs (Decidable (_ ∧ ¬ _))

instance (cs : List Char) (i : Nat) : Decidable (Closes cs i) :=
  decidable_of_iff (cs[i]? = some '"' ∧ ¬ Taken cs i ∧ ∀ j < i, cs[j]? = some '"' → Taken cs j)
    ⟨fun h => ⟨h.1, h.2.1, h.2.2⟩, fun h => ⟨h.quote, h.free, h.first⟩⟩

/-- The escapes and the characters that they stand for. -/
def escapes : List (Char × Char) := [('n', '\n'), ('t', '\t'), ('r', '\r'), ('"', '"')]

/-- A backslash takes the character, and the two are no escape. -/
def BadAt (body : List Char) (i : Nat) (c : Char) : Prop :=
  body[i]? = some c ∧ Taken body i ∧ c ∉ escapes.map Prod.fst

/-- The character behind the backslash of the first bad escape. -/
def FirstBad (body : List Char) (c : Char) : Prop :=
  ∃ i, BadAt body i c ∧ ∀ j < i, ∀ d, ¬ BadAt body j d

/-- A body of a string and the text that it stands for. -/
inductive Means : List Char → List Char → Prop where
  | nil : Means [] []
  | plain {c : Char} {body text : List Char} : c ≠ '"' → c ≠ '\\' → Means body text →
      Means (c :: body) (c :: text)
  | escape {e c : Char} {body text : List Char} : (e, c) ∈ escapes → Means body text →
      Means ('\\' :: e :: body) (c :: text)

theorem mem_escapes {e c : Char} : (e, c) ∈ escapes ↔ escape? e = some c := by
  constructor
  · intro h
    simp only [escapes, List.mem_cons, Prod.mk.injEq, List.not_mem_nil, or_false] at h
    rcases h with ⟨rfl, rfl⟩ | ⟨rfl, rfl⟩ | ⟨rfl, rfl⟩ | ⟨rfl, rfl⟩ <;> rfl
  · intro h
    unfold escape? at h
    split at h <;> cases h <;> decide

theorem isSome_escape {e : Char} : (escape? e).isSome ↔ e ∈ escapes.map Prod.fst := by
  simp [Option.isSome_iff_exists, ← mem_escapes]

/-- A first part of a text: a backslash with the character that it takes, or any other character. -/
inductive Part : List Char → Prop where
  | plain {c : Char} : c ≠ '\\' → Part [c]
  | pair (c : Char) : Part ['\\', c]

section
variable {pre cs : List Char} {c : Char} {i : Nat}

theorem taken_part (h : Part pre) (cs : List Char) (i : Nat) :
    Taken (pre ++ cs) (pre.length + i) ↔ Taken cs i := by
  induction i with
  | zero =>
    cases h with
    | plain hc => simp [Taken, hc]
    | pair c => simp [Taken]
  | succ i ih =>
    rw [← Nat.add_assoc, Taken, ih, List.getElem?_append_right (Nat.le_add_right _ _),
      Nat.add_sub_cancel_left, Taken]

theorem getElem_part (pre cs : List Char) (i : Nat) : (pre ++ cs)[pre.length + i]? = cs[i]? := by
  rw [List.getElem?_append_right (Nat.le_add_right _ _), Nat.add_sub_cancel_left]

/-- A quote in a part is taken, unless it is the whole of it. -/
theorem taken_of_quote (h : Part pre) (hq : pre ≠ ['"']) (hi : i < pre.length)
    (hc : (pre ++ cs)[i]? = some '"') : Taken (pre ++ cs) i := by
  cases h with
  | plain =>
    obtain rfl : i = 0 := by simpa using hi
    simp at hc
    exact absurd (congrArg (fun c => [c]) hc) hq
  | pair c =>
    rcases i with _ | _ | i
    · simp at hc
    · exact ⟨rfl, id⟩
    · simp at hi

theorem Closes.unique {j : Nat} (hi : Closes cs i) (hj : Closes cs j) : i = j := by
  rcases Nat.lt_trichotomy i j with h | h | h
  · exact absurd (hj.first i h hi.quote) hi.free
  · exact h
  · exact absurd (hi.first j h hj.quote) hj.free

theorem closes_quote (cs : List Char) : Closes ('"' :: cs) 0 :=
  ⟨rfl, id, fun _ hj => absurd hj (Nat.not_lt_zero _)⟩

/-- What closes the rest behind a part closes the whole. -/
theorem closes_part (h : Part pre) (hq : pre ≠ ['"']) :
    Closes (pre ++ cs) i ↔ ∃ j, i = pre.length + j ∧ Closes cs j := by
  constructor
  · intro hi
    have hle : pre.length ≤ i :=
      Nat.le_of_not_lt fun hlt => hi.free (taken_of_quote h hq hlt hi.quote)
    obtain ⟨j, rfl⟩ := Nat.exists_eq_add_of_le hle
    refine ⟨j, rfl, getElem_part pre cs j ▸ hi.quote, (taken_part h cs j).not.mp hi.free, ?_⟩
    intro k hk hquote
    rw [← getElem_part pre] at hquote
    exact (taken_part h cs k).mp (hi.first _ (Nat.add_lt_add_left hk _) hquote)
  · rintro ⟨j, rfl, hj⟩
    refine ⟨(getElem_part pre cs j).trans hj.quote, (taken_part h cs j).not.mpr hj.free, ?_⟩
    intro k hk hquote
    by_cases hlt : k < pre.length
    · exact taken_of_quote h hq hlt hquote
    · obtain ⟨m, rfl⟩ := Nat.exists_eq_add_of_le (Nat.le_of_not_lt hlt)
      rw [getElem_part] at hquote
      exact (taken_part h cs m).mpr (hj.first m (Nat.lt_of_add_lt_add_left hk) hquote)

theorem badAt_part (h : Part pre) (cs : List Char) (i : Nat) (c : Char) :
    BadAt (pre ++ cs) (pre.length + i) c ↔ BadAt cs i c := by
  rw [BadAt, getElem_part, taken_part h, BadAt]

theorem firstBad_part (h : Part pre) (hgood : ∀ i < pre.length, ∀ d, ¬ BadAt (pre ++ cs) i d) :
    FirstBad (pre ++ cs) c ↔ FirstBad cs c := by
  constructor
  · rintro ⟨i, hi, hfirst⟩
    obtain ⟨j, rfl⟩ := Nat.exists_eq_add_of_le (Nat.le_of_not_lt fun hlt => hgood i hlt c hi)
    refine ⟨j, (badAt_part h cs j c).mp hi, fun k hk d hd => ?_⟩
    exact hfirst _ (Nat.add_lt_add_left hk _) d ((badAt_part h cs k d).mpr hd)
  · rintro ⟨j, hj, hfirst⟩
    refine ⟨_, (badAt_part h cs j c).mpr hj, fun k hk d hd => ?_⟩
    by_cases hlt : k < pre.length
    · exact hgood k hlt d hd
    · obtain ⟨m, rfl⟩ := Nat.exists_eq_add_of_le (Nat.le_of_not_lt hlt)
      exact hfirst m (Nat.lt_of_add_lt_add_left hk) d ((badAt_part h cs m d).mp hd)

end

theorem not_badAt_zero {cs : List Char} {d : Char} : ¬ BadAt cs 0 d := fun h => h.2.1

theorem badAt_one {c d : Char} {cs : List Char} :
    BadAt ('\\' :: c :: cs) 1 d ↔ d = c ∧ c ∉ escapes.map Prod.fst := by
  constructor
  · rintro ⟨hd, -, hbad⟩
    obtain rfl : c = d := Option.some.inj hd
    exact ⟨rfl, hbad⟩
  · rintro ⟨rfl, hbad⟩
    exact ⟨rfl, ⟨rfl, id⟩, hbad⟩

/-- The first bad escape is the one that the scanner names. -/
theorem firstBad_iff {body : List Char} {p : Nat × Nat} {c : Char} :
    FirstBad body c ↔ ∃ l k, badEscape? body p = some (c, l, k) := by
  fun_induction badEscape? body p with
  | case1 => simp [FirstBad, BadAt]
  | case2 =>
    suffices h : ∀ i, ¬ BadAt ['\\'] i c by simp [FirstBad, h]
    rintro (_ | i)
    · exact not_badAt_zero
    · simp [BadAt]
  | case3 d cs line col hd ih =>
    rw [← ih]
    refine firstBad_part (.pair d) fun i hi x hx => ?_
    rcases i with _ | _ | i
    · exact not_badAt_zero hx
    · exact (badAt_one.mp hx).2 (isSome_escape.mp hd)
    · simp at hi
  | case4 d cs line col hd =>
    have hbad := mt isSome_escape.mpr hd
    constructor
    · rintro ⟨_ | _ | i, hi, hfirst⟩
      · exact absurd hi not_badAt_zero
      · exact ⟨line, col + 2, by rw [(badAt_one.mp hi).1]⟩
      · exact absurd (badAt_one.mpr ⟨rfl, hbad⟩) (hfirst 1 (by omega) d)
    · rintro ⟨l, k, h⟩
      obtain ⟨rfl, -⟩ := by simpa using h
      refine ⟨1, badAt_one.mpr ⟨rfl, hbad⟩, fun j hj x hx => ?_⟩
      obtain rfl : j = 0 := by omega
      exact not_badAt_zero hx
  | case5 d cs line col hd hd' ih =>
    rw [← ih]
    refine firstBad_part (.plain (ne_backslash hd hd')) fun i hi x hx => ?_
    obtain rfl : i = 0 := by simpa using hi
    exact not_badAt_zero hx

/-- A character that closes nothing and is no backslash with a character behind it. -/
theorem part_or_last {c : Char} {cs : List Char} (h : ∀ d t, c = '\\' → cs = d :: t → False) :
    Part [c] ∨ cs = [] := by
  by_cases hc : c = '\\'
  · cases cs with
    | nil => exact .inr rfl
    | cons d t => exact (h d t hc rfl).elim
  · exact .inl (.plain hc)

theorem not_closes_singleton {c : Char} (hq : c ≠ '"') (i : Nat) : ¬ Closes [c] i := by
  intro h
  cases i with
  | zero => exact hq (Option.some.inj h.quote)
  | succ i => cases h.quote

theorem splitQuoted_of_closes {cs : List Char} {i : Nat} (h : Closes cs i) :
    splitQuoted cs = (cs.take i, '"' :: cs.drop (i + 1)) := by
  fun_induction splitQuoted cs generalizing i with
  | case1 => cases h.quote
  | case2 cs =>
    obtain rfl := h.unique (closes_quote cs)
    rfl
  | case3 c cs body rest hs ih =>
    obtain ⟨j, rfl, hj⟩ := (closes_part (.pair c : Part ['\\', c]) (by simp)).mp h
    obtain ⟨rfl, rfl⟩ := Prod.mk.inj (hs.symm.trans (ih hj))
    rw [Nat.add_comm ['\\', c].length]
    rfl
  | case4 c cs hq hb body rest hs ih =>
    rcases part_or_last hb with hp | rfl
    · obtain ⟨j, rfl, hj⟩ := (closes_part hp (by simpa using hq)).mp h
      obtain ⟨rfl, rfl⟩ := Prod.mk.inj (hs.symm.trans (ih hj))
      rw [Nat.add_comm [c].length]
      rfl
    · exact absurd h (not_closes_singleton hq i)

theorem splitQuoted_of_open {cs : List Char} (h : ∀ i, ¬ Closes cs i) : splitQuoted cs = (cs, []) := by
  fun_induction splitQuoted cs with
  | case1 => rfl
  | case2 cs => exact absurd (closes_quote cs) (h 0)
  | case3 c cs body rest hs ih =>
    have hrest := ih fun j hj => h _ ((closes_part (.pair c) (by simp)).mpr ⟨j, rfl, hj⟩)
    obtain ⟨rfl, rfl⟩ := Prod.mk.inj (hs.symm.trans hrest)
    rfl
  | case4 c cs hq hb body rest hs ih =>
    rcases part_or_last hb with hp | rfl
    · have hrest := ih fun j hj => h _ ((closes_part hp (by simpa using hq)).mpr ⟨j, rfl, hj⟩)
      obtain ⟨rfl, rfl⟩ := Prod.mk.inj (hs.symm.trans hrest)
      rfl
    · cases hs
      rfl

/-- A closed body without a bad escape stands for what the scanner makes of it. -/
theorem means_of_splitQuoted {cs body rest : List Char} {p : Nat × Nat}
    (h : splitQuoted cs = (body, '"' :: rest)) (hb : badEscape? body p = none) :
    Means body (unescape body) := by
  fun_induction splitQuoted cs generalizing body p with
  | case1 => cases h
  | case2 cs =>
    cases h
    exact .nil
  | case3 c cs body' rest' hs ih =>
    obtain ⟨rfl, rfl⟩ := Prod.mk.inj h
    rw [badEscape?] at hb
    split at hb
    · next he =>
      obtain ⟨x, hx⟩ := Option.isSome_iff_exists.mp he
      rw [unescape, hx]
      exact .escape (mem_escapes.mpr hx) (ih hs hb)
    · cases hb
  | case4 c cs hq hbs body' rest' hs ih =>
    obtain ⟨rfl, rfl⟩ := Prod.mk.inj h
    have hc : c ≠ '\\' := by
      rcases part_or_last hbs with hp | rfl
      · cases hp with
        | plain hc => exact hc
      · cases hs
    obtain ⟨q, hq'⟩ := badEscape_plain hc body' p
    rw [unescape_plain hc]
    exact .plain hq hc (ih hs (hq' ▸ hb))

/-- The scanner reads a body that stands for a text as that text. -/
theorem Means.read {body text : List Char} (h : Means body text) :
    (∀ rest, splitQuoted (body ++ '"' :: rest) = (body, '"' :: rest)) ∧
      (∀ p, badEscape? body p = none) ∧ unescape body = text := by
  induction h with
  | nil => exact ⟨fun _ => rfl, fun _ => rfl, rfl⟩
  | @plain c body text hq hb _ ih =>
    obtain ⟨hs, hbad, rfl⟩ := ih
    refine ⟨fun rest => ?_, fun p => ?_, unescape_plain hb body⟩
    · rw [List.cons_append, splitQuoted_plain hq hb, hs]
    · obtain ⟨q, hq⟩ := badEscape_plain hb body p
      rw [hq, hbad]
  | @escape e c body text he _ ih =>
    obtain ⟨hs, hbad, rfl⟩ := ih
    have hec := mem_escapes.mp he
    refine ⟨fun rest => ?_, fun p => ?_, ?_⟩
    · rw [List.cons_append, List.cons_append, splitQuoted, hs]
    · rw [badEscape?, if_pos (by rw [hec]; rfl), hbad]
    · rw [unescape, hec]
      rfl

/-- What the canonical text escapes stands for the text itself. -/
theorem means_escaped {s : List Char} (h : '\\' ∉ s) : Means (s.flatMap escapeChar) s := by
  have hsplit := splitQuoted_escaped h []
  have hm := means_of_splitQuoted hsplit (badEscape_escaped h (0, 0))
  rwa [unescape_escaped h] at hm

/-- A quote closes the body in front of it. -/
theorem Means.closes {body text : List Char} (h : Means body text) (rest : List Char) :
    Closes (body ++ '"' :: rest) body.length := by
  have hs := h.read.1 rest
  by_cases hc : ∃ i, Closes (body ++ '"' :: rest) i
  · obtain ⟨i, hi⟩ := hc
    have hbody := congrArg Prod.fst (hs.symm.trans (splitQuoted_of_closes hi))
    have hlt := (List.getElem?_eq_some_iff.mp hi.quote).1
    have hlen : body.length = i := by
      rw [show body = _ from hbody, List.length_take_of_le (Nat.le_of_lt hlt)]
    rwa [hlen]
  · have hrest := congrArg Prod.snd (hs.symm.trans (splitQuoted_of_open (not_exists.mp hc)))
    exact absurd hrest (List.cons_ne_nil _ _)

namespace Cursor

/-- A call begins to take where its gap ends. -/
theorem drop_start (text : String) (n : Nat) :
    text.toList.drop (after text (n + 1)).start = (after text n).skipGap.rest := by
  have hstart : (after text (n + 1)).start = (after text n).skipGap.current :=
    (takes_call text n).start
  rw [hstart, ← (stands_after text n).skipGap.rest_eq.1]

section
variable {text : String} {n : Nat} {cs : List Char}

/-- A call that begins at a quote cuts a string. -/
theorem call_quoted (h : text.toList.drop (after text (n + 1)).start = '"' :: cs) :
    (call text n, after text (n + 1)) = (after text n).skipGap.quoted cs := by
  rw [drop_start] at h
  show (after text n).skipGap.token = _
  rw [token, h]
  dsimp only
  rw [if_pos rfl]

theorem current_add_rest (text : String) (n : Nat) :
    (after text n).current + (after text n).rest.length = text.length := by
  obtain ⟨read, htext, hcurrent⟩ := stands_after text n
  rw [hcurrent, ← String.length_toList, htext, List.length_append]

/-- A string without a closing quote takes all that is left. -/
theorem call_of_open (h : text.toList.drop (after text (n + 1)).start = '"' :: cs)
    (ho : ∀ i, ¬ Closes cs i) : (∃ l k, call text n = .error ⟨.unterminatedString, l, k⟩) ∧
      (after text (n + 1)).current = text.length := by
  have hcall := call_quoted h
  rw [quoted, splitQuoted_of_open ho] at hcall
  obtain ⟨hc, ha⟩ := Prod.mk.inj hcall
  refine ⟨⟨_, _, hc⟩, ?_⟩
  have hlen := current_add_rest text (n + 1)
  rw [show (after text (n + 1)).rest = [] by rw [ha]] at hlen
  exact hlen

/-- A string with a closing quote ends behind it. -/
theorem after_of_closes (h : text.toList.drop (after text (n + 1)).start = '"' :: cs) {i : Nat}
    (hi : Closes cs i) : (after text (n + 1)).current = (after text (n + 1)).start + i + 2 ∧
      (after text (n + 1)).rest = cs.drop (i + 1) := by
  have hlen : (cs.take i).length = i :=
    List.length_take_of_le (Nat.le_of_lt (List.getElem?_eq_some_iff.mp hi.quote).1)
  have hcall := call_quoted h
  rw [quoted, splitQuoted_of_closes hi] at hcall
  dsimp only at hcall
  split at hcall <;> rw [(Prod.mk.inj hcall).2] <;> exact ⟨by rw [hlen]; rfl, rfl⟩

/-- A closed string names its first bad escape, or gives the text that its body stands for. -/
theorem call_of_closes (h : text.toList.drop (after text (n + 1)).start = '"' :: cs) {i : Nat}
    (hi : Closes cs i) :
    (∀ c, FirstBad (cs.take i) c →
      ∃ l k, call text n = .error ⟨.unrecognizedEscape c.toString, l, k⟩) ∧
      ((∀ c, ¬ FirstBad (cs.take i) c) →
        ∃ s l k, Means (cs.take i) s ∧ call text n = .ok ⟨.string, String.ofList s, l, k⟩) := by
  have hcall := call_quoted h
  have hsplit := splitQuoted_of_closes hi
  rw [quoted, hsplit] at hcall
  dsimp only at hcall
  split at hcall
  · next c l k hb =>
    have hc := (Prod.mk.inj hcall).1
    refine ⟨fun d hd => ?_, fun hnone => absurd (firstBad_iff.mpr ⟨l, k, hb⟩) (hnone c)⟩
    obtain ⟨l', k', hd⟩ := firstBad_iff.mp hd
    obtain ⟨rfl, -⟩ := by simpa using hb.symm.trans hd
    exact ⟨l, k, hc⟩
  · next hb =>
    refine ⟨fun d hd => ?_, fun _ => ?_⟩
    · obtain ⟨l, k, hd⟩ := firstBad_iff.mp hd
      cases hb.symm.trans hd
    · exact ⟨_, _, _, means_of_splitQuoted hsplit hb, (Prod.mk.inj hcall).1⟩

/-- A body that stands for a text, with a quote behind it, is closed by that quote. -/
theorem call_of_means {body s rest : List Char} (hm : Means body s)
    (h : text.toList.drop (after text (n + 1)).start = '"' :: (body ++ '"' :: rest)) :
    (∃ l k, call text n = .ok ⟨.string, String.ofList s, l, k⟩) ∧
      (after text (n + 1)).rest = rest := by
  obtain ⟨-, hbad, hs⟩ := hm.read
  have hi := hm.closes rest
  have htake : (body ++ '"' :: rest).take body.length = body := List.take_left
  have hnone : ∀ c, ¬ FirstBad body c := by
    intro c hc
    obtain ⟨l, k, hc⟩ := firstBad_iff.mp hc
    cases (hbad (0, 0)).symm.trans hc
  obtain ⟨s', l, k, hm', hc⟩ := (call_of_closes h hi).2 (htake.symm ▸ hnone)
  rw [htake] at hm'
  obtain rfl : s' = s := hm'.read.2.2.symm.trans hs
  refine ⟨⟨l, k, hc⟩, ?_⟩
  rw [(after_of_closes h hi).2]
  simp

end

/-- Nothing stands in front of a string that begins a text. -/
theorem start_of_quote {text : String} {cs : List Char} (h : text.toList = '"' :: cs) :
    (after text 1).start = 0 := by
  have hgap : gap text 0 = [] := by
    rw [gap_eq, show (after text 0).rest = '"' :: cs from h]
    rfl
  rw [start_after, hgap]
  rfl

/-- A call that begins at a quote fails at the end of the text if nothing closes the string. If
something does, it ends behind that, names the first bad escape, if there is one, and gives the text
that the body stands for if there is none. So a text without a backslash is read back from its
canonical form, wherever that stands, and no string holds a backslash. -/
theorem call_string :
    (∀ {text : String} {n : Nat} {cs : List Char},
      text.toList.drop (after text (n + 1)).start = '"' :: cs →
      ((∀ i, ¬ Closes cs i) → (∃ l k, call text n = .error ⟨.unterminatedString, l, k⟩) ∧
        (after text (n + 1)).current = text.length) ∧
      ∀ i, Closes cs i → (after text (n + 1)).current = (after text (n + 1)).start + i + 2 ∧
        (∀ c, FirstBad (cs.take i) c →
          ∃ l k, call text n = .error ⟨.unrecognizedEscape c.toString, l, k⟩) ∧
        ((∀ c, ¬ FirstBad (cs.take i) c) →
          ∃ s l k, Means (cs.take i) s ∧ call text n = .ok ⟨.string, String.ofList s, l, k⟩)) ∧
    (∀ {s w : String} {stack : Stack}, '\\' ∉ s.toList → (Literal.text s).format stack = .ok w →
      (∀ rest, (after (w ++ rest) 1).start = 0) ∧
      ∀ {text : String} {n : Nat} {rest : List Char},
        text.toList.drop (after text (n + 1)).start = w.toList ++ rest →
        (∃ l k, call text n = .ok ⟨.string, s, l, k⟩) ∧ (after text (n + 1)).rest = rest ∧
          (after text (n + 1)).current + rest.length = text.length) ∧
    ∀ {text : String} {n : Nat} {t : Token}, call text n = .ok t → t.kind = .string →
      '\\' ∉ t.lexeme.toList := by
  refine ⟨fun h => ⟨call_of_open h, fun i hi => ?_⟩, fun {s w stack} hs hw => ?_,
    fun {text n t} ht hk => ?_⟩
  · exact ⟨(after_of_closes h hi).1, call_of_closes h hi⟩
  · have hwritten : w.toList = '"' :: (s.toList.flatMap escapeChar ++ ['"']) := by
      obtain rfl := Except.ok.inj (nested_eq_ok.mp (nested_eq_ok.mp hw).2).2
      simp [escapeText]
    refine ⟨fun rest => start_of_quote (by rw [String.toList_append, hwritten]; rfl), ?_⟩
    intro text n rest h
    rw [hwritten, List.cons_append, List.append_assoc, List.singleton_append] at h
    obtain ⟨hcall, hrest⟩ := call_of_means (means_escaped hs) h
    rw [String.ofList_toList] at hcall
    exact ⟨hcall, hrest, hrest ▸ current_add_rest text (n + 1)⟩
  · have hl := lexed_of_cutToken (congrArg Prod.fst (cutToken_call text n) |>.trans (by rw [ht]; rfl))
    exact hl.text hk

/-- A quote that a backslash takes, two bad escapes with such a quote between them, and a text with
a quote and a newline. -/
theorem call_string_escapes :
    ((∃ l k, call "\"a\\\"" 0 = .error ⟨.unterminatedString, l, k⟩) ∧
      (after "\"a\\\"" 1).current = 4) ∧
    (∃ l k, call "\"\\q\\\"\\w\"x" 0 = .error ⟨.unrecognizedEscape "q", l, k⟩) ∧
    (∃ l k, call "\"a\\\"b\\n\"?" 0 = .ok ⟨.string, "a\"b\n", l, k⟩) ∧
    '\\' ∉ "a\"b\n".toList := by
  have hopen : ∀ i, ¬ Closes ['a', '\\', '"'] i := by
    rintro (_ | _ | _ | i) ⟨hquote, hfree, -⟩
    · simp at hquote
    · simp at hquote
    · exact hfree (by decide)
    · simp at hquote
  have hbad : FirstBad ['\\', 'q', '\\', '"', '\\', 'w'] 'q' := by
    refine ⟨1, badAt_one.mpr ⟨rfl, by decide⟩, fun j hj d hd => ?_⟩
    obtain rfl : j = 0 := by omega
    exact not_badAt_zero hd
  have hquote : "\"\\q\\\"\\w\"x".toList.drop (after "\"\\q\\\"\\w\"x" 1).start =
      '"' :: ['\\', 'q', '\\', '"', '\\', 'w', '"', 'x'] := by decide
  have hstart : "\"a\\\"b\\n\"?".toList.drop (after "\"a\\\"b\\n\"?" 1).start =
      "\"a\\\"b\\n\"".toList ++ ['?'] := by decide
  have hw : (Literal.text "a\"b\n").format none = .ok "\"a\\\"b\\n\"" := rfl
  have htext := (call_string.2.1 (by decide) hw).2 hstart
  refine ⟨(call_string.1 (by decide)).1 hopen, ?_, htext.1, ?_⟩
  · exact ((call_string.1 hquote).2 6 (by decide)).2.1 'q' hbad
  · obtain ⟨l, k, hcall⟩ := htext.1
    exact call_string.2.2 hcall rfl

end Cursor
end ArrowLang
