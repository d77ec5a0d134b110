import ArrowLang.Proofs.Pieces
import ArrowLang.Proofs.Results

/-!
# Numbers that cannot be converted

A whole number is refused as too large when its digits behind the zeros in front are too many. What
is left is converted, and a conversion takes only so many digits, zeros included. Nothing else ends
the reading of a text: it fails where such a number is read, and there alone.
-/
namespace ArrowLang

open Reading

/-- Digits that are few enough behind the zeros in front, and too many with them. -/
structure Overlong (ds : List Char) : Prop where
  digits : Digits ds
  few : (ds.dropWhile (· = '0')).length ≤ 10
  many : maxDigits < ds.length

namespace Reading

theorem number_overlong {t : Token} (h : Overlong t.lexeme.toList) :
    number t = .error (.abort (.tooManyDigits t.lexeme.toList.length)) := by
  have hfew := h.few
  rw [number_whole (splitPoint_whole h.digits), if_neg (by omega), if_pos h.many]

theorem overlong_of_abort {t : Token} {cause : Abort} (hn : Numeral t.lexeme.toList)
    (h : number t = .error (.abort cause)) :
    Overlong t.lexeme.toList ∧ cause = .tooManyDigits t.lexeme.toList.length := by
  generalize hl : t.lexeme.toList = lexeme at hn ⊢
  cases hn with
  | whole hd =>
    have hs : splitPoint t.lexeme.toList = (lexeme, none) := by rw [hl, splitPoint_whole hd]
    rw [number_whole hs] at h
    split at h
    · cases h
    · next hfew =>
      split at h
      · next hmany =>
        cases h
        exact ⟨⟨hd, by omega, hmany⟩, rfl⟩
      · split at h <;> cases h
  | @pointed ds fs hd hf =>
    rw [number_pointed (hl ▸ splitPoint_pointed hd fs)] at h
    split at h <;> cases h

/-- A declaration that begins with a number that cannot be converted, where there is room for its call
and what it calls to read the number and the token behind it. -/
theorem declaration_abort {stack : Stack} (hs : stack.holds 8 = true) (depth : Nat) {w : Window}
    {u : Token} {s : Cursor} {cause : Abort} (hk : w.current.kind = .number)
    (hu : w.cursor.next = (.ok u, s)) (hn : number w.current = .error (.abort cause)) :
    (declaration (expression (depth + 1))).on stack w = (.error (.abort cause), w.advance) := by
  have hin := Stack.holds_inside (n := 7) (j := 1) hs
  have hinner := Stack.holds_inside (n := 6) (j := 1) hin
  have hmost := Stack.holds_inside (n := 5) (j := 1) hinner
  have hadvance : advance.on ((stack.inside 1).inside 1) w = (.ok (), w.advance) := by
    rw [advance_on, if_pos (Stack.holds_of_le hinner (by decide))]
    exact Window.move_takes (by rw [hk]; decide) (Stack.holds_of_le hmost (by decide))
      (Stack.holds_of_le hmost (Outcome.frames_le _)) hu
  have hneed : (need lookupFrames).on ((stack.inside 1).inside 1) w.advance = (.ok (), w.advance) := by
    rw [on_need, if_pos (Stack.holds_of_le hinner (by decide))]
  have hoperand : (operand (expression depth) .number).on ((stack.inside 1).inside 1) w.advance =
      (.error (.abort cause), w.advance) := by
    rw [operand, on_call, if_pos (Stack.holds_of_le hinner (by decide)),
      on_bind_ok (on_previous w.advance), Window.previous_advance]
    dsimp only
    rw [hn]
    rfl
  have hexpr : (expression (depth + 1) .or).on (stack.inside 1) w =
      (.error (.abort cause), w.advance) := by
    rw [expression, on_call, if_pos (Stack.holds_of_le hin (by decide)), on_bind_ok hadvance,
      on_bind_ok (on_previous w.advance), on_bind_ok hneed, Window.previous_advance, hk]
    exact on_bind_error hoperand
  rw [declaration, on_call, if_pos (Stack.holds_of_le hs (by decide)), on_bind_error hexpr]

end Reading

theorem Window.forms_of_abort {stack : Stack} {depth : Nat} {w v : Window}
    (hc : w.current.kind ≠ .endOfText) {cause : Abort}
    (h : (declaration (expression depth)).on stack w = (.error (.abort cause), v)) :
    w.forms stack depth = (.error cause, v) := by
  rw [forms_of_turn hc, turn, h]

/-- What ends the reading of a text is a number that is cut in it, one of its tokens unless an error
of a string got lost. -/
theorem Program.overlong_of_read {stack : Nat} {source : String} {cause : Abort}
    (h : Program.read stack source = .error cause) :
    ∃ t, (∃ s : Cursor, s.rest <:+ source.toList ∧ s.next.1 = .ok t) ∧
      (.ok t ∈ (Cursor.ofText source).outcomes ∨ ∃ o, Program.Loses stack source o ∧ o.inString = true) ∧
      t.kind = .number ∧ Overlong t.lexeme.toList ∧
      cause = .tooManyDigits t.lexeme.toList.length := by
  have hf := Window.forms_found (fun _ => TokenOf.lexed)
    (Window.into_start (Program.Loses stack source) source).within fun _ => id
  rw [Program.read_eq, Window.read] at h
  rcases hr : ((Window.start source).forms (some (Window.ownFrames + stack))
    (Window.ownFrames + stack)).1 with e | ds <;> rw [hr] at h hf
  · obtain rfl : e = cause := Except.error.inj h
    obtain ⟨t, ht, hk, hn⟩ := hf
    obtain ⟨hlong, hcause⟩ := overlong_of_abort (ht.lexed.number hk) hn
    obtain ⟨⟨s, hs, hcut⟩, ht⟩ := ht
    exact ⟨t, ⟨s, hs.rest, hcut⟩, ht, hk, hlong, hcause⟩
  · cases h

/-- A text that is cut without an error of a string is read, if none of its numbers has too many
digits. -/
theorem Program.exists_of_short {source : String}
    (hstring : ∀ o ∈ (Cursor.ofText source).outcomes, o.inString = false)
    (h : ∀ t, .ok t ∈ (Cursor.ofText source).outcomes → t.kind = .number →
      ¬ Overlong t.lexeme.toList) (stack : Nat) : ∃ p, Program.read stack source = .ok p := by
  rcases hr : Program.read stack source with cause | p
  · obtain ⟨t, -, ht, hk, hlong, -⟩ := Program.overlong_of_read hr
    rcases ht with ht | ⟨o, ho, hs⟩
    · exact absurd hlong (h t ht hk)
    · rw [Program.Loses.not_inString ho hstring] at hs
      cases hs
  · exact ⟨p, rfl⟩

/-- The tokens of a text that is cut without an error, with their positions. -/
theorem outcomes_of_lex {source : String} {ts : List Token}
    (hlex : lex source.toList = (ts ++ [textEnd]).map .ok) :
    ∃ us e, (Cursor.ofText source).outcomes = (us ++ [e]).map .ok ∧ e.kind = .endOfText ∧
      us.map Token.bare = ts := by
  have hb : (Cursor.ofText source).outcomes.map Outcome.bare = (ts ++ [textEnd]).map .ok := by
    rw [Cursor.bare_outcomes_ofText, hlex]
  obtain ⟨us, hus, hbare⟩ := oks_of_bare hb
  obtain ⟨us, es, rfl, h₁, h₂⟩ := List.map_eq_append_iff.mp hbare
  obtain ⟨e, rfl, he⟩ := List.map_eq_singleton_iff.mp h₂
  exact ⟨us, e, hus, congrArg Token.kind he, h₁⟩

/-- A text that is cut into tokens is read, whatever it is read as, if none of them has too many
digits. -/
theorem Program.exists_of_lex {source : String} {ts : List Token}
    (hlex : lex source.toList = (ts ++ [textEnd]).map .ok)
    (hshort : ∀ t ∈ ts, t.kind = .number → ¬ Overlong t.lexeme.toList) (stack : Nat) :
    ∃ us e p, (Cursor.ofText source).outcomes = (us ++ [e]).map .ok ∧ e.kind = .endOfText ∧
      us.map Token.bare = ts ∧ Program.read stack source = .ok p := by
  obtain ⟨us, e, hus, hend, h₁⟩ := outcomes_of_lex hlex
  obtain ⟨p, hp⟩ : ∃ p, Program.read stack source = .ok p := by
    refine Program.exists_of_short (fun o ho => ?_) (fun t ht hk => ?_) stack
    · rw [hus] at ho
      obtain ⟨u, -, rfl⟩ := List.mem_map.mp ho
      rfl
    · rw [hus] at ht
      obtain ⟨u, hu, htu⟩ := List.mem_map.mp ht
      obtain rfl : u = t := Except.ok.inj htu
      rcases List.mem_append.mp hu with hu | hu
      · exact hshort u.bare (h₁ ▸ List.mem_map_of_mem hu) hk
      · rw [List.mem_singleton.mp hu, hend] at hk
        cases hk
  exact ⟨us, e, p, hus, hend, h₁, hp⟩

/-- A text that is one number, up to positions. -/
theorem bare_outcomes_of_numeral {ds : List Char} (h : Numeral ds) :
    (Cursor.ofText (String.ofList ds)).outcomes.map Outcome.bare =
      [.ok (numeralToken ds), .ok textEnd] := by
  have hl := word_numeral h [] nofun
  rw [List.append_nil] at hl
  rw [Cursor.bare_outcomes_ofText, String.toList_ofList, hl, lex_nil]
  rfl

/-- The first cut, where the cuts are known up to positions. -/
theorem Cursor.next_of_bare {s : Cursor} {t : Token} {os : List Outcome}
    (h : s.outcomes.map Outcome.bare = .ok t :: os) : ∃ u v, s.next = (.ok u, v) ∧ u.bare = t ∧
      (u.kind ≠ .endOfText → v.outcomes.map Outcome.bare = os) := by
  rcases hn : s.next with ⟨e | u, v⟩
  · rw [outcomes_of_error hn] at h
    cases h
  · by_cases hu : u.kind = .endOfText
    · rw [outcomes_of_end hn hu] at h
      exact ⟨u, v, rfl, Except.ok.inj (List.cons.inj h).1, fun hne => absurd hu hne⟩
    · rw [outcomes_of_ok hn hu] at h
      exact ⟨u, v, rfl, Except.ok.inj (List.cons.inj h).1, fun _ => (List.cons.inj h).2⟩

/-- A text that is one number which cannot be converted. -/
theorem Program.read_overlong (stack : Nat) {ds : List Char} (h : Overlong ds) :
    Program.read stack (String.ofList ds) = .error (.tooManyDigits ds.length) := by
  obtain ⟨t, v, hfirst, ht, hos⟩ := Cursor.next_of_bare (bare_outcomes_of_numeral (.whole h.digits))
  have hk : t.kind = .number := congrArg Token.kind ht
  obtain ⟨u, s, hu, -⟩ := Cursor.next_of_bare (hos (by rw [hk]; decide))
  have hl : t.lexeme.toList = ds := by
    rw [show t.lexeme = String.ofList ds from congrArg Token.lexeme ht, String.toList_ofList]
  have hstart : Window.start (String.ofList ds) = ⟨.absent, t, v, #[]⟩ := by
    have hadvance : (Window.ofText (String.ofList ds)).advance = ⟨.absent, t, v, #[]⟩ :=
      Window.advance_of_ok (show TokenKind.absent ≠ .endOfText by decide) hfirst
    rw [Window.start, hadvance, Window.skipNewlines_of_ne (by rw [hk]; decide)]
  have hn : number t = .error (.abort (.tooManyDigits ds.length)) := by
    have hlong : Overlong t.lexeme.toList := hl ▸ h
    rw [number_overlong hlong, hl]
  have hroom : Stack.holds (some (7 + stack + 1)) 8 = true :=
    decide_eq_true (Nat.add_le_add_right (Nat.le_add_right 7 stack) 1)
  have habort := declaration_abort (w := ⟨.absent, t, v, #[]⟩) hroom (7 + stack) hk hu hn
  rw [Program.read_eq, Window.read, hstart,
    show Window.ownFrames + stack = 7 + stack + 1 from Nat.add_right_comm 7 1 stack,
    Window.forms_of_abort (show t.kind ≠ .endOfText by rw [hk]; decide) habort]
  rfl

/-- Every text is read, or a number that is cut in it has too many digits to be converted: a token of
the text, unless the stack ran out in a string with an error. -/
theorem Program.read_ok_or_overlong (stack : Nat) (source : String) :
    (∃ p, Program.read stack source = .ok p) ∨
      ∃ t, (∃ s : Cursor, s.rest <:+ source.toList ∧ s.next.1 = .ok t) ∧
        (.ok t ∈ (Cursor.ofText source).outcomes ∨
          ∃ o, Program.Loses stack source o ∧ o.inString = true) ∧
        t.kind = .number ∧ Overlong t.lexeme.toList ∧
        Program.read stack source = .error (.tooManyDigits t.lexeme.toList.length) := by
  rcases hr : Program.read stack source with cause | p
  · obtain ⟨t, hcut, ht, hk, hlong, rfl⟩ := Program.overlong_of_read hr
    exact .inr ⟨t, hcut, ht, hk, hlong, rfl⟩
  · exact .inl ⟨p, rfl⟩

theorem overlong_zeros {n : Nat} (h : maxDigits < n) : Overlong (List.replicate n '0') := by
  have hpos : n ≠ 0 := Nat.ne_zero_of_lt h
  refine ⟨⟨by simpa using hpos, by simp⟩, ?_, by simpa using h⟩
  rw [List.dropWhile_eq_nil_iff.mpr (by simp)]
  exact Nat.zero_le 10

/-- One zero more than can be converted: nothing is read, though the number is zero. -/
theorem Program.read_zeros_aborts :
    ¬ ∃ p, Program.read 970 (String.ofList (List.replicate 4301 '0')) = .ok p := by
  rintro ⟨p, hp⟩
  rw [Program.read_overlong 970 (overlong_zeros (by decide))] at hp
  cases hp

end ArrowLang
