import ArrowLang.Proofs.Strewn

/-!
# Two spellings of a line end

A carriage return in front of every newline: a run of newlines becomes as many tokens, every other
token stays where it is, line and column included. So a text without a diagnostic is read as the same
declarations, unless a string of it holds a newline.
-/
namespace ArrowLang

open Lexeme

/-- The characters with a carriage return in front of every newline. -/
def crlf : List Char → List Char
  | [] => []
  | c :: cs => if c = '\n' then '\r' :: '\n' :: crlf cs else c :: crlf cs

theorem crlf_cons {c : Char} (h : c ≠ '\n') (cs : List Char) : crlf (c :: cs) = c :: crlf cs :=
  if_neg h

theorem crlf_append {cs : List Char} (h : '\n' ∉ cs) (ds : List Char) :
    crlf (cs ++ ds) = cs ++ crlf ds := by
  induction cs with
  | nil => rfl
  | cons c cs ih =>
    obtain ⟨hc, hcs⟩ := not_or.mp (List.mem_cons.not.mp h)
    rw [List.cons_append, crlf_cons (Ne.symm hc), ih hcs, List.cons_append]

theorem head_crlf (cs : List Char) : (crlf cs).head? ≠ some '\n' := by
  cases cs with
  | nil => exact nofun
  | cons c cs =>
    by_cases hc : c = '\n'
    · subst hc
      exact nofun
    · rw [crlf_cons hc]
      exact fun h => hc (Option.some.inj h)

/-- A lexeme ends in front of a carriage return as in front of a newline. -/
theorem replaces_crlf (r : List Char) : Replaces r (crlf r) := by
  have hsevers : Severs '\r' := by simp [Severs]
  cases r with
  | nil => exact .refl []
  | cons c r =>
    by_cases hc : c = '\n'
    · subst hc
      constructor
      · intro d hd
        obtain rfl : '\r' = d := Option.some.inj hd
        exact .inr hsevers
      · intro d s hs
        exact absurd (List.cons.inj hs).1 (by decide)
    · rw [crlf_cons hc]
      refine ⟨fun d hd => .inl hd, fun d s hs => ?_⟩
      obtain ⟨rfl, hrest⟩ := List.cons.inj hs
      cases r with
      | nil => cases hrest
      | cons e r =>
        by_cases he : e = '\n'
        · subst he
          obtain rfl := (List.cons.inj hrest).1
          exact .inl hsevers
        · rw [crlf_cons he] at hrest
          obtain rfl := (List.cons.inj hrest).1
          exact .inr ⟨r, rfl⟩

/-- A gap takes in the carriage return behind it. -/
theorem splitGap_return {b : Bool} {gap r : List Char}
    (h : splitGap b (gap ++ '\n' :: r) = (gap, '\n' :: r)) (s : List Char) :
    splitGap b (gap ++ '\r' :: '\n' :: s) = (gap ++ ['\r'], '\n' :: s) := by
  induction gap generalizing b with
  | nil =>
    cases b with
    | false => rfl
    | true => rfl
  | cons c gap ih =>
    rw [List.cons_append, splitGap] at h ⊢
    split_ifs at h ⊢ with hg hc
    · have h := Prod.mk.inj h
      rw [ih (Prod.ext (List.cons.inj h.1).2 h.2)]
      rfl
    · have h := Prod.mk.inj h
      rw [ih (Prod.ext (List.cons.inj h.1).2 h.2)]
      rfl
    · simp at h

theorem escapedNewlines_of_no_newline {cs : List Char} (h : '\n' ∉ cs) : escapedNewlines cs = 0 := by
  fun_induction escapedNewlines cs with
  | case1 => rfl
  | case2 c cs ih =>
    simp only [List.mem_cons, not_or] at h
    rw [if_neg (Ne.symm h.2.1), ih h.2.2]
  | case3 c cs _ ih => exact ih fun hm => h (List.mem_cons_of_mem c hm)

namespace Cursor

/-- A token that is cut from the text behind the gap, with its place. -/
theorem next_of_cut {s : Cursor} {span rest : List Char} {t : Token}
    (hs : s.skipGap.rest = span ++ rest) (hcut : cutToken (span ++ rest) = (.ok t, rest))
    (hn : escapedNewlines span = 0) :
    ∃ u, s.next.1 = .ok u ∧ u.bare = t ∧ s.next.2.rest = rest ∧
      s.next.2.place = moved s.skipGap.place span ∧ (u.line, u.col) = s.next.2.place := by
  have hbare : (Outcome.bare s.next.1, s.next.2.rest) = (.ok t, rest) := by
    rw [← hcut, ← hs]
    exact bare_token s.skipGap
  obtain ⟨u, hu, hut⟩ := Outcome.bare_eq_ok (congrArg Prod.fst hbare)
  have hrest : s.next.2.rest = rest := congrArg Prod.snd hbare
  obtain ⟨taken, htakes⟩ := takes_token s.skipGap
  change s.skipGap.Takes taken s.next.1 s.next.2 at htakes
  obtain rfl : taken = span := by
    have happ := htakes.rest
    rw [hs, hrest] at happ
    exact (List.append_cancel_right happ).symm
  exact ⟨u, hu, hut, hrest, htakes.behind.2 hn, (hu ▸ htakes).place_eq⟩

/-- One newline behind a gap and a carriage return. -/
theorem outcomes_return {s : Cursor} {gap r x : List Char}
    (hs : s.rest = gap ++ '\r' :: '\n' :: crlf x)
    (hg : splitGap false (gap ++ '\n' :: r) = (gap, '\n' :: r)) :
    ∃ (t : Token) (v : Cursor), s.outcomes = .ok t :: v.outcomes ∧ t.kind = .newline ∧
      v.rest = crlf x ∧ v.place = (s.line + 1, 0) := by
  have hgap : s.skipGap.rest = ['\n'] ++ crlf x := by
    rw [skipGap, hs, splitGap_return hg]
    rfl
  have hstop : ∀ c ∈ (crlf x).head?, decide (c = '\n') = false := by
    intro c hc
    rw [decide_eq_false_iff_not]
    rintro rfl
    exact head_crlf x hc
  have hnone : ∀ c ∈ ([] : List Char), decide (c = '\n') = true := by simp
  have hrun := takeWhile_boundary hnone hstop
  have hcut : cutToken (['\n'] ++ crlf x) = (.ok (newlines []), crlf x) := by
    rw [List.singleton_append, cutToken_newline]
    exact Prod.ext (congrArg (fun a => Except.ok (newlines a)) hrun.1) hrun.2
  obtain ⟨t, ht, hbare, hrest, hplace, -⟩ := next_of_cut hgap hcut rfl
  have hkind : t.kind = .newline := congrArg Token.kind hbare
  refine ⟨t, s.next.2, ?_, hkind, hrest, hplace⟩
  have hend : Outcome.isEnd s.next.1 = false := by
    rw [ht]
    simp [Outcome.isEnd, hkind]
  rw [outcomes_of_proceeds hend, ht]

/-- A run of newlines behind a gap: as many tokens, up to the same place. -/
theorem outcomes_returns {s : Cursor} {gap r x : List Char} {i : Nat}
    (hs : s.rest = gap ++ crlf (List.replicate (i + 1) '\n' ++ x))
    (hg : splitGap false (gap ++ '\n' :: r) = (gap, '\n' :: r)) :
    ∃ (ms : List Token) (v : Cursor), s.outcomes = ms.map .ok ++ v.outcomes ∧ Newlines ms ∧
      ms ≠ [] ∧ v.rest = crlf x ∧ v.place = (s.line + (i + 1), 0) := by
  induction i generalizing s gap r with
  | zero =>
    obtain ⟨t, v, ho, ht, hrest, hplace⟩ := outcomes_return hs hg
    exact ⟨[t], v, ho, by simpa using ht, List.cons_ne_nil _ _, hrest, hplace⟩
  | succ i ih =>
    obtain ⟨t, u, ho, ht, hrest, hplace⟩ := outcomes_return
      (x := List.replicate (i + 1) '\n' ++ x) hs hg
    have hnone : splitGap false ([] ++ '\n' :: []) = ([], '\n' :: []) := rfl
    obtain ⟨ms, v, ho', hms, -, hrest', hplace'⟩ := ih hrest hnone
    refine ⟨t :: ms, v, by rw [ho, ho']; rfl, ?_, List.cons_ne_nil _ _, hrest', ?_⟩
    · exact newlines_cons.mpr ⟨ht, hms⟩
    · have hline : u.line = s.line + 1 := congrArg Prod.fst hplace
      rw [hplace', hline, Nat.add_assoc, Nat.add_comm 1]

end Cursor

open Pursuit (Spread)

namespace Cursor

theorem Takes.newline_not_mem {s v : Cursor} {span : List Char} {t : Token}
    (h : s.Takes span (.ok t) v) (hn : t.kind ≠ .newline) (hs : t.kind = .string → '\n' ∉ span) :
    '\n' ∉ span := by
  cases h with
  | ended _ => exact nofun
  | newlines _ _ _ => exact absurd rfl hn
  | lexeme _ _ _ _ hp => exact hp.1
  | text _ _ _ => exact hs rfl

variable {text : String}

/-- The cursor sees what the cursor after `n` calls sees, with carriage returns. -/
structure Returns (text : String) (n : Nat) (s : Cursor) : Prop where
  rest : s.rest = crlf (after text n).rest
  place : s.place = (after text n).place

theorem splitGap_after (text : String) (n : Nat) : splitGap false (after text n).rest =
    (gap text n, span text n ++ (after text (n + 1)).rest) :=
  Prod.ext (gap_eq text n).symm (takes_call text n).rest

/-- A token other than a newline is where it was. -/
theorem Returns.next {n : Nat} {s : Cursor} {t : Token} (h : Returns text n s)
    (ht : call text n = .ok t) (hn : t.kind ≠ .newline) (hspan : '\n' ∉ span text n) :
    s.next.1 = .ok t ∧ Returns text (n + 1) s.next.2 := by
  have hcut := cutToken_call text n
  have hsplit := splitGap_after text n
  have hnone : '\n' ∉ gap text n := gap_eq text n ▸ newline_not_mem_gap _
  have hs : s.rest = gap text n ++ (span text n ++ crlf (after text (n + 1)).rest) := by
    rw [h.rest, rest_after text n, List.append_assoc, crlf_append hnone, crlf_append hspan]
  rw [rest_after text n, List.append_assoc] at hsplit
  obtain ⟨hgap, hcut'⟩ : splitGap false s.rest =
        (gap text n, span text n ++ crlf (after text (n + 1)).rest) ∧
      cutToken (span text n ++ crlf (after text (n + 1)).rest) =
        (.ok t.bare, crlf (after text (n + 1)).rest) := by
    rw [ht] at hcut
    rw [hs]
    cases he : (call text n).isEnd with
    | true =>
      obtain ⟨hrest, -, -⟩ := (takes_call text n).of_isEnd he
      rw [(takes_call text n).rest] at hrest
      obtain ⟨hnil, hend⟩ := List.append_eq_nil_iff.mp hrest
      rw [hend] at hcut hsplit ⊢
      exact ⟨hsplit, hcut⟩
    | false =>
      obtain ⟨c, tail, hc, hiff⟩ := head_span ht he
      rw [hc] at hcut hsplit ⊢
      exact ⟨splitGap_head hsplit rfl, cutToken_replaces (replaces_crlf _)
        (fun h => absurd (hiff.mpr h) hn) hcut nofun⟩
  have hesc := escapedNewlines_of_no_newline hspan
  obtain ⟨u, hu, hbare, hrest, hplace, hpos⟩ := next_of_cut (congrArg Prod.snd hgap) hcut' hesc
  -- gap and span take the same place to the same place
  have hsame : s.next.2.place = (after text (n + 1)).place := by
    rw [hplace, (takes_call text n).behind.2 hesc, place_skipGap, place_skipGap, hgap, h.place,
      splitGap_after]
  have htake := takes_call text n
  rw [ht] at htake
  have htu : u = t := by
    have hpos' := hpos.trans (hsame.trans htake.place_eq.symm)
    obtain ⟨hk, hl⟩ := Token.bare_eq_iff.mp hbare
    obtain ⟨hline, hcol⟩ := Prod.mk.inj hpos'
    cases u
    cases t
    simp_all
  exact ⟨htu ▸ hu, hrest, hsame⟩

/-- A run of newlines is as many tokens, and ends where it ended. -/
theorem Returns.newlines {n : Nat} {s : Cursor} {t : Token} (h : Returns text n s)
    (ht : call text n = .ok t) (hn : t.kind = .newline) :
    ∃ (ms : List Token) (v : Cursor), s.outcomes = ms.map .ok ++ v.outcomes ∧ Newlines ms ∧
      ms ≠ [] ∧ Returns text (n + 1) v := by
  obtain ⟨i, hi⟩ := span_of_newline ht hn
  have hnone : '\n' ∉ gap text n := gap_eq text n ▸ newline_not_mem_gap _
  have hsplit := splitGap_after text n
  rw [rest_after text n, List.append_assoc, hi] at hsplit
  have hs : s.rest = gap text n ++
      crlf (List.replicate (i + 1) '\n' ++ (after text (n + 1)).rest) := by
    rw [h.rest, rest_after text n, List.append_assoc, crlf_append hnone, hi]
  obtain ⟨ms, v, ho, hms, hne, hrest, hplace⟩ := outcomes_returns hs hsplit
  refine ⟨ms, v, ho, hms, hne, hrest, ?_⟩
  have hesc : escapedNewlines (span text n) = 0 :=
    escapedNewlines_of_not_mem (by simp [hi])
  have hline : (after text n).skipGap.place.1 = s.line := (congrArg Prod.fst h.place).symm
  rw [(takes_call text n).behind.2 hesc, hi, moved_newlines (by simp) (by simp), hplace]
  simp [hline]

/-- The tokens of a text and of the text with carriage returns: as many newlines more as there are
in runs, everything else the same. -/
theorem Returns.spread {k m n : Nat} (hk : FirstEnd text k) (hnm : n + m = k)
    (hstring : ∀ n t, call text n = .ok t → t.kind = .string → '\n' ∉ span text n)
    {ts : List Token} (hts : (after text n).outcomes = ts.map .ok) {s : Cursor}
    (h : Returns text n s) :
    ∃ us : List Token, s.outcomes = us.map .ok ∧ ∀ kind ns ms, Newlines ns → Newlines ms →
      (ns = [] ↔ ms = []) → Spread id kind (ns ++ ts) (ms ++ us) := by
  induction m generalizing n ts s with
  | zero =>
    obtain rfl : n = k := hnm
    rw [outcomes_of_ends hk.ends] at hts
    obtain ⟨t, rfl, ht⟩ := List.map_eq_singleton_iff.mp hts.symm
    have ht : call text n = .ok t := ht.symm
    have hend := hk.ends
    rw [ht] at hend
    have hkind : t.kind = .endOfText := of_decide_eq_true hend
    have hspan := (ht ▸ takes_call text n).newline_not_mem (by simp [hkind]) (by simp [hkind])
    obtain ⟨hnext, -⟩ := h.next ht (by simp [hkind]) hspan
    refine ⟨[t], ?_, fun kind ns ms hns hms hiff => ?_⟩
    · rw [outcomes_of_ends (hnext ▸ hend), hnext]
      rfl
    · exact .cons hns hms (fun h => mt hiff.mpr h) (fun h h' => absurd (hiff.mp h) h')
        (by simp [hkind]) rfl (.nil _)
  | succ m ih =>
    have he := hk.proceeds n (by omega)
    rw [outcomes_of_proceeds he] at hts
    obtain ⟨t, ts, rfl, ht, hts⟩ := List.map_eq_cons_iff.mp hts.symm
    have ht : call text n = .ok t := ht.symm
    have hts : (after text (n + 1)).outcomes = ts.map .ok := hts.symm
    by_cases hnl : t.kind = .newline
    · obtain ⟨ms', v, ho, hms', hne, hv⟩ := h.newlines ht hnl
      obtain ⟨us, hus, hs⟩ := ih (by omega) hts hv
      refine ⟨ms' ++ us, by rw [ho, hus, List.map_append], fun kind ns ms hns hms _ => ?_⟩
      have hmore := hs kind (ns ++ [t]) (ms ++ ms') (by simpa using ⟨hns, hnl⟩)
        (newlines_append.mpr ⟨hms, hms'⟩) (by simp [hne])
      simpa using hmore
    · have hspan := (ht ▸ takes_call text n).newline_not_mem hnl (hstring n t ht)
      obtain ⟨hnext, hv⟩ := h.next ht hnl hspan
      obtain ⟨us, hus, hs⟩ := ih (by omega) hts hv
      rw [ht] at he
      refine ⟨t :: us, ?_, fun kind ns ms hns hms hiff => ?_⟩
      · rw [outcomes_of_proceeds (hnext ▸ he), hnext, hus]
        rfl
      · exact .cons hns hms (fun h => mt hiff.mpr h) (fun h h' => absurd (hiff.mp h) h') hnl rfl
          (hs t.kind [] [] nofun nofun Iff.rfl)

end Cursor

namespace Program

/-- A text without a diagnostic is read as the same declarations, positions included, when a carriage
return is put in front of every newline, unless a string holds a newline or it nests too deep then. -/
theorem read_crlf {stack : Nat} {text : String} {p : Program}
    (hstring : ∀ n t, Cursor.call text n = .ok t → t.kind = .string → '\n' ∉ Cursor.span text n)
    (hp : read stack text = .ok p) (hd : p.diagnostics = []) :
    ∃ q, read stack (String.ofList (crlf text.toList)) = .ok q ∧
      ((∀ t, .grammar .nestingTooDeep t ∉ q.diagnostics) → q = ⟨p.decls, []⟩) := by
  obtain ⟨ts, hts, -⟩ := derives_of_read hp hd
  obtain ⟨k, hk⟩ := Cursor.exists_end text
  have hstart : Cursor.Returns text 0 (Cursor.ofText (String.ofList (crlf text.toList))) :=
    ⟨(Cursor.rest_ofText _).trans String.toList_ofList,
      (Cursor.place_ofText _).trans (Cursor.place_ofText text).symm⟩
  obtain ⟨us, hus, hs⟩ := hstart.spread hk (Nat.zero_add k) hstring hts
  have hspread := hs .absent [] [] nofun nofun Iff.rfl
  obtain ⟨q, hq, hsame⟩ := read_of_spread (f := id) (fun _ => ⟨rfl, rfl⟩) hts hus hspread hp hd
  have hid : ∀ ds : List Decl, ds.map (Decl.retoken id id) = ds := fun ds =>
    (List.map_congr_left fun d _ => d.retoken_id).trans (List.map_id ds)
  refine ⟨q, hq, fun hdeep => ?_⟩
  obtain ⟨hqd, hdecls⟩ := hsame hdeep
  rw [hid, hid] at hdecls
  rw [hdecls, ← hqd]

/-- A blank line inside of brackets and one behind them. -/
theorem read_crlf_lines :
    String.ofList (crlf "x = [1,\n\n\"a\"]\n\nx".toList) =
        "x = [1,\r\n\r\n\"a\"]\r\n\r\nx" ∧
      read 20 "x = [1,\r\n\r\n\"a\"]\r\n\r\nx" = .ok ⟨[.constant ⟨.identifier, "x", 1, 1⟩ none
        (.of (.list [.of (.literal (.int 1)), .of (.literal (.text "a"))])),
        .evaluated (.of (.name ⟨.identifier, "x", 5, 1⟩))], []⟩ := by
  have htext : String.ofList (crlf "x = [1,\n\n\"a\"]\n\nx".toList) =
      "x = [1,\r\n\r\n\"a\"]\r\n\r\nx" := by decide
  have hread : read 20 "x = [1,\n\n\"a\"]\n\nx" = .ok ⟨[.constant ⟨.identifier, "x", 1, 1⟩ none
      (.of (.list [.of (.literal (.int 1)), .of (.literal (.text "a"))])),
      .evaluated (.of (.name ⟨.identifier, "x", 5, 1⟩))], []⟩ := by cbv
  have hend : (Cursor.call "x = [1,\n\n\"a\"]\n\nx" 10).isEnd = true := by decide +kernel
  have hspan : ∀ n < 10, '\n' ∈ Cursor.span "x = [1,\n\n\"a\"]\n\nx" n →
      n = 5 ∨ n = 8 := by decide +kernel
  have hkind : Cursor.call "x = [1,\n\n\"a\"]\n\nx" 5 = .ok ⟨.newline, "\n\n", 3, 0⟩ ∧
      Cursor.call "x = [1,\n\n\"a\"]\n\nx" 8 = .ok ⟨.newline, "\n\n", 5, 0⟩ := by decide +kernel
  have hstring : ∀ n t, Cursor.call "x = [1,\n\n\"a\"]\n\nx" n = .ok t → t.kind = .string →
      '\n' ∉ Cursor.span "x = [1,\n\n\"a\"]\n\nx" n := by
    intro n t ht hk hmem
    by_cases hn : n < 10
    · rcases hspan n hn hmem with rfl | rfl
      · rw [hkind.1] at ht
        cases ht
        cases hk
      · rw [hkind.2] at ht
        cases ht
        cases hk
    · rw [← (Cursor.after_end hend (Nat.le_of_not_lt hn)).1, ht] at hend
      rw [show t.kind = .endOfText from of_decide_eq_true hend] at hk
      cases hk
  have hnew : (read 20 "x = [1,\r\n\r\n\"a\"]\r\n\r\nx").map Program.diagnostics = .ok [] := by cbv
  obtain ⟨q, hq, hsame⟩ := read_crlf hstring hread rfl
  rw [htext] at hq
  refine ⟨htext, hq.trans (congrArg _ (hsame ?_))⟩
  rw [hq] at hnew
  simp [show q.diagnostics = [] from Except.ok.inj hnew]

/-- A blank line inside of brackets is one token, with carriage returns it is two, of which the second
one is cut deeper in the stack. -/
theorem read_crlf_deep :
    read 3 "(x\n\n)" =
        .ok ⟨[.evaluated (.of (.name ⟨.identifier, "x", 1, 2⟩))], []⟩ ∧
      String.ofList (crlf "(x\n\n)".toList) = "(x\r\n\r\n)" ∧
      ∃ q t, read 3 "(x\r\n\r\n)" = .ok q ∧
        .grammar .nestingTooDeep t ∈ q.diagnostics := by
  refine ⟨by cbv, by decide, ?_⟩
  have hdiag : (read 3 "(x\r\n\r\n)").map (fun q => q.diagnostics.head?) =
      .ok (some (.grammar .nestingTooDeep ⟨.newline, "\n", 2, 0⟩)) := by cbv
  obtain ⟨q, hq, hhead⟩ := ok_of_map hdiag
  exact ⟨q, _, hq, List.mem_of_head? hhead⟩

end Program
end ArrowLang
