import ArrowLang.Command.Report
import ArrowLang.Proofs.RoundTrip

/-!
# What is echoed

Canonical text is echoed line by line. Where the stream is no terminal its control sequences are
dropped, and a string may hold one or begin one. So what is written is the canonical text if and only
if that has no control sequence.
-/
namespace ArrowLang
namespace Text

open Lexeme (takeWhile_boundary)

/-- A control sequence: an escape character, `[`, parameters, intermediate characters and a final one. -/
inductive IsControl : List Char → Prop where
  | mk {ps is : List Char} {f : Char} : (∀ c ∈ ps, isParameter c) → (∀ c ∈ is, isIntermediate c) →
      isFinal f → IsControl ('\x1b' :: '[' :: (ps ++ is ++ [f]))

/-- Somewhere in the text there is a control sequence. -/
def HasControl (text : List Char) : Prop := ∃ seq, IsControl seq ∧ seq <:+: text

theorem isParameter_of_other {c : Char} (h : isIntermediate c ∨ isFinal c) : isParameter c = false := by
  simp only [isIntermediate, isFinal, Bool.and_eq_true, decide_eq_true_eq] at h
  rw [isParameter, Bool.and_eq_false_iff, decide_eq_false_iff_not, decide_eq_false_iff_not]
  rcases h with ⟨-, hle⟩ | ⟨hle, -⟩
  · exact .inl (not_le_of_gt (lt_of_le_of_lt hle (by decide : '/' < '0')))
  · exact .inr (not_le_of_gt (lt_of_lt_of_le (by decide : '?' < '@') hle))

theorem isIntermediate_of_isFinal {c : Char} (h : isFinal c) : isIntermediate c = false := by
  simp only [isFinal, Bool.and_eq_true, decide_eq_true_eq] at h
  rw [isIntermediate, Bool.and_eq_false_iff, decide_eq_false_iff_not, decide_eq_false_iff_not]
  exact .inr (not_le_of_gt (lt_of_lt_of_le (by decide : '/' < '@') h.1))

/-- Behind `ESC [` a control sequence is complete if the text begins with the rest of one. -/
theorem afterControl_eq_some {text rest : List Char} : afterControl text = some rest ↔
    ∃ seq, IsControl ('\x1b' :: '[' :: seq) ∧ text = seq ++ rest := by
  constructor
  · intro h
    unfold afterControl at h
    split at h
    · cases h
    · next f rest' hd =>
      split at h
      · next hf =>
        obtain rfl := Option.some.inj h
        refine ⟨text.takeWhile isParameter ++
          (text.dropWhile isParameter).takeWhile isIntermediate ++ [f], ?_, ?_⟩
        · exact .mk (fun _ hc => List.mem_takeWhile_imp hc) (fun _ hc => List.mem_takeWhile_imp hc) hf
        · rw [List.append_assoc, List.append_assoc, List.singleton_append, ← hd,
            List.takeWhile_append_dropWhile, List.takeWhile_append_dropWhile]
      · cases h
  · rintro ⟨_, ⟨hps, his, hf⟩, rfl⟩
    next ps is f =>
    have hhead : ∀ c ∈ (is ++ ([f] ++ rest)).head?, isParameter c = false := by
      intro c hc
      apply isParameter_of_other
      cases is with
      | nil =>
        obtain rfl : f = c := by simpa using hc
        exact .inr hf
      | cons d is =>
        obtain rfl : d = c := by simpa using hc
        exact .inl (his d List.mem_cons_self)
    have hlast : ∀ c ∈ ([f] ++ rest).head?, isIntermediate c = false := by
      intro c hc
      obtain rfl : f = c := by simpa using hc
      exact isIntermediate_of_isFinal hf
    unfold afterControl
    rw [List.append_assoc, List.append_assoc, (takeWhile_boundary hps hhead).2,
      (takeWhile_boundary his hlast).2]
    simp [hf]

/-- A control sequence begins right here, or further on. -/
theorem hasControl_cons {c : Char} {text : List Char} : HasControl (c :: text) ↔
    (∃ seq rest, IsControl seq ∧ c :: text = seq ++ rest) ∨ HasControl text := by
  constructor
  · rintro ⟨seq, hseq, hin⟩
    rcases List.infix_cons_iff.mp hin with ⟨rest, h⟩ | h
    · exact .inl ⟨seq, rest, hseq, h.symm⟩
    · exact .inr ⟨seq, hseq, h⟩
  · rintro (⟨seq, rest, hseq, h⟩ | ⟨seq, hseq, hin⟩)
    · exact ⟨seq, hseq, h ▸ (List.prefix_append seq rest).isInfix⟩
    · exact ⟨seq, hseq, hin.trans (List.suffix_cons c text).isInfix⟩

theorem escape_mem_of_hasControl {text : List Char} (h : HasControl text) : '\x1b' ∈ text := by
  obtain ⟨_, ⟨-, -, -⟩, hin⟩ := h
  exact hin.subset List.mem_cons_self

theorem length_plainChars_le (text : List Char) : (plainChars text).length ≤ text.length := by
  fun_induction plainChars text with
  | case1 => exact Nat.le_refl _
  | case2 text rest h ih =>
    have hlt := length_lt_of_afterControl h
    simp only [List.length_cons]
    omega
  | case3 text h ih => simpa using ih
  | case4 c text h ih => simpa using ih

theorem plainChars_eq_self_iff {text : List Char} : plainChars text = text ↔ ¬ HasControl text := by
  fun_induction plainChars text with
  | case1 =>
    refine iff_of_true rfl ?_
    rintro ⟨seq, hseq, hin⟩
    rw [List.infix_nil.mp hin] at hseq
    cases hseq
  | case2 text rest h ih =>
    obtain ⟨seq, hseq, rfl⟩ := afterControl_eq_some.mp h
    refine iff_of_false (fun heq => ?_) (not_not.mpr ?_)
    · have hle := length_plainChars_le rest
      rw [heq] at hle
      simp only [List.length_cons, List.length_append] at hle
      omega
    · exact ⟨_, hseq, (List.prefix_append ('\x1b' :: '[' :: seq) rest).isInfix⟩
  | case3 text h ih =>
    rw [List.cons_inj_right, ih, hasControl_cons (c := '\x1b'), not_or, iff_and_self]
    rintro - ⟨seq, rest, hseq, heq⟩
    cases hseq with
    | mk hps his hf =>
      simp only [List.cons_append, List.cons.injEq, true_and] at heq
      rw [afterControl_eq_some.mpr ⟨_, .mk hps his hf, heq⟩] at h
      cases h
  | case4 c text hc ih =>
    rw [List.cons_inj_right, ih, hasControl_cons, not_or, iff_and_self]
    rintro - ⟨seq, rest, hseq, heq⟩
    cases hseq with
    | mk _ _ _ =>
      simp only [List.cons_append, List.cons.injEq] at heq
      exact hc _ heq.1 heq.2

/-- What the text begins with goes on with no control sequence that is begun in front of it. -/
def Breaks (text : List Char) : Prop :=
  ∀ c ∈ text.head?, isParameter c = false ∧ isIntermediate c = false ∧ isFinal c = false

theorem breaks_newline (text : List Char) : Breaks ('\n' :: text) := by
  rintro _ ⟨⟩
  exact ⟨rfl, rfl, rfl⟩

theorem breaks_escape (text : List Char) : Breaks ('\x1b' :: text) := by
  rintro _ ⟨⟩
  exact ⟨rfl, rfl, rfl⟩

theorem dropWhile_append_of_head {p : Char → Bool} {more : List Char}
    (h : ∀ c ∈ more.head?, p c = false) (text : List Char) :
    (text ++ more).dropWhile p = text.dropWhile p ++ more := by
  rw [List.dropWhile_append]
  split
  · next hnil =>
    rw [List.isEmpty_iff.mp hnil, List.nil_append]
    cases more with
    | nil => rfl
    | cons c more => simp [h c rfl]
  · rfl

theorem afterControl_append {more : List Char} (h : Breaks more) (text : List Char) :
    afterControl (text ++ more) = (afterControl text).map (· ++ more) := by
  unfold afterControl
  rw [dropWhile_append_of_head fun c hc => (h c hc).1,
    dropWhile_append_of_head fun c hc => (h c hc).2.1]
  rcases (text.dropWhile isParameter).dropWhile isIntermediate with _ | ⟨c, rest⟩
  · cases more with
    | nil => rfl
    | cons c more => simp [(h c rfl).2.2]
  · by_cases hc : isFinal c <;> simp [hc]

theorem plainChars_control {text rest : List Char} (h : afterControl text = some rest) :
    plainChars ('\x1b' :: '[' :: text) = plainChars rest := by
  rw [plainChars]
  split
  · next h' => rw [Option.some.inj (h'.symm.trans h)]
  · next h' => simp [h'] at h

theorem plainChars_unfinished {text : List Char} (h : afterControl text = none) :
    plainChars ('\x1b' :: '[' :: text) = '\x1b' :: plainChars ('[' :: text) := by
  rw [plainChars]
  split
  · next h' => simp [h'] at h
  · rfl

/-- No control sequence goes over a place where all of them break off. -/
theorem plainChars_append {more : List Char} (h : Breaks more) (text : List Char) :
    plainChars (text ++ more) = plainChars text ++ plainChars more := by
  fun_induction plainChars text with
  | case1 => rfl
  | case2 text rest hc ih =>
    have hc' : afterControl (text ++ more) = some (rest ++ more) := by
      rw [afterControl_append h, hc]
      rfl
    rw [List.cons_append, List.cons_append, plainChars_control hc', ih]
  | case3 text hc ih =>
    have hc' : afterControl (text ++ more) = none := by
      rw [afterControl_append h, hc]
      rfl
    rw [List.cons_append] at ih
    rw [List.cons_append, List.cons_append, plainChars_unfinished hc', ih, List.cons_append]
  | case4 c text hc ih =>
    rw [List.cons_append, plainChars, ih, List.cons_append]
    intro t he ht
    cases text with
    | nil =>
      rw [List.nil_append] at ht
      subst ht
      cases (h '[' rfl).2.2
    | cons d text =>
      obtain ⟨rfl, -⟩ := List.cons.inj ht
      exact hc text he rfl

/-- The end of a line is such a place. -/
theorem plainChars_newline (text more : List Char) :
    plainChars (text ++ '\n' :: more) = plainChars text ++ '\n' :: plainChars more := by
  rw [plainChars_append (breaks_newline more)]
  congr 1
  rw [plainChars]
  simp

theorem plain_eq_self_iff {text : String} : plain text = text ↔ ¬ HasControl text.toList := by
  rw [← plainChars_eq_self_iff, plain, ← String.toList_inj, String.toList_ofList]

theorem plain_line (line more : String) :
    plain (line ++ "\n") ++ plain more = plain (line ++ "\n" ++ more) := by
  have hline : plainChars (line.toList ++ ['\n']) = plainChars line.toList ++ ['\n'] := by
    rw [plainChars_newline]
    simp [plainChars]
  apply String.toList_inj.mp
  simp only [plain, String.toList_append, String.toList_ofList, String.reduceToList, hline,
    List.append_assoc, List.singleton_append, plainChars_newline]

end Text

namespace Report

open Text (plain HasControl)

variable {stack : Nat} {source text : String} {p : Program}

/-- Declarations are echoed line by line, which writes their canonical text without its control
sequences. -/
theorem decls_eq_plain (color : Bool) {s : Stack} {ds : List Decl} (h : formatLines s ds = .ok text) :
    decls ⟨false, color, false⟩ s ds = (plain text, none) := by
  induction ds generalizing text with
  | nil =>
    cases h
    simp [decls, plain, Text.plainChars]
  | cons d ds ih =>
    rw [formatLines] at h
    rcases hd : d.format s with e | line <;> rw [hd] at h
    · cases h
    rcases hds : formatLines s ds with e | more <;> rw [hds] at h
    · cases h
    obtain rfl : line ++ "\n" ++ more = text := Except.ok.inj h
    have hline : declLines false s d = ([line], none) := by simp [declLines, hd]
    rw [decls, hline]
    simp [ih hds, echo, ← Text.plain_line]

/-- Where declarations can be formatted, so can each of their lines. -/
theorem lines_of_formatDecls {ds : List Decl} (hw : ∀ d ∈ ds, d.WellFormed) {s : Stack}
    (h : formatDecls ds s = .ok text) : formatLines s ds = .ok text := by
  obtain ⟨css, htakes, -⟩ := prints_lines hw
  rw [show formatDecls ds s = _ from htakes.nested (1 + rowFrames) s] at h
  split at h
  · next hs =>
    rw [show formatLines s ds = _ from htakes s,
      if_pos (Stack.holds_of_le hs (Nat.le_add_right _ _)), h]
  · cases h

/-- What a reading writes to a stream that is no terminal. -/
theorem run_eq_plain (h : Program.read stack source = .ok p) (color : Bool)
    (hf : formatDecls p.decls (some (Window.ownFrames + stack)) = .ok text) :
    ∃ stderr, run stack ⟨false, color, false⟩ source =
      (.ok p.diagnostics.isEmpty, ⟨plain text, stderr⟩) := by
  obtain ⟨hds, hdg⟩ := Program.read_eq_ok h
  have hlines := lines_of_formatDecls (Window.wellFormed_of_forms hds) hf
  have hp : (Window.ofText source).program stack = (.ok p.decls, (Window.read stack source).2) := by
    rw [Window.program_ofText, ← hds]
  refine ⟨diagnostics ⟨false, color, false⟩ source p.diagnostics, ?_⟩
  simp only [run, hp, decls_eq_plain color hlines, hdg, Array.isEmpty_toList]

/-- If the declarations of a text can be formatted, what reading the text writes to standard output is
their canonical text without its control sequences: the canonical text itself if and only if that has
none. If so it is read back, unless it nests too deep, as the declarations with every application in
its call form. -/
theorem stdout_run (h : Program.read stack source = .ok p) (color : Bool)
    (hf : formatDecls p.decls (some (Window.ownFrames + stack)) = .ok text) :
    ∃ out, run stack ⟨false, color, false⟩ source = (.ok p.diagnostics.isEmpty, out) ∧
      out.stdout = plain text ∧ (out.stdout = text ↔ ¬ HasControl text.toList) ∧
      (¬ HasControl text.toList → ∃ q, Program.read stack out.stdout = .ok q ∧
        ((∃ t, .grammar .nestingTooDeep t ∈ q.diagnostics) ∨
          q.diagnostics = [] ∧ q.decls.map Decl.bare = p.decls.map Decl.called)) := by
  obtain ⟨text', -, htakes, -, -, hread⟩ :=
    roundTrips_of_wellFormed (Window.wellFormed_of_forms (Program.read_eq_ok h).1)
  obtain rfl : text' = text := by
    rw [htakes] at hf
    split at hf
    · exact Except.ok.inj hf
    · cases hf
  obtain ⟨stderr, hrun⟩ := run_eq_plain h color hf
  refine ⟨_, hrun, rfl, Text.plain_eq_self_iff, fun hc => ?_⟩
  obtain ⟨q, hq, hback⟩ := hread stack
  refine ⟨q, ?_, hback.imp_right fun ⟨hd, hdecls, _⟩ => ⟨hd, hdecls⟩⟩
  exact (Text.plain_eq_self_iff.mpr hc).symm ▸ hq

/-- A string with an escaped line end is echoed as it is formatted. -/
theorem stdout_run_typed : ∃ p q out, Program.read 3 "x : T = \"a\\nb\"" = .ok p ∧
    run 3 ⟨false, true, false⟩ "x : T = \"a\\nb\"" = (.ok true, out) ∧
    out.stdout = "x : T = \"a\\nb\"\n" ∧ Program.read 3 out.stdout = .ok q ∧
    ((∃ t, .grammar .nestingTooDeep t ∈ q.diagnostics) ∨
      q.diagnostics = [] ∧ q.decls.map Decl.bare = p.decls.map Decl.called) := by
  have h : Program.read 3 "x : T = \"a\\nb\"" = .ok ⟨[.constant ⟨.identifier, "x", 1, 1⟩
      (some ⟨.identifier, "T", 1, 5⟩) (.of (.literal (.text "a\nb")))], []⟩ := by cbv
  obtain ⟨out, hrun, -, hiff, hback⟩ := stdout_run h true (by cbv : _ = Except.ok "x : T = \"a\\nb\"\n")
  have hc : ¬ HasControl "x : T = \"a\\nb\"\n".toList :=
    fun hc => absurd (Text.escape_mem_of_hasControl hc) (by decide)
  obtain ⟨q, hq, hsame⟩ := hback hc
  exact ⟨_, q, out, h, hrun, hiff.mpr hc, hq, hsame⟩

/-- A string that holds a control sequence is echoed as another string. One that begins a control
sequence, which what follows the string completes, is echoed as a string that is left open. -/
theorem stdout_run_drops :
    (∃ p text out, Program.read 3 "\"\x1b[1mx\"" = .ok p ∧
      formatDecls p.decls (some (Window.ownFrames + 3)) = .ok text ∧
      run 3 ⟨false, true, false⟩ "\"\x1b[1mx\"" = (.ok true, out) ∧
      text = "\"\x1b[1mx\"\n" ∧ out.stdout = "\"x\"\n" ∧ out.stdout ≠ text) ∧
    ∃ p text out q, Program.read 3 "[\"\x1b[\", x]" = .ok p ∧
      formatDecls p.decls (some (Window.ownFrames + 3)) = .ok text ∧
      run 3 ⟨false, true, false⟩ "[\"\x1b[\", x]" = (.ok true, out) ∧
      text = "[\"\x1b[\", x]\n" ∧ out.stdout = "[\"]\n" ∧
      Program.read 3 out.stdout = .ok q ∧ q.diagnostics.map Diagnostic.code = ["E103", "E201"] := by
  have h₁ : Program.read 3 "\"\x1b[1mx\"" =
      .ok ⟨[.evaluated (.of (.literal (.text "\x1b[1mx")))], []⟩ := by cbv
  have h₂ : run 3 ⟨false, true, false⟩ "\"\x1b[1mx\"" = (.ok true, ⟨"\"x\"\n", ""⟩) := by cbv
  have h₃ : Program.read 3 "[\"\x1b[\", x]" =
      .ok ⟨[.evaluated (.of (.list [.of (.literal (.text "\x1b[")),
        .of (.name ⟨.identifier, "x", 1, 8⟩)]))], []⟩ := by cbv
  have h₄ : run 3 ⟨false, true, false⟩ "[\"\x1b[\", x]" = (.ok true, ⟨"[\"]\n", ""⟩) := by cbv
  have h₅ : Program.read 3 "[\"]\n" = .ok ⟨[], [.lexical .unterminatedString 2 0,
      .grammar .expectedExpression ⟨.endOfText, "", 2, 0⟩]⟩ := by cbv
  exact ⟨⟨_, _, _, h₁, by cbv, h₂, rfl, rfl, by decide⟩, _, _, _, _, h₃, by cbv, h₄, rfl, rfl, h₅, rfl⟩

end Report
end ArrowLang
