import ArrowLang.Proofs.Calls
import ArrowLang.Proofs.Conversion
import ArrowLang.Proofs.Forms

/-!
# Texts that are read back

A text on one line that is cut into the same tokens wherever it may end, and tokens that are read as
one and the same tree wherever they stand, whatever their positions are. How such texts are put
together: side by side with an operator between them, in brackets, and in rows with commas.
-/
namespace ArrowLang

open Reading

/-- A text on one line that is cut into the tokens wherever a word may end, with no number in it that
has too many digits. -/
structure Writes (cs : List Char) (ts : List Token) : Prop where
  word : Word cs ts
  opens : Opens cs
  line : '\n' ∉ cs
  short : ∀ t ∈ ts, t.kind = .number → ¬ Overlong t.lexeme.toList

/-- What stands between two texts and is one token. -/
structure Link (sep : List Char) (k : TokenKind) : Prop where
  divides : Divides sep
  piece : Piece sep [mark k]
  line : '\n' ∉ sep
  kind : k ≠ .number

/-- Brackets of a kind. -/
structure Encloses (o c : Char) (ko kc : TokenKind) : Prop where
  left : Piece [o] [mark ko]
  right : Piece [c] [mark kc]
  opens : o ≠ '>' ∧ o ≠ '\n'
  divides : Divides [c]
  line : c ≠ '\n'
  kinds : ko ≠ .number ∧ kc ≠ .number

theorem Opens.append {cs : List Char} (h : Opens cs) (ds : List Char) : Opens (cs ++ ds) := by
  obtain ⟨c, r, rfl, hc⟩ := h
  exact ⟨c, r ++ ds, rfl, hc⟩

theorem short_mark {k : TokenKind} (hk : k ≠ .number) {t : Token} (ht : t = mark k)
    (h : t.kind = .number) : ¬ Overlong t.lexeme.toList := by
  subst ht
  exact absurd h hk

theorem Writes.link {as bs sep : List Char} {ts us : List Token} {k : TokenKind} (ha : Writes as ts)
    (hs : Link sep k) (hb : Writes bs us) : Writes (as ++ sep ++ bs) (ts ++ mark k :: us) where
  word := by
    rw [List.append_assoc]
    exact ha.word.append ⟨by simp [hs.divides.1], hs.divides.append bs⟩ (hs.piece.word_append hb.word)
  opens := (ha.opens.append _).append _
  line := by simp [ha.line, hs.line, hb.line]
  short := by
    intro t ht hk
    rcases List.mem_append.mp ht with ht | ht
    · exact ha.short t ht hk
    · rcases List.mem_cons.mp ht with ht | ht
      · exact short_mark hs.kind ht hk
      · exact hb.short t ht hk

theorem Writes.enclosed {cs : List Char} {ts : List Token} {o c : Char} {ko kc : TokenKind}
    (h : Writes cs ts) (he : Encloses o c ko kc) :
    Writes (o :: (cs ++ [c])) (mark ko :: (ts ++ [mark kc])) where
  word := (he.left.append (h.word.piece_append he.divides he.right)).word
  opens := ⟨o, _, rfl, he.opens⟩
  line := by simp [Ne.symm he.opens.2, h.line, Ne.symm he.line]
  short := by
    intro t ht hk
    rcases List.mem_cons.mp ht with ht | ht
    · exact short_mark he.kinds.1 ht hk
    · rcases List.mem_append.mp ht with ht | ht
      · exact h.short t ht hk
      · exact short_mark he.kinds.2 (List.mem_singleton.mp ht) hk

/-- A mark in front of a text. -/
theorem Writes.before {pre cs : List Char} {ts : List Token} {k : TokenKind} (h : Writes cs ts)
    (hw : Word (pre ++ cs) (mark k :: ts)) (ho : Opens pre) (hn : '\n' ∉ pre) (hk : k ≠ .number) :
    Writes (pre ++ cs) (mark k :: ts) where
  word := hw
  opens := ho.append cs
  line := by simp [hn, h.line]
  short := by
    intro t ht hkt
    rcases List.mem_cons.mp ht with ht | ht
    · exact short_mark hk ht hkt
    · exact h.short t ht hkt

theorem link_comma : Link [',', ' '] .comma where
  divides := ⟨by simp, by simp [Boundary]⟩
  piece := piece_comma.append piece_blank
  line := by decide
  kind := by decide

/-- A mark with a blank on both sides. -/
theorem link_of_piece (cs : List Char) {k : TokenKind} (h : Piece (cs ++ [' ']) [mark k])
    (hn : '\n' ∉ cs) (hk : k ≠ .number) : Link (' ' :: (cs ++ [' '])) k where
  divides := ⟨by simp, by simp [Boundary]⟩
  piece := piece_blank.append h
  line := by simp [hn]
  kind := hk

theorem link_pipe : Link [' ', '|', ' '] .pipe :=
  link_of_piece ['|'] (piece_pipe.append piece_blank) (by decide) (by decide)

theorem link_question : Link [' ', '?', ' '] .question :=
  link_of_piece ['?'] (piece_question.append piece_blank) (by decide) (by decide)

theorem link_equal : Link [' ', '=', ' '] .equal :=
  link_of_piece ['='] piece_equal (by decide) (by decide)

theorem link_operator {o : Token} (hi : (Binding.of o.kind).associativity.isSome) (hs : o.Spelled) :
    Link (' ' :: (o.lexeme.toList ++ [' '])) o.kind := by
  refine link_of_piece _ (piece_operator hi hs) (TokenKind.plain_spelling hs).1 ?_
  intro hk
  rw [hk] at hi
  cases hi

theorem encloses_parens : Encloses '(' ')' .leftParen .rightParen where
  left := piece_leftParen
  right := piece_rightParen
  opens := by decide
  divides := ⟨by simp, by simp [Boundary]⟩
  line := by decide
  kinds := by decide

theorem encloses_squares : Encloses '[' ']' .leftSquare .rightSquare where
  left := piece_leftSquare
  right := piece_rightSquare
  opens := by decide
  divides := ⟨by simp, by simp [Boundary]⟩
  line := by decide
  kinds := by decide

theorem encloses_braces : Encloses '\x7b' '\x7d' .leftBrace .rightBrace where
  left := piece_leftBrace
  right := piece_rightBrace
  opens := by decide
  divides := ⟨by simp, by simp [Boundary]⟩
  line := by decide
  kinds := by decide

section
variable {α β γ : Type}

/-- The text is cut into tokens, and tokens that differ from them in their positions only are read as
the thing. -/
def Renders (reads : List Token → α → Prop) (cs : List Char) (x : α) : Prop :=
  ∃ ts, Writes cs ts ∧ ∀ us, us.map Token.bare = ts → reads us x

variable {reads : List Token → α → Prop} {reads' : List Token → β → Prop}
  {reads'' : List Token → γ → Prop} {x : α} {y : β} {z : γ}

theorem Renders.line {cs : List Char} (h : Renders reads cs x) : '\n' ∉ cs := by
  obtain ⟨ts, hw, -⟩ := h
  exact hw.line

theorem Renders.imp {cs : List Char} (h : Renders reads cs x)
    (hr : ∀ us, reads us x → reads' us y) : Renders reads' cs y := by
  obtain ⟨ts, hw, hreads⟩ := h
  exact ⟨ts, hw, fun us hus => hr us (hreads us hus)⟩

theorem Renders.link {as bs sep : List Char} {k : TokenKind} (ha : Renders reads as x)
    (hs : Link sep k) (hb : Renders reads' bs y)
    (hr : ∀ us q vs, reads us x → q.bare = mark k → reads' vs y → reads'' (us ++ q :: vs) z) :
    Renders reads'' (as ++ sep ++ bs) z := by
  obtain ⟨ts, hwa, hra⟩ := ha
  obtain ⟨us, hwb, hrb⟩ := hb
  refine ⟨_, hwa.link hs hwb, fun vs hvs => ?_⟩
  obtain ⟨vs₁, vs₂, rfl, h₁, h₂⟩ := List.map_eq_append_iff.mp hvs
  obtain ⟨q, vs₃, rfl, hq, h₃⟩ := List.map_eq_cons_iff.mp h₂
  exact hr _ _ _ (hra _ h₁) hq (hrb _ h₃)

theorem Renders.enclosed {cs : List Char} {o c : Char} {ko kc : TokenKind}
    (h : Renders reads cs x) (he : Encloses o c ko kc)
    (hr : ∀ p us q, p.bare = mark ko → reads us x → q.bare = mark kc →
      reads' (p :: (us ++ [q])) y) : Renders reads' (o :: (cs ++ [c])) y := by
  obtain ⟨ts, hw, hreads⟩ := h
  refine ⟨_, hw.enclosed he, fun vs hvs => ?_⟩
  obtain ⟨p, vs₁, rfl, hp, h₁⟩ := List.map_eq_cons_iff.mp hvs
  obtain ⟨us, vs₂, rfl, hus, h₂⟩ := List.map_eq_append_iff.mp h₁
  obtain ⟨q, rfl, hq⟩ := List.map_eq_singleton_iff.mp h₂
  exact hr _ _ _ hp (hreads _ hus) hq

/-- A text that is one token. -/
theorem renders_word {cs : List Char} {t : Token} (hw : Word cs [t]) (ho : Opens cs)
    (hn : '\n' ∉ cs) (hs : t.kind = .number → ¬ Overlong t.lexeme.toList)
    (hr : ∀ u, u.bare = t → reads [u] x) : Renders reads cs x := by
  refine ⟨[t], ⟨hw, ho, hn, by simpa using hs⟩, fun us hus => ?_⟩
  obtain ⟨u, rfl, hu⟩ := List.map_eq_singleton_iff.mp hus
  exact hr u hu

theorem Renders.before (pre : List Char) {cs : List Char} {k : TokenKind} (h : Renders reads cs x)
    (hw : ∀ ts, Opens cs → Word cs ts → Word (pre ++ cs) (mark k :: ts)) (ho : Opens pre)
    (hn : '\n' ∉ pre) (hk : k ≠ .number)
    (hr : ∀ q us, q.bare = mark k → reads us x → reads' (q :: us) y) :
    Renders reads' (pre ++ cs) y := by
  obtain ⟨ts, hwrites, hreads⟩ := h
  refine ⟨_, hwrites.before (hw ts hwrites.opens hwrites.word) ho hn hk, fun vs hvs => ?_⟩
  obtain ⟨q, us, rfl, hq, hus⟩ := List.map_eq_cons_iff.mp hvs
  exact hr q us hq (hreads us hus)

/-- Things that are each read behind a comma. -/
inductive Further (reads : List Token → α → Prop) : List Token → List α → Prop where
  | nil : Further reads [] []
  | cons {q : Token} {us vs : List Token} {x : α} {xs : List α} : q.kind = .comma → reads us x →
      Further reads vs xs → Further reads (q :: us ++ vs) (x :: xs)

/-- One thing or more, with commas between them. -/
inductive Row (reads : List Token → α → Prop) : List Token → List α → Prop where
  | mk {us vs : List Token} {x : α} {xs : List α} : reads us x → Further reads vs xs →
      Row reads (us ++ vs) (x :: xs)

theorem renders_row {cs : List Char} {css : List (List Char)} {xs : List α}
    (h : Renders reads cs x) (hs : List.Forall₂ (Renders reads) css xs) :
    Renders (Row reads) ([',', ' '].intercalate (cs :: css)) (x :: xs) := by
  induction hs generalizing cs x with
  | nil =>
    rw [List.intercalate_singleton]
    refine h.imp fun us hus => ?_
    simpa using Row.mk hus .nil
  | @cons cs' x' css xs h' _ ih =>
    rw [List.intercalate_cons_cons]
    refine h.link link_comma (ih h') ?_
    rintro us q vs hus hq ⟨hx, hxs⟩
    exact .mk hus (.cons (kind_of_bare_mark hq) hx hxs)

end
end ArrowLang
