import ArrowLang.Proofs.Lookahead
import ArrowLang.Tree.Outline
import Mathlib

/-!
# Indented blocks

A block is a line with blocks deeper under it. Its lines one after another determine it, for a line is
under the nearest line before it that is less deep. The outline of a tree is the lines of a block.
-/
namespace ArrowLang.Outline

/-- A line without its indentation, and what stands under it. -/
inductive Block where
  | mk (title : String) (under : List Block)

namespace Block

mutual

def lines : Block → Nat → List String
  | .mk title under, depth => (indent depth ++ title) :: linesAll under (depth + 1)

def linesAll : List Block → Nat → List String
  | [], _ => []
  | b :: bs, depth => b.lines depth ++ linesAll bs depth

end

@[simp] theorem linesAll_nil (depth : Nat) : linesAll [] depth = [] := rfl

@[simp] theorem linesAll_cons (b : Block) (bs : List Block) (depth : Nat) :
    linesAll (b :: bs) depth = b.lines depth ++ linesAll bs depth := rfl

theorem linesAll_eq_flatMap (bs : List Block) (depth : Nat) :
    linesAll bs depth = bs.flatMap fun b => b.lines depth := by
  induction bs with
  | nil => rfl
  | cons b bs ih => rw [linesAll_cons, ih, List.flatMap_cons]

@[simp] theorem linesAll_append (bs cs : List Block) (depth : Nat) :
    linesAll (bs ++ cs) depth = linesAll bs depth ++ linesAll cs depth := by
  simp only [linesAll_eq_flatMap, List.flatMap_append]

@[simp] theorem isEmpty_linesAll (bs : List Block) (depth : Nat) :
    (linesAll bs depth).isEmpty = bs.isEmpty := by
  cases bs with
  | nil => rfl
  | cons b bs => cases b; rfl

/-- No character is below the blank. -/
def Visible (text : String) : Prop := ∀ c ∈ text.toList, ' ' ≤ c

instance (text : String) : Decidable (Visible text) := List.decidableBAll _ _

theorem Visible.append {a b : String} (ha : Visible a) (hb : Visible b) : Visible (a ++ b) := by
  rw [Visible, String.toList_append, List.forall_mem_append]
  exact ⟨ha, hb⟩

theorem Visible.not_mem {text : String} (h : Visible text) {c : Char} (hc : ¬ ' ' ≤ c) :
    c ∉ text.toList := fun hmem => hc (h c hmem)

/-- Text of a line that begins with another character than a blank. -/
def Neat (title : String) : Prop := Visible title ∧ title.toList.head?.any (· ≠ ' ')

instance (title : String) : Decidable (Neat title) :=
  inferInstanceAs (Decidable (Visible title ∧ title.toList.head?.any (· ≠ ' ')))

theorem Neat.append {a b : String} (ha : Neat a) (hb : Visible b) : Neat (a ++ b) := by
  obtain ⟨hvisible, hhead⟩ := ha
  obtain ⟨c, hc, hne⟩ := (Option.any_eq_true _ _).mp hhead
  refine ⟨hvisible.append hb, (Option.any_eq_true _ _).mpr ⟨c, ?_, hne⟩⟩
  rw [String.toList_append, List.head?_append, hc]
  rfl

/-- Nothing is announced that would stand under the line. -/
def Ended (title : String) : Prop := title.toList.getLast? ≠ some ':'

instance (title : String) : Decidable (Ended title) :=
  inferInstanceAs (Decidable (title.toList.getLast? ≠ some ':'))

theorem Ended.append {a b : String} (ha : Ended a) (hb : Ended b) : Ended (a ++ b) := by
  rw [Ended, String.toList_append, List.getLast?_append]
  unfold Ended at ha hb
  cases hlast : b.toList.getLast? with
  | none => exact ha
  | some c => rwa [hlast] at hb

/-- All lines of the block are neat, and none of them announces what is missing. -/
inductive AllNeat : Block → Prop where
  | mk {title : String} {under : List Block} : Neat title → (under = [] → Ended title) →
      (∀ b ∈ under, AllNeat b) → AllNeat (.mk title under)

@[simp] theorem allNeat_mk {title : String} {under : List Block} : AllNeat (.mk title under) ↔
    Neat title ∧ (under = [] → Ended title) ∧ ∀ b ∈ under, AllNeat b :=
  ⟨fun h => by cases h with | mk h he hu => exact ⟨h, he, hu⟩, fun h => .mk h.1 h.2.1 h.2.2⟩

theorem visible_lines {b : Block} (h : AllNeat b) (depth : Nat) :
    ∀ line ∈ b.lines depth, Visible line := by
  induction h generalizing depth with
  | mk htitle _ _ ih =>
    rw [lines, List.forall_mem_cons, linesAll_eq_flatMap, List.forall_mem_flatMap]
    refine ⟨Visible.append ?_ htitle.1, fun b hb => ih b hb (depth + 1)⟩
    intro c hc
    rw [indent, String.toList_ofList] at hc
    exact List.eq_of_mem_replicate hc ▸ Char.le_refl ' '

/-- The last of the lines announces what is missing. -/
def Dangling (lines : List String) : Prop := ∃ front title, lines = front ++ [title ++ ":"]

theorem Dangling.append {lines : List String} (h : Dangling lines) (front : List String) :
    Dangling (front ++ lines) := by
  obtain ⟨fs, title, rfl⟩ := h
  exact ⟨front ++ fs, title, (List.append_assoc _ _ _).symm⟩

theorem Dangling.of_append {front lines : List String} (h : Dangling (front ++ lines))
    (hne : lines ≠ []) : Dangling lines := by
  obtain ⟨fs, title, heq⟩ := h
  obtain ⟨ls, line, rfl⟩ := (List.eq_nil_or_concat' lines).resolve_left hne
  rw [← List.append_assoc] at heq
  obtain ⟨-, hline⟩ := List.append_inj' heq rfl
  exact ⟨ls, title, by rw [hline]⟩

theorem ended_indent (depth : Nat) : Ended (indent depth) := by
  intro h
  rw [indent, String.toList_ofList] at h
  have hblank := List.eq_of_mem_replicate (List.mem_of_getLast? h)
  exact absurd hblank (by decide)

theorem not_dangling_linesAll {bs : List Block} {depth : Nat}
    (h : ∀ b ∈ bs, ¬ Dangling (b.lines depth)) : ¬ Dangling (linesAll bs depth) := by
  rcases List.eq_nil_or_concat' bs with rfl | ⟨bs, b, rfl⟩
  · rintro ⟨front, title, heq⟩
    simp at heq
  · rw [linesAll_append, linesAll_cons, linesAll_nil, List.append_nil]
    have hne : b.lines depth ≠ [] := by
      cases b
      exact List.cons_ne_nil _ _
    exact fun hd => h b (by simp) (hd.of_append hne)

/-- A block has lines under all that announce some. -/
theorem not_dangling_lines {b : Block} (h : AllNeat b) (depth : Nat) : ¬ Dangling (b.lines depth) := by
  induction h generalizing depth with
  | @mk title under _ hended _ ih =>
    rw [lines]
    by_cases hu : under = []
    · rintro ⟨front, title', heq⟩
      rw [hu, linesAll_nil] at heq
      obtain ⟨-, htitle⟩ := List.append_inj' ((List.nil_append _).trans heq) rfl
      refine (ended_indent depth).append (hended hu) ?_
      rw [List.singleton_inj.mp htitle, String.toList_append, List.getLast?_append]
      rfl
    · have hne : linesAll under (depth + 1) ≠ [] := by
        rw [← List.isEmpty_eq_false_iff, isEmpty_linesAll, List.isEmpty_eq_false_iff]
        exact hu
      have hdangling := not_dangling_linesAll fun b hb => ih b hb (depth + 1)
      intro (hd : Dangling ([indent depth ++ title] ++ linesAll under (depth + 1)))
      exact hdangling (hd.of_append hne)

/-- The number of blanks in front of a line. -/
def leading (line : String) : Nat := (line.toList.takeWhile (· = ' ')).length

theorem leading_indent {title : String} (h : Neat title) (depth : Nat) :
    leading (indent depth ++ title) = 2 * depth := by
  obtain ⟨c, hc, hne⟩ := (Option.any_eq_true _ _).mp h.2
  have hhead : ∀ d ∈ title.toList.head?, decide (d = ' ') = false := fun d hd => by
    rw [Option.mem_unique hd hc]
    simpa using hne
  have hblanks : ∀ c ∈ List.replicate (2 * depth) ' ', decide (c = ' ') = true := by simp
  rw [leading, indent, String.toList_append, String.toList_ofList,
    (Lexeme.takeWhile_boundary hblanks hhead).1, List.length_replicate]

/-- What follows begins less deep than `depth`. -/
def Shallow (depth : Nat) (rest : List String) : Prop := ∀ line ∈ rest.head?, leading line < 2 * depth

theorem shallow_nil (depth : Nat) : Shallow depth [] := nofun

theorem Shallow.mono {depth depth' : Nat} {rest : List String} (h : Shallow depth rest)
    (hle : depth ≤ depth') : Shallow depth' rest := fun line hline => by
  have := h line hline
  omega

theorem shallow_linesAll_append {bs : List Block} {depth : Nat} {rest : List String}
    (hb : ∀ b ∈ bs, AllNeat b) (hr : Shallow (depth + 1) rest) :
    Shallow (depth + 1) (linesAll bs depth ++ rest) := by
  cases bs with
  | nil => exact hr
  | cons b bs =>
    obtain ⟨title, under⟩ := b
    have htitle := (allNeat_mk.mp (hb _ List.mem_cons_self)).1
    rintro _ ⟨⟩
    rw [leading_indent htitle]
    omega

/-- A block begins as deep as it stands. -/
theorem not_shallow_lines {b : Block} {depth : Nat} {rest : List String} (hb : AllNeat b)
    (h : Shallow depth (b.lines depth ++ rest)) : False := by
  obtain ⟨title, under⟩ := b
  have hlt := h _ rfl
  rw [leading_indent (allNeat_mk.mp hb).1] at hlt
  exact lt_irrefl _ hlt

-- Blocks from their lines. What follows a block is no deeper than the block, so the lines under its
-- first line end where the depth says.
mutual

theorem lines_append_inj : ∀ {b c : Block} {depth : Nat} {rest rest' : List String},
    AllNeat b → AllNeat c → Shallow (depth + 1) rest → Shallow (depth + 1) rest' →
    b.lines depth ++ rest = c.lines depth ++ rest' → b = c ∧ rest = rest'
  | .mk title under, .mk title' under', depth, rest, rest', hb, hc, hr, hr', h => by
    obtain ⟨htitle, hunder⟩ := List.cons.inj h
    obtain ⟨rfl, hrest⟩ := linesAll_append_inj (allNeat_mk.mp hb).2.2 (allNeat_mk.mp hc).2.2
      hr hr' hunder
    obtain rfl := (String.append_right_inj _).mp htitle
    exact ⟨rfl, hrest⟩

theorem linesAll_append_inj : ∀ {bs cs : List Block} {depth : Nat} {rest rest' : List String},
    (∀ b ∈ bs, AllNeat b) → (∀ c ∈ cs, AllNeat c) → Shallow depth rest → Shallow depth rest' →
    linesAll bs depth ++ rest = linesAll cs depth ++ rest' → bs = cs ∧ rest = rest'
  | [], [], _, _, _, _, _, _, _, h => ⟨rfl, h⟩
  | [], c :: cs, depth, rest, rest', _, hc, hr, _, h => by
    rw [linesAll_nil, List.nil_append, linesAll_cons, List.append_assoc] at h
    exact (not_shallow_lines (hc c List.mem_cons_self) (h ▸ hr)).elim
  | b :: bs, [], depth, rest, rest', hb, _, _, hr', h => by
    rw [linesAll_nil, List.nil_append, linesAll_cons, List.append_assoc] at h
    exact (not_shallow_lines (hb b List.mem_cons_self) (h ▸ hr')).elim
  | b :: bs, c :: cs, depth, rest, rest', hb, hc, hr, hr', h => by
    obtain ⟨hb, hbs⟩ := List.forall_mem_cons.mp hb
    obtain ⟨hc, hcs⟩ := List.forall_mem_cons.mp hc
    rw [linesAll_cons, linesAll_cons, List.append_assoc, List.append_assoc] at h
    obtain ⟨rfl, hmore⟩ := lines_append_inj hb hc
      (shallow_linesAll_append hbs (hr.mono (Nat.le_succ depth)))
      (shallow_linesAll_append hcs (hr'.mono (Nat.le_succ depth))) h
    obtain ⟨rfl, hrest⟩ := linesAll_append_inj hbs hcs hr hr' hmore
    exact ⟨rfl, hrest⟩

end

/-- Lines that are those of neat blocks are so of no others. -/
theorem linesAll_inj {bs cs : List Block} {depth : Nat} (hb : ∀ b ∈ bs, AllNeat b)
    (hc : ∀ c ∈ cs, AllNeat c) (h : linesAll bs depth = linesAll cs depth) : bs = cs :=
  (linesAll_append_inj hb hc (shallow_nil depth) (shallow_nil depth) (congrArg (· ++ []) h)).1

end Block
end ArrowLang.Outline
