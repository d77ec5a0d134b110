import ArrowLang.Proofs.Blocks

/-!
# Outlines are blocks

The outline of a tree is the lines of a block: a node with its fields under it, a field with a node
or a list of nodes under it. Where the stack runs out the outline breaks off, and it does so below the
line of a field.
-/
namespace ArrowLang

namespace Printed

open Outline.Block (Dangling)

@[simp] theorem all_append (lines : List String) (p : Printed) :
    all lines ++ p = ⟨lines ++ p.lines, p.complete⟩ := rfl

theorem append_of_broken {p : Printed} (h : p.complete = false) (q : Printed) : p ++ q = p := by
  change (if p.complete then _ else p) = p
  rw [h]
  rfl

protected theorem append_assoc (p q r : Printed) : p ++ q ++ r = p ++ (q ++ r) := by
  obtain ⟨ls, _ | _⟩ := p
  · rw [append_of_broken rfl, append_of_broken rfl, append_of_broken rfl]
  · obtain ⟨ls', _ | _⟩ := q
    · rfl
    · exact congrArg (Printed.mk · r.complete) (List.append_assoc _ _ _)

/-- Printing the lines has broken off below that of a field. -/
structure Breaks (p : Printed) (lines : List String) : Prop where
  broken : p.complete = false
  dangling : Dangling p.lines
  front : p.lines <+: lines

/-- Where the stack holds the first `n` calls, which print nothing yet, the lines are printed, all of
them or up to that of a field. -/
def Shows (n : Nat) (print : Stack → Printed) (lines : List String) : Prop :=
  ∀ stack, stack.holds n = true ∧ (print stack = all lines ∨ (print stack).Breaks lines) ∨
    stack.holds n = false ∧ print stack = ⟨[], false⟩

theorem Breaks.append {p : Printed} {ls : List String} (h : p.Breaks ls) (front : List String) :
    Breaks ⟨front ++ p.lines, p.complete⟩ (front ++ ls) where
  broken := h.broken
  dangling := h.dangling.append front
  front := (List.prefix_append_right_inj front).mpr h.front

section
variable {m n : Nat} {f g : Stack → Printed} {ls ls' : List String}

theorem shows_all (lines : List String) : Shows 0 (fun _ => all lines) lines :=
  fun stack => .inl ⟨stack.holds_zero, .inl rfl⟩

theorem Shows.congr (h : Shows n f ls) (hf : ∀ stack, g stack = f stack) (hl : ls' = ls) :
    Shows n g ls' := by
  rwa [funext hf, hl]

theorem Shows.call (h : Shows n f ls) : Shows (n + 1) (call f) ls := by
  intro stack
  unfold Printed.call
  by_cases hs : stack.holds 1 = true
  · rw [if_pos hs, Stack.holds_add hs]
    exact h (stack.inside 1)
  · have hn : stack.holds (n + 1) = false :=
      Bool.eq_false_iff.mpr fun hn => hs (Stack.holds_of_le hn (Nat.le_add_left 1 n))
    rw [if_neg hs]
    exact .inr ⟨hn, rfl⟩

/-- The second one begins with no more calls than the first one, which are held if it is printed. -/
theorem Shows.append (hf : Shows n f ls) (hg : Shows m g ls') (hm : m ≤ n) :
    Shows n (fun stack => f stack ++ g stack) (ls ++ ls') := by
  intro stack
  dsimp only
  rcases hf stack with ⟨hs, hall | hbreaks⟩ | ⟨hs, hnone⟩
  · refine .inl ⟨hs, ?_⟩
    rw [hall, all_append]
    rcases hg stack with ⟨-, hg | hbreaks⟩ | ⟨hno, -⟩
    · exact .inl (by rw [hg]; rfl)
    · exact .inr (hbreaks.append ls)
    · rw [Stack.holds_of_le hs hm] at hno
      cases hno
  · rw [append_of_broken hbreaks.broken]
    exact .inl ⟨hs, .inr { hbreaks with front := hbreaks.front.trans (List.prefix_append _ _) }⟩
  · rw [hnone, append_of_broken rfl]
    exact .inr ⟨hs, rfl⟩

/-- Behind the line of a field no call is missed without a trace. -/
theorem Shows.below (h : Shows n f ls) (front : List String) (depth : Nat) (name : String) :
    Shows 0 (fun stack => all (front ++ [Outline.below depth name]) ++ f stack)
      (front ++ Outline.below depth name :: ls) := by
  intro stack
  refine .inl ⟨stack.holds_zero, ?_⟩
  dsimp only
  rw [all_append]
  rw [List.append_cons front _ ls]
  rcases h stack with ⟨-, h | hbreaks⟩ | ⟨-, h⟩
  · exact .inl (by rw [h]; rfl)
  · exact .inr (hbreaks.append _)
  · rw [h, List.append_nil]
    exact .inr ⟨rfl, ⟨front, Outline.indent depth ++ "  " ++ name, rfl⟩, List.prefix_append _ _⟩

end

end Printed

namespace Outline

open Block (linesAll)

def nodeBlock (name label : String) (fields : List Block) : Block := .mk (name ++ label) fields

def fieldBlock (name value : String) : Block := .mk (name ++ ": " ++ value) []

def belowBlock (name : String) (bs : List Block) : Block := .mk (name ++ ":") bs

def tokenBlock (name : String) (t : Token) : Block := fieldBlock name (Text.quoted t.lexeme)

def listBlock (name : String) (bs : List Block) : Block :=
  if bs.isEmpty then fieldBlock name "[]" else belowBlock name bs

theorem indent_succ (depth : Nat) : indent (depth + 1) = indent depth ++ "  " :=
  String.toList_inj.mp (by simp [indent, Nat.mul_add, ← List.replicate_append_replicate])

section
variable (name : String) (bs : List Block) (depth : Nat)

@[simp] theorem lines_nodeBlock (label : String) :
    (nodeBlock name label bs).lines depth = head depth name label :: linesAll bs (depth + 1) := by
  rw [nodeBlock, Block.lines, head, String.append_assoc]

@[simp] theorem lines_fieldBlock (value : String) :
    (fieldBlock name value).lines (depth + 1) = [field depth name value] := by
  simp only [fieldBlock, field, Block.lines, indent_succ, String.append_assoc, Block.linesAll_nil]

@[simp] theorem lines_belowBlock :
    (belowBlock name bs).lines (depth + 1) = below depth name :: linesAll bs (depth + 2) := by
  simp only [belowBlock, below, Block.lines, indent_succ, String.append_assoc]

@[simp] theorem lines_tokenBlock (t : Token) :
    (tokenBlock name t).lines (depth + 1) = [token depth name t] :=
  lines_fieldBlock name depth _

theorem shows_listField {n : Nat} {items : Stack → Printed}
    (h : Printed.Shows n items (linesAll bs (depth + 2))) :
    Printed.Shows 0 (fun stack => listField depth name bs.isEmpty (items stack))
      ((listBlock name bs).lines (depth + 1)) := by
  unfold listField listBlock
  split
  · rw [lines_fieldBlock]
    exact Printed.shows_all _
  · rw [lines_belowBlock]
    exact h.below [] depth name

end

section
variable {name label value : String} {bs : List Block}

@[simp] theorem nodeBlock_inj {name' label' : String} {cs : List Block} :
    nodeBlock name label bs = nodeBlock name' label' cs ↔ name ++ label = name' ++ label' ∧ bs = cs := by
  rw [nodeBlock, nodeBlock, Block.mk.injEq]

@[simp] theorem fieldBlock_inj {value' : String} :
    fieldBlock name value = fieldBlock name value' ↔ value = value' := by
  simp [fieldBlock]

@[simp] theorem belowBlock_inj {cs : List Block} :
    belowBlock name bs = belowBlock name cs ↔ bs = cs := by
  simp [belowBlock]

/-- An empty list is on the line of its field. -/
@[simp] theorem listBlock_inj {cs : List Block} :
    listBlock name bs = listBlock name cs ↔ bs = cs := by
  have hne (cs : List Block) : fieldBlock name "[]" ≠ belowBlock name cs := by
    simp [fieldBlock, belowBlock, String.append_assoc]
  cases bs <;> cases cs <;> simp [listBlock, hne, (hne _).symm]

end

end Outline

open Outline (Block typeLabel nodeBlock fieldBlock belowBlock tokenBlock listBlock)

def Literal.block (l : Literal) (label : String) : Block :=
  nodeBlock l.nodeName label [fieldBlock "value" l.valueText]

def Atom.block (a : Atom) : Block := .mk (a.kindName ++ ": " ++ a.valueText) []

def Stray.block : Stray → Block
  | .atom a => a.block
  | .literal l => l.block ""

/-- The field that holds a pattern, if there is one. -/
def Pattern.field : Pattern → List Block
  | .literal l => [belowBlock "pattern" [nodeBlock "LiteralPattern" "" [belowBlock "literal" [l.block ""]]]]
  | .name t => [belowBlock "pattern" [nodeBlock "IdentifierPattern" "" [tokenBlock "name" t]]]
  | .stray (.literal l) => [belowBlock "pattern" [l.block ""]]
  | .stray (.atom .null) => []
  | .stray (.atom a) => [fieldBlock "pattern" a.valueText]

mutual

def Expr.block : Expr → Block
  | .mk n t => n.block (typeLabel t)

def Node.block : Node → String → Block
  | .literal l, label => l.block label
  | .name t, label => nodeBlock "ConstantExpr" label [tokenBlock "name" t]
  | .unary o e, label =>
    nodeBlock "UnaryExpr" label [tokenBlock "operator" o, belowBlock "operand" [e.block]]
  | .binary o l r, label =>
    nodeBlock "BinaryExpr" label
      [tokenBlock "operator" o, belowBlock "left" [l.block], belowBlock "right" [r.block]]
  | .logical o l r, label =>
    nodeBlock "LogicalExpr" label
      [tokenBlock "operator" o, belowBlock "left" [l.block], belowBlock "right" [r.block]]
  | .apply o f a, label =>
    nodeBlock "ApplyExpr" label
      [tokenBlock "operator" o, belowBlock "func" [f.block], belowBlock "arg" [a.block]]
  | .function cs, label => nodeBlock "FuncExpr" label [listBlock "cases" (caseBlocks cs)]
  | .tuple es, label => nodeBlock "TupleExpr" label [listBlock "elements" (exprBlocks es)]
  | .list es, label => nodeBlock "ListExpr" label [listBlock "elements" (exprBlocks es)]
  | .stray a, _ => a.block

def Case.block : Case → Block
  | .mk p gs => nodeBlock "FuncCase" "" (p.field ++ [listBlock "guards" (guardBlocks gs)])

def Guard.block : Guard → Block
  | .mk c v =>
    nodeBlock "FuncGuard" "" [belowBlock "condition" [c.block], belowBlock "value" [v.block]]

def exprBlocks : List Expr → List Block
  | [] => []
  | e :: es => e.block :: exprBlocks es

def caseBlocks : List Case → List Block
  | [] => []
  | c :: cs => c.block :: caseBlocks cs

def guardBlocks : List Guard → List Block
  | [] => []
  | g :: gs => g.block :: guardBlocks gs

end

theorem isEmpty_exprBlocks (es : List Expr) : (exprBlocks es).isEmpty = es.isEmpty := by
  cases es <;> rfl

theorem isEmpty_caseBlocks (cs : List Case) : (caseBlocks cs).isEmpty = cs.isEmpty := by
  cases cs <;> rfl

theorem isEmpty_guardBlocks (gs : List Guard) : (guardBlocks gs).isEmpty = gs.isEmpty := by
  cases gs <;> rfl

@[simp] theorem exprBlocks_eq_map (es : List Expr) : exprBlocks es = es.map Expr.block := by
  induction es with
  | nil => rfl
  | cons e es ih => simp [exprBlocks, ih]

@[simp] theorem caseBlocks_eq_map (cs : List Case) : caseBlocks cs = cs.map Case.block := by
  induction cs with
  | nil => rfl
  | cons c cs ih => simp [caseBlocks, ih]

@[simp] theorem guardBlocks_eq_map (gs : List Guard) : guardBlocks gs = gs.map Guard.block := by
  induction gs with
  | nil => rfl
  | cons g gs ih => simp [guardBlocks, ih]

section
variable (o : Token) (x l r : Expr)

@[simp] theorem Expr.block_of_literal (l : Literal) :
    (Expr.of (.literal l)).block = l.block (typeLabel (.ofLiteral l)) := rfl

@[simp] theorem Expr.block_of_name (t : Token) : (Expr.of (.name t)).block =
    nodeBlock "ConstantExpr" (typeLabel .unknown) [tokenBlock "name" t] := rfl

@[simp] theorem Expr.block_of_unary : (Expr.of (.unary o x)).block =
    nodeBlock "UnaryExpr" (typeLabel .unknown)
      [tokenBlock "operator" o, belowBlock "operand" [x.block]] := rfl

@[simp] theorem Expr.block_of_binary : (Expr.of (.binary o l r)).block =
    nodeBlock "BinaryExpr" (typeLabel .unknown)
      [tokenBlock "operator" o, belowBlock "left" [l.block], belowBlock "right" [r.block]] := rfl

@[simp] theorem Expr.block_of_logical : (Expr.of (.logical o l r)).block =
    nodeBlock "LogicalExpr" (typeLabel .unknown)
      [tokenBlock "operator" o, belowBlock "left" [l.block], belowBlock "right" [r.block]] := rfl

@[simp] theorem Expr.block_of_apply : (Expr.of (.apply o l r)).block =
    nodeBlock "ApplyExpr" (typeLabel .unknown)
      [tokenBlock "operator" o, belowBlock "func" [l.block], belowBlock "arg" [r.block]] := rfl

@[simp] theorem Expr.block_of_function (cs : List Case) : (Expr.of (.function cs)).block =
    nodeBlock "FuncExpr" (typeLabel .unknown) [listBlock "cases" (cs.map Case.block)] := by
  rw [← caseBlocks_eq_map]
  rfl

@[simp] theorem Expr.block_of_tuple (es : List Expr) : (Expr.of (.tuple es)).block =
    nodeBlock "TupleExpr" (typeLabel .unknown) [listBlock "elements" (es.map Expr.block)] := by
  rw [← exprBlocks_eq_map]
  rfl

@[simp] theorem Expr.block_of_list (es : List Expr) : (Expr.of (.list es)).block =
    nodeBlock "ListExpr" (typeLabel .unknown) [listBlock "elements" (es.map Expr.block)] := by
  rw [← exprBlocks_eq_map]
  rfl

end

@[simp] theorem Case.block_mk (p : Pattern) (gs : List Guard) : (Case.mk p gs).block =
    nodeBlock "FuncCase" "" (p.field ++ [listBlock "guards" (gs.map Guard.block)]) := by
  rw [← guardBlocks_eq_map]
  rfl

@[simp] theorem Guard.block_mk (c v : Expr) : (Guard.mk c v).block =
    nodeBlock "FuncGuard" "" [belowBlock "condition" [c.block], belowBlock "value" [v.block]] := rfl

def Decl.block : Decl → Block
  | .constant n t e =>
    nodeBlock "ConstantDecl" "" (tokenBlock "name" n :: (t.map (tokenBlock "type_name")).toList ++
      [belowBlock "value" [e.block]])
  | .evaluated e => nodeBlock "EvaluatedDecl" "" [belowBlock "expr" [e.block]]
  | .stray v => v.block

namespace Outline

open Block (linesAll)
open Printed (all Shows shows_all)

theorem literal_eq_lines (l : Literal) (depth : Nat) (label : String) :
    literal l depth label = (l.block label).lines depth := by
  simp [literal, Literal.block]

theorem atom_eq_lines (a : Atom) (depth : Nat) : atom a depth = a.block.lines depth := by
  simp only [atom, Atom.block, Block.lines, String.append_assoc, Block.linesAll_nil]

theorem stray_eq_lines (v : Stray) (depth : Nat) : stray v depth "" = v.block.lines depth := by
  cases v with
  | atom a => exact atom_eq_lines a depth
  | literal l => exact literal_eq_lines l depth ""

theorem shows_literal (l : Literal) (depth : Nat) (label : String) :
    Shows 0 (fun _ => all (literal l depth label)) ((l.block label).lines depth) := by
  rw [literal_eq_lines]
  exact shows_all _

theorem shows_patternField (p : Pattern) (depth : Nat) :
    Shows 0 (patternField p depth) (linesAll p.field (depth + 1)) := by
  cases p with
  | literal l =>
    refine ((((shows_literal l (depth + 4) "").call.below [head (depth + 2) "LiteralPattern" ""]
      (depth + 2) "literal").call).below [] depth "pattern").congr (fun _ => rfl) ?_
    simp [Pattern.field]
  | name t =>
    refine (((shows_all [head (depth + 2) "IdentifierPattern" "", token (depth + 2) "name" t]).call).below
      [] depth "pattern").congr (fun _ => rfl) ?_
    simp [Pattern.field]
  | stray v =>
    cases v with
    | literal l =>
      refine ((shows_literal l (depth + 2) "").call.below [] depth "pattern").congr (fun _ => rfl) ?_
      simp [Pattern.field]
    | atom a => cases a <;> exact (shows_all _).congr (fun _ => rfl) (by simp [Pattern.field])

/-- The two sides of a node, each below the line of its field. -/
theorem shows_sides {f g : Stack → Printed} {ls ls' : List String} (hf : Shows 1 f ls)
    (hg : Shows 1 g ls') (depth : Nat) (front : List String) (left right : String) :
    Shows 0 (fun stack => all (front ++ [below depth left]) ++ f stack ++ all [below depth right] ++
      g stack) (front ++ below depth left :: ls ++ below depth right :: ls') := by
  refine ((hf.append (hg.below [] depth right) (Nat.zero_le 1)).below front depth left).congr
    (fun stack => ?_) (by simp)
  rw [Printed.append_assoc, Printed.append_assoc]
  rfl

mutual

theorem shows_expr (e : Expr) (depth : Nat) : Shows 1 (expr e depth) (e.block.lines depth) := by
  cases e with
  | mk n t => exact (shows_node n depth (typeLabel t)).call.congr (fun _ => by rw [expr]) rfl

theorem shows_node (n : Node) (depth : Nat) (label : String) :
    Shows 0 (node n depth label) ((n.block label).lines depth) := by
  cases n with
  | literal l => exact (shows_literal l depth label).congr (fun _ => by rw [node]) rfl
  | name t => exact (shows_all _).congr (fun _ => by rw [node]) (by simp [Node.block])
  | unary o e =>
    exact ((shows_expr e (depth + 2)).below [head depth "UnaryExpr" label, token depth "operator" o]
      depth "operand").congr (fun _ => by rw [node]; rfl) (by simp [Node.block])
  | binary o l r =>
    exact (shows_sides (shows_expr l (depth + 2)) (shows_expr r (depth + 2)) depth
      [head depth "BinaryExpr" label, token depth "operator" o] "left" "right").congr
      (fun _ => by rw [node]; rfl) (by simp [Node.block])
  | logical o l r =>
    exact (shows_sides (shows_expr l (depth + 2)) (shows_expr r (depth + 2)) depth
      [head depth "LogicalExpr" label, token depth "operator" o] "left" "right").congr
      (fun _ => by rw [node]; rfl) (by simp [Node.block])
  | apply o f a =>
    exact (shows_sides (shows_expr f (depth + 2)) (shows_expr a (depth + 2)) depth
      [head depth "ApplyExpr" label, token depth "operator" o] "func" "arg").congr
      (fun _ => by rw [node]; rfl) (by simp [Node.block])
  | function cs =>
    obtain ⟨n, -, h⟩ := shows_cases cs (depth + 2)
    exact ((shows_all [head depth "FuncExpr" label]).append (shows_listField "cases" _ depth h)
      (Nat.le_refl 0)).congr (fun _ => by rw [node, isEmpty_caseBlocks]) (by simp [Node.block])
  | tuple es =>
    obtain ⟨n, -, h⟩ := shows_exprs es (depth + 2)
    exact ((shows_all [head depth "TupleExpr" label]).append (shows_listField "elements" _ depth h)
      (Nat.le_refl 0)).congr (fun _ => by rw [node, isEmpty_exprBlocks]) (by simp [Node.block])
  | list es =>
    obtain ⟨n, -, h⟩ := shows_exprs es (depth + 2)
    exact ((shows_all [head depth "ListExpr" label]).append (shows_listField "elements" _ depth h)
      (Nat.le_refl 0)).congr (fun _ => by rw [node, isEmpty_exprBlocks]) (by simp [Node.block])
  | stray a => exact (shows_all _).congr (fun _ => by rw [node]) (atom_eq_lines a depth).symm

theorem shows_case (c : Case) (depth : Nat) : Shows 1 (case c depth "") (c.block.lines depth) := by
  cases c with
  | mk p gs =>
    obtain ⟨n, -, h⟩ := shows_guards gs (depth + 2)
    exact (((shows_all [head depth "FuncCase" ""]).append (shows_patternField p depth)
      (Nat.le_refl 0)).append (shows_listField "guards" _ depth h) (Nat.le_refl 0)).call.congr
      (fun _ => by rw [case, isEmpty_guardBlocks]) (by simp [Case.block])

theorem shows_guard (g : Guard) (depth : Nat) : Shows 1 (guard g depth "") (g.block.lines depth) := by
  cases g with
  | mk c v =>
    exact (shows_sides (shows_expr c (depth + 2)) (shows_expr v (depth + 2)) depth
      [head depth "FuncGuard" ""] "condition" "value").call.congr (fun _ => by rw [guard]; rfl)
      (by simp [Guard.block])

theorem shows_exprs (es : List Expr) (depth : Nat) :
    ∃ n ≤ 2, Shows n (exprs es depth) (linesAll (exprBlocks es) depth) := by
  cases es with
  | nil => exact ⟨0, Nat.zero_le 2, shows_all []⟩
  | cons e es =>
    obtain ⟨n, hn, h⟩ := shows_exprs es depth
    exact ⟨2, Nat.le_refl 2, ((shows_expr e depth).call.append h hn).congr (fun _ => by rw [exprs])
      (by rw [exprBlocks, Block.linesAll_cons])⟩

theorem shows_cases (cs : List Case) (depth : Nat) :
    ∃ n ≤ 1, Shows n (cases cs depth) (linesAll (caseBlocks cs) depth) := by
  cases cs with
  | nil => exact ⟨0, Nat.zero_le 1, shows_all []⟩
  | cons c cs =>
    obtain ⟨n, hn, h⟩ := shows_cases cs depth
    exact ⟨1, Nat.le_refl 1, ((shows_case c depth).append h hn).congr (fun _ => by rw [cases])
      (by rw [caseBlocks, Block.linesAll_cons])⟩

theorem shows_guards (gs : List Guard) (depth : Nat) :
    ∃ n ≤ 1, Shows n (guards gs depth) (linesAll (guardBlocks gs) depth) := by
  cases gs with
  | nil => exact ⟨0, Nat.zero_le 1, shows_all []⟩
  | cons g gs =>
    obtain ⟨n, hn, h⟩ := shows_guards gs depth
    exact ⟨1, Nat.le_refl 1, ((shows_guard g depth).append h hn).congr (fun _ => by rw [guards])
      (by rw [guardBlocks, Block.linesAll_cons])⟩

end

theorem shows_decl (d : Decl) (depth : Nat) : Shows 1 (decl d depth "") (d.block.lines depth) := by
  cases d with
  | constant n t e =>
    refine (((shows_expr e (depth + 2)).below (head depth "ConstantDecl" "" :: token depth "name" n ::
      (t.map (token depth "type_name")).toList) depth "value").call).congr (fun _ => rfl) ?_
    cases t <;> simp [Decl.block]
  | evaluated e =>
    exact ((shows_expr e (depth + 2)).below [head depth "EvaluatedDecl" ""] depth "expr").call.congr
      (fun _ => rfl) (by simp [Decl.block])
  | stray v => exact (shows_all _).call.congr (fun _ => rfl) (stray_eq_lines v depth).symm

end Outline
end ArrowLang
