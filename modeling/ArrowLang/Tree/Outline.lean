import ArrowLang.Stack
import ArrowLang.Tree.Expr

/-! The outline of a tree: a line for each node and field, two blanks deeper for each level. Each node
that is printed is a call, and where the stack runs out the outline breaks off. -/
namespace ArrowLang

/-- The lines that were printed, and whether these are all. -/
structure Printed where
  lines : List String
  complete : Bool

namespace Printed

def all (lines : List String) : Printed := ⟨lines, true⟩

/-- Prints the one and then the other, unless the one breaks off. -/
def append (p q : Printed) : Printed := if p.complete then ⟨p.lines ++ q.lines, q.complete⟩ else p

instance : Append Printed := ⟨append⟩

/-- What a call prints. -/
def call (print : Stack → Printed) (stack : Stack) : Printed :=
  if stack.holds 1 then print (stack.inside 1) else ⟨[], false⟩

end Printed

namespace Outline

open Printed (all call)

def indent (depth : Nat) : String := String.ofList (List.replicate (2 * depth) ' ')

/-- The first line of a node. -/
def head (depth : Nat) (name label : String) : String := indent depth ++ name ++ label

/-- A field with its value on the same line. -/
def field (depth : Nat) (name value : String) : String :=
  indent depth ++ "  " ++ name ++ ": " ++ value

/-- The line above a field that holds a node. -/
def below (depth : Nat) (name : String) : String := indent depth ++ "  " ++ name ++ ":"

def token (depth : Nat) (name : String) (t : Token) : String :=
  field depth name (Text.quoted t.lexeme)

def literal (l : Literal) (depth : Nat) (label : String) : List String :=
  [head depth l.nodeName label, field depth "value" l.valueText]

/-- A bare value, which shows its kind and no label. -/
def atom (a : Atom) (depth : Nat) : List String :=
  [indent depth ++ a.kindName ++ ": " ++ a.valueText]

def stray (v : Stray) (depth : Nat) (label : String) : List String :=
  match v with
  | .atom a => atom a depth
  | .literal l => literal l depth label

def pattern (p : Pattern) (depth : Nat) (label : String) : Stack → Printed :=
  call fun stack => match p with
    | .literal l =>
      all [head depth "LiteralPattern" label, below depth "literal"] ++
        call (fun _ => all (literal l (depth + 2) "")) stack
    | .name t => all [head depth "IdentifierPattern" label, token depth "name" t]
    | .stray v => all (stray v depth label)

/-- A pattern as a field; a bare value is on the line of the field, and an absent one has none. -/
def patternField (p : Pattern) (depth : Nat) (stack : Stack) : Printed :=
  match p with
  | .stray (.atom .null) => all []
  | .stray (.atom a) => all [field depth "pattern" a.valueText]
  | _ => all [below depth "pattern"] ++ pattern p (depth + 2) "" stack

def typeLabel (t : TypeTag) : String := " : " ++ t.name

/-- A field that holds a list, given what its items print. -/
def listField (depth : Nat) (name : String) (isEmpty : Bool) (items : Printed) : Printed :=
  if isEmpty then all [field depth name "[]"] else all [below depth name] ++ items

mutual

def expr (e : Expr) (depth : Nat) (stack : Stack) : Printed :=
  match e with
  | .mk n t => call (node n depth (typeLabel t)) stack

def node (n : Node) (depth : Nat) (label : String) (stack : Stack) : Printed :=
  match n with
  | .literal l => all (literal l depth label)
  | .name t => all [head depth "ConstantExpr" label, token depth "name" t]
  | .unary o e =>
    all [head depth "UnaryExpr" label, token depth "operator" o, below depth "operand"] ++
      expr e (depth + 2) stack
  | .binary o l r =>
    all [head depth "BinaryExpr" label, token depth "operator" o, below depth "left"] ++
      expr l (depth + 2) stack ++ all [below depth "right"] ++ expr r (depth + 2) stack
  | .logical o l r =>
    all [head depth "LogicalExpr" label, token depth "operator" o, below depth "left"] ++
      expr l (depth + 2) stack ++ all [below depth "right"] ++ expr r (depth + 2) stack
  | .apply o f a =>
    all [head depth "ApplyExpr" label, token depth "operator" o, below depth "func"] ++
      expr f (depth + 2) stack ++ all [below depth "arg"] ++ expr a (depth + 2) stack
  | .function cs =>
    all [head depth "FuncExpr" label] ++
      listField depth "cases" cs.isEmpty (cases cs (depth + 2) stack)
  | .tuple es =>
    all [head depth "TupleExpr" label] ++
      listField depth "elements" es.isEmpty (exprs es (depth + 2) stack)
  | .list es =>
    all [head depth "ListExpr" label] ++
      listField depth "elements" es.isEmpty (exprs es (depth + 2) stack)
  | .stray a => all (atom a depth)

def case (c : Case) (depth : Nat) (label : String) (stack : Stack) : Printed :=
  match c with
  | .mk p gs => call (fun stack =>
    all [head depth "FuncCase" label] ++ patternField p depth stack ++
      listField depth "guards" gs.isEmpty (guards gs (depth + 2) stack)) stack

def guard (g : Guard) (depth : Nat) (label : String) (stack : Stack) : Printed :=
  match g with
  | .mk c v => call (fun stack =>
    all [head depth "FuncGuard" label, below depth "condition"] ++ expr c (depth + 2) stack ++
      all [below depth "value"] ++ expr v (depth + 2) stack) stack

/-- The items of a list. An expression among them is a call that calls for its node. -/
def exprs (es : List Expr) (depth : Nat) (stack : Stack) : Printed :=
  match es with
  | [] => all []
  | e :: es => call (expr e depth) stack ++ exprs es depth stack

def cases (cs : List Case) (depth : Nat) (stack : Stack) : Printed :=
  match cs with
  | [] => all []
  | c :: cs => case c depth "" stack ++ cases cs depth stack

def guards (gs : List Guard) (depth : Nat) (stack : Stack) : Printed :=
  match gs with
  | [] => all []
  | g :: gs => guard g depth "" stack ++ guards gs depth stack

end

def decl (d : Decl) (depth : Nat) (label : String) : Stack → Printed :=
  call fun stack => match d with
    | .constant n t e =>
      all (head depth "ConstantDecl" label :: token depth "name" n ::
        (t.map (token depth "type_name")).toList ++ [below depth "value"]) ++
          expr e (depth + 2) stack
    | .evaluated e =>
      all [head depth "EvaluatedDecl" label, below depth "expr"] ++ expr e (depth + 2) stack
    | .stray v => all (stray v depth label)

end Outline
end ArrowLang
