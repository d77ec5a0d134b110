import ArrowLang.Token.Kind
import ArrowLang.Tree.TypeTag

/-! Trees of expressions and declarations. Every expression is a node with a type tag. -/
namespace ArrowLang

inductive Pattern where
  | literal (value : Literal)
  | name (name : Token)
  | stray (value : Stray)
  deriving DecidableEq

mutual

inductive Expr where
  | mk (node : Node) (typ : TypeTag)

inductive Node where
  | literal (value : Literal)
  | name (name : Token)
  | unary (operator : Token) (operand : Expr)
  | binary (operator : Token) (left right : Expr)
  /-- `and` or `or`, which may leave their right side unevaluated. -/
  | logical (operator : Token) (left right : Expr)
  /-- Application, of whichever of its two spellings the operator token has. -/
  | apply (operator : Token) (func arg : Expr)
  | function (cases : List Case)
  | tuple (elements : List Expr)
  | list (elements : List Expr)
  | stray (value : Atom)

/-- A pattern with the guards that are tried in order once it matches. -/
inductive Case where
  | mk (pattern : Pattern) (guards : List Guard)

inductive Guard where
  | mk (condition value : Expr)

end

inductive Decl where
  | constant (name : Token) (typeName : Option Token) (value : Expr)
  | evaluated (expr : Expr)
  | stray (value : Stray)

namespace Expr

def node : Expr → Node
  | .mk node _ => node

def typ : Expr → TypeTag
  | .mk _ typ => typ

@[simp] theorem node_mk (n : Node) (t : TypeTag) : (Expr.mk n t).node = n := rfl
@[simp] theorem typ_mk (n : Node) (t : TypeTag) : (Expr.mk n t).typ = t := rfl

end Expr

def Case.pattern : Case → Pattern
  | .mk pattern _ => pattern

def Case.guards : Case → List Guard
  | .mk _ guards => guards

def Guard.condition : Guard → Expr
  | .mk condition _ => condition

def Guard.value : Guard → Expr
  | .mk _ value => value

/-- Literals have the type of their kind, every other node is of unknown type. -/
def Node.typ : Node → TypeTag
  | .literal l => .ofLiteral l
  | _ => .unknown

def Expr.of (node : Node) : Expr := .mk node node.typ

instance : Inhabited Expr := ⟨.of (.literal default)⟩
instance : Inhabited Decl := ⟨.evaluated default⟩

/-- The condition of a guard that is written without one. -/
def Expr.always : Expr := .of (.literal (.bool true))

end ArrowLang
