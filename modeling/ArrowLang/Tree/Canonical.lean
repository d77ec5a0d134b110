import ArrowLang.Stack
import ArrowLang.Tree.Expr

/-! The canonical text of a tree: every compound expression in its own brackets, application always
in its call form `f <- a`, one line for each declaration. Each form runs on the stack that its caller
leaves to it. -/
namespace ArrowLang

/-- Why a tree has no canonical text. -/
inductive FormatError where
  | noSourceForm (value : Decimal.Binary64)
  | notADeclaration (value : Stray)
  | unknownNode (value : Atom)
  | unknownPattern (value : Stray)
  /-- The stack has run out. -/
  | tooDeep
  deriving DecidableEq

def FormatError.message : FormatError → String
  | .noSourceForm v => "float literal has no source form: " ++ v.text
  | .notADeclaration v => "not a declaration: " ++ v.valueText
  | .unknownNode v => "unknown expression node: " ++ v.valueText
  | .unknownPattern v => "unknown pattern: " ++ v.valueText
  | .tooDeep => "maximum recursion depth exceeded"

abbrev Formatted := Except FormatError String

/-- A character of a string literal. A backslash stands for itself, since no literal that is read
holds one. -/
def escapeChar : Char → List Char
  | '\n' => ['\\', 'n']
  | '\t' => ['\\', 't']
  | '\r' => ['\\', 'r']
  | '"' => ['\\', '"']
  | c => [c]

def escapeText (s : String) : String := String.ofList (s.toList.flatMap escapeChar)

/-- A form that is `n` calls deep. -/
def nested {α : Type} (n : Nat) (form : Stack → Except FormatError α) (stack : Stack) :
    Except FormatError α :=
  if stack.holds n then form (stack.inside n) else throw .tooDeep

@[simp] theorem nested_none {α : Type} (n : Nat) (form : Stack → Except FormatError α) :
    nested n form none = form none := rfl

theorem nested_eq_ok {α : Type} {n : Nat} {form : Stack → Except FormatError α} {stack : Stack}
    {x : α} : nested n form stack = .ok x ↔ stack.holds n = true ∧ form (stack.inside n) = .ok x := by
  unfold nested
  cases stack.holds n with
  | true => simp
  | false => simp [throw, throwThe, MonadExceptOf.throw]

/-- The frames of a row of forms: the joining of their texts and the generator of these. -/
def rowFrames : Nat := 2

def Literal.format (l : Literal) : Stack → Formatted :=
  nested 1 fun stack => match l with
    | .int n => pure (intText n)
    | .float v => nested 1 (fun _ => match v.positional? with
      | some digits => pure digits
      | none => throw (.noSourceForm v)) stack
    | .bool b => pure (if b then "true" else "false")
    | .text s => nested rowFrames (fun _ => pure ("\"" ++ escapeText s ++ "\"")) stack

def Pattern.format (p : Pattern) : Stack → Formatted :=
  nested 1 fun stack => match p with
    | .literal l => l.format stack
    | .name t => pure t.lexeme
    | .stray v => throw (.unknownPattern v)

/-- Whether a guard is written without its condition. -/
def Guard.isPlain (g : Guard) : Bool :=
  match g.condition.node with
  | .literal (.bool true) => true
  | _ => false

mutual

def Expr.format (e : Expr) (stack : Stack) : Formatted :=
  match e with
  | .mk node _ => nested 1 node.format stack

def Node.format (n : Node) (stack : Stack) : Formatted :=
  match n with
  | .literal l => l.format stack
  | .name t => pure t.lexeme
  | .unary o e => do
    let e ← e.format stack
    pure ("(" ++ (if o.kind = .notWord then "not " else o.lexeme) ++ e ++ ")")
  | .binary o l r => do
    let l ← l.format stack
    let r ← r.format stack
    pure ("(" ++ l ++ " " ++ o.lexeme ++ " " ++ r ++ ")")
  | .logical o l r => do
    let l ← l.format stack
    let r ← r.format stack
    pure ("(" ++ l ++ " " ++ o.lexeme ++ " " ++ r ++ ")")
  | .apply _ f a => do
    let f ← f.format stack
    let a ← a.format stack
    pure ("(" ++ f ++ " <- " ++ a ++ ")")
  | .function cases => do
    let cases ← nested rowFrames (formatCases cases) stack
    pure ("\x7b" ++ ", ".intercalate cases ++ "\x7d")
  | .tuple elements => do
    let elements ← nested rowFrames (formatExprs elements) stack
    pure ("(" ++ ", ".intercalate elements ++ ")")
  | .list elements => do
    let elements ← nested rowFrames (formatExprs elements) stack
    pure ("[" ++ ", ".intercalate elements ++ "]")
  | .stray v => throw (.unknownNode v)

def Case.format (c : Case) (stack : Stack) : Formatted :=
  match c with
  | .mk pattern guards => nested 1 (fun stack => do
    let guards ← nested rowFrames (formatGuards guards) stack
    let pattern ← pattern.format stack
    pure (pattern ++ " | " ++ ", ".intercalate guards)) stack

def Guard.format (g : Guard) (stack : Stack) : Formatted :=
  match g with
  | .mk condition value => nested 1 (fun stack => do
    if (Guard.mk condition value).isPlain then value.format stack
    else
      let condition ← condition.format stack
      let value ← value.format stack
      pure (condition ++ " ? " ++ value)) stack

def formatExprs (es : List Expr) (stack : Stack) : Except FormatError (List String) :=
  match es with
  | [] => pure []
  | e :: es => do
    let e ← e.format stack
    let es ← formatExprs es stack
    pure (e :: es)

def formatCases (cs : List Case) (stack : Stack) : Except FormatError (List String) :=
  match cs with
  | [] => pure []
  | c :: cs => do
    let c ← c.format stack
    let cs ← formatCases cs stack
    pure (c :: cs)

def formatGuards (gs : List Guard) (stack : Stack) : Except FormatError (List String) :=
  match gs with
  | [] => pure []
  | g :: gs => do
    let g ← g.format stack
    let gs ← formatGuards gs stack
    pure (g :: gs)

end

def Decl.format (d : Decl) : Stack → Formatted :=
  nested 1 fun stack => match d with
    | .constant name typeName value => do
      let value ← value.format stack
      match typeName with
      | some t => pure (name.lexeme ++ " : " ++ t.lexeme ++ " = " ++ value)
      | none => pure (name.lexeme ++ " = " ++ value)
    | .evaluated e => e.format stack
    | .stray v => throw (.notADeclaration v)

/-- Declarations one on a line, each line ended. -/
def formatLines (stack : Stack) : List Decl → Formatted
  | [] => pure ""
  | d :: ds => do
    let d ← d.format stack
    let ds ← formatLines stack ds
    pure (d ++ "\n" ++ ds)

/-- The lines of declarations, joined to one text. -/
def formatDecls (ds : List Decl) : Stack → Formatted :=
  nested (1 + rowFrames) fun stack => formatLines stack ds

end ArrowLang
