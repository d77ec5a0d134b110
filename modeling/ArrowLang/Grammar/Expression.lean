import ArrowLang.Decimal.Numeral
import ArrowLang.Grammar.Binding
import ArrowLang.Grammar.Window

/-! Reading expressions by binding precedence. The readings of the parts take the reading of a whole
operand as an argument, and `expression` ties them together to a given depth of nesting. Calls that
need no more frames than one made before them in the same function are not counted. -/
namespace ArrowLang.Reading

-- powers of naturals as they are here, whatever else is imported
attribute [local instance (2000)] instPowNat

open Decimal (digitsValue)

/-- Reads an expression whose operators bind at least as tightly as the precedence. -/
abbrev Sub := Precedence → Reading Expr

/-- The digits before the point, and those after it if there is a point. -/
def splitPoint (digits : List Char) : List Char × Option (List Char) :=
  match digits.span (· ≠ '.') with
  | (whole, []) => (whole, none)
  | (whole, _ :: fraction) => (whole, some fraction)

/-- The value of a number token: an integer of 32 bits, or a finite float if there is a point. -/
def number (t : Token) : Except Failure Literal :=
  match splitPoint t.lexeme.toList with
  | (whole, some fraction) =>
    let v := Decimal.ofParts false whole fraction 0
    if v.isFinite then .ok (.float v) else .error (.fault (.invalidNumber GrammarFault.floatRange) t)
  | (whole, none) =>
    let tooLarge := Failure.fault (.invalidNumber GrammarFault.integerRange) t
    if (whole.dropWhile (· = '0')).length > 10 then .error tooLarge
    else if whole.length > maxDigits then .error (.abort (.tooManyDigits whole.length))
    else if digitsValue whole < 2 ^ (31 : Nat) then .ok (.int (digitsValue whole))
    else .error tooLarge

/-- An expression in brackets, where newlines mean nothing. -/
def item (sub : Sub) : Reading Expr := call do
  skipNewlines
  let e ← sub .or
  skipNewlines
  return e

/-- Further items, each behind a comma. -/
def moreItems (sub : Sub) : Nat → Reading (List Expr)
  | 0 => return []
  | n + 1 => do
    if ← accept .comma then
      let e ← item sub
      let es ← moreItems sub n
      return e :: es
    else return []

/-- Parentheses around one item are no node of their own. -/
def group (sub : Sub) : Reading Expr := do
  let first ← item sub
  if ← check .comma then
    let others ← moreItems sub (← bound)
    let _ ← expect .rightParen "Expected ')' after tuple."
    return .of (.tuple (first :: others))
  else
    let _ ← expect .rightParen "Expected ')' after expression."
    return first

/-- The end of a list whose elements are read. -/
def closeList (elements : List Expr) : Reading Expr := do
  let _ ← expect .rightSquare "Expected ']' after list."
  return .of (.list elements)

def list (sub : Sub) : Reading Expr := do
  skipNewlines
  if ← check .rightSquare then closeList []
  else
    let first ← item sub
    let others ← moreItems sub (← bound)
    closeList (first :: others)

/-- The pattern that an expression stands for: a literal, a number with a minus, or a name. -/
def pattern? (e : Expr) : Option Pattern :=
  match e.node with
  | .literal l => some (.literal l)
  | .name t => some (.name t)
  | .unary o operand =>
    if o.kind = .minus then
      match operand.node with
      | .literal (.int n) => some (.literal (.int (-n)))
      | .literal (.float v) => some (.literal (.float v.neg))
      | _ => none
    else none
  | _ => none

def pattern (e : Expr) (start : Token) : Reading Pattern :=
  match pattern? e with
  | some p => return p
  | none => throw (.fault (.expectedToken .identifier "Expected pattern before '|'.") start)

/-- A guard whose first item is read: a condition if `?` follows it, or else the value. -/
def guard (sub : Sub) (first : Expr) : Reading Guard := do
  if ← accept .question then
    let value ← item sub
    return .mk first value
  else return .mk .always first

/-- The first item of a case, before its bar, and the token that it began with. -/
structure CaseHead where
  expr : Expr
  start : Token

/-- The guards of a case from its first item on. An item after a comma begins a guard, or else the
next case if a bar follows it. -/
def guards (sub : Sub) : Nat → Expr → Reading (List Guard × Option CaseHead)
  | 0, _ => return ([], none)
  | n + 1, first => do
    let g ← guard sub first
    if ← accept .comma then
      skipNewlines
      let start ← current
      let next ← item sub
      if ← check .pipe then return ([g], some ⟨next, start⟩)
      else
        let (gs, head) ← guards sub n next
        return (g :: gs, head)
    else return ([g], none)

def cases (sub : Sub) : Nat → CaseHead → Reading (List Case)
  | 0, _ => return []
  | n + 1, head => do
    let _ ← expect .pipe "Expected '|' after pattern."
    let p ← pattern head.expr head.start
    let first ← item sub
    let (gs, next) ← guards sub (← bound) first
    match next with
    | none => return [.mk p gs]
    | some head =>
      let cs ← cases sub n head
      return .mk p gs :: cs

def function (sub : Sub) : Reading Expr := do
  skipNewlines
  let start ← current
  let head ← item sub
  let cs ← cases sub (← bound) ⟨head, start⟩
  let _ ← expect .rightBrace "Expected '\x7d' after function."
  return .of (.function cs)

/-- The operand that the token before the window begins. -/
def operand (sub : Sub) (form : Operand) : Reading Expr := call do
  let t ← previous
  match form with
  | .number => match number t with
    | .ok l => return .of (.literal l)
    | .error e => throw e
  | .text => return .of (.literal (.text t.lexeme))
  | .boolean => return .of (.literal (.bool (t.kind == .trueWord)))
  | .name => return .of (.name t)
  | .unary =>
    let e ← sub .unary
    return .of (.unary t e)
  | .group => group sub
  | .list => list sub
  | .function => function sub

/-- The node that an operator makes of its two sides. -/
def join (operator : Token) (left right : Expr) : Expr :=
  .of <| match operator.kind with
    | .andWord => .logical operator left right
    | .orWord => .logical operator left right
    | .rightArrow => .apply operator right left
    | .leftArrow => .apply operator left right
    | _ => .binary operator left right

/-- How tightly the right side of an operator binds: of equal operators the first is the inner one
where they associate to the left, and the last where to the right. -/
def rightPrecedence (p : Precedence) : Associativity → Precedence
  | .left => p.next
  | .right => p

/-- The right side of an operator, and the node that it makes. -/
def rightSide (sub : Sub) (p : Precedence) (operator : Token) (left : Expr) : Reading Expr := call do
  let right ← sub p
  return join operator left right

/-- The operators after an operand, as long as they bind at least as tightly as `p`. -/
def operators (sub : Sub) (p : Precedence) : Nat → Expr → Reading Expr
  | 0, left => return left
  | n + 1, left => do
    let operator ← current
    let b := Binding.of operator.kind
    if p.level ≤ b.precedence.level then
      advance
      match b.associativity with
      | none => throw (.abort .notAnOperator)
      | some a =>
        let e ← rightSide sub (rightPrecedence b.precedence a) operator left
        operators sub p n e
    else return left

/-- The frames that it takes to look up how a token binds. -/
def lookupFrames : Nat := 4

/-- An expression that nests at most `depth` deep. -/
def expression : (depth : Nat) → Sub
  | 0, _ => throw (.tooDeep none)
  | depth + 1, p => call do
    advance
    let start ← previous
    need lookupFrames
    match (Binding.of start.kind).operand with
    | none => throw (.fault .expectedExpression start)
    | some form =>
      let left ← operand (expression depth) form
      operators (expression depth) p (← bound) left

end ArrowLang.Reading
