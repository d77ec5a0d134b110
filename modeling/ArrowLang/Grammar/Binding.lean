import ArrowLang.Token.Kind

/-! How each token kind may begin an expression and how tightly it joins two. -/
namespace ArrowLang

/-- From the loosest to the tightest. -/
inductive Precedence where
  | none | or | and | equality | comparison | term | factor | power | apply | unary | primary
  deriving DecidableEq, Repr

namespace Precedence

def level : Precedence → Nat
  | .none => 0
  | .or => 1
  | .and => 2
  | .equality => 3
  | .comparison => 4
  | .term => 5
  | .factor => 6
  | .power => 7
  | .apply => 8
  | .unary => 9
  | .primary => 10

/-- One level tighter, and the tightest again from the tightest. -/
def next : Precedence → Precedence
  | .none => .or
  | .or => .and
  | .and => .equality
  | .equality => .comparison
  | .comparison => .term
  | .term => .factor
  | .factor => .power
  | .power => .apply
  | .apply => .unary
  | .unary => .primary
  | .primary => .primary

theorem level_next (p : Precedence) : p.next.level = min (p.level + 1) 10 := by
  cases p <;> rfl

end Precedence

/-- What an expression may begin with. -/
inductive Operand where
  | number | text | boolean | name | group | list | function | unary
  deriving DecidableEq, Repr

/-- On which side of an operator the same operator may stand without brackets. -/
inductive Associativity where
  | left | right
  deriving DecidableEq, Repr

/-- What a token kind does in an expression. A kind without an entry can neither begin nor
continue one. -/
structure Binding where
  precedence : Precedence
  operand : Option Operand
  associativity : Option Associativity
  deriving DecidableEq, Repr

namespace Binding

def none : Binding := ⟨.none, .none, .none⟩
def begins (operand : Operand) : Binding := ⟨.none, some operand, .none⟩
def left (precedence : Precedence) : Binding := ⟨precedence, .none, some .left⟩
def right (precedence : Precedence) : Binding := ⟨precedence, .none, some .right⟩

def of : TokenKind → Binding
  | .number => begins .number
  | .string => begins .text
  | .trueWord => begins .boolean
  | .falseWord => begins .boolean
  | .identifier => begins .name
  | .leftParen => begins .group
  | .leftSquare => begins .list
  | .leftBrace => begins .function
  | .notWord => begins .unary
  | .minus => ⟨.term, some .unary, some .left⟩
  | .plus => left .term
  | .plusPlus => left .term
  | .colon => right .term
  | .slash => left .factor
  | .star => left .factor
  | .percent => left .factor
  | .caret => left .power
  | .equalEqual => left .equality
  | .bangEqual => left .equality
  | .greater => left .comparison
  | .greaterEqual => left .comparison
  | .less => left .comparison
  | .lessEqual => left .comparison
  | .leftArrow => right .apply
  | .rightArrow => left .apply
  | .andWord => left .and
  | .orWord => left .or
  | _ => none

end Binding
end ArrowLang
