/-! The kinds of token and their spellings. -/
namespace ArrowLang

inductive TokenKind where
  | leftBrace | rightBrace | leftSquare | rightSquare | leftParen | rightParen
  | slash | star | caret | percent | colon | comma | pipe | question
  | plus | plusPlus | equal | equalEqual | bang | bangEqual
  | less | lessEqual | leftArrow | greater | greaterEqual | minus | rightArrow
  | andWord | orWord | notWord | trueWord | falseWord
  | number | string | identifier
  | newline | endOfText
  /-- Fills the window of the grammar before the first token. -/
  | absent
  deriving DecidableEq, Repr

/-- A token ends just before column `col` of line `line`. Lines count from one. -/
structure Token where
  kind : TokenKind
  lexeme : String
  line : Nat
  col : Nat
  deriving DecidableEq, Repr

def Token.absent : Token := ⟨.absent, "", 0, 0⟩

namespace TokenKind

def keyword? : String → Option TokenKind
  | "and" => some .andWord
  | "or" => some .orWord
  | "not" => some .notWord
  | "true" => some .trueWord
  | "false" => some .falseWord
  | _ => none

/-- The characters that are a token whatever follows them. -/
def single? : Char → Option TokenKind
  | '\x7b' => some .leftBrace
  | '\x7d' => some .rightBrace
  | '[' => some .leftSquare
  | ']' => some .rightSquare
  | '(' => some .leftParen
  | ')' => some .rightParen
  | '/' => some .slash
  | '*' => some .star
  | '^' => some .caret
  | '%' => some .percent
  | ':' => some .colon
  | ',' => some .comma
  | '|' => some .pipe
  | '?' => some .question
  | _ => none

/-- For a character that begins operators of one and of two characters: the second characters
with the kind that each makes, and the kind of the first character alone. -/
def compound? : Char → Option (List (Char × TokenKind) × TokenKind)
  | '+' => some ([('+', .plusPlus)], .plus)
  | '=' => some ([('=', .equalEqual)], .equal)
  | '!' => some ([('=', .bangEqual)], .bang)
  | '<' => some ([('=', .lessEqual), ('-', .leftArrow)], .less)
  | '>' => some ([('=', .greaterEqual)], .greater)
  | '-' => some ([('>', .rightArrow)], .minus)
  | _ => none

end TokenKind
end ArrowLang
