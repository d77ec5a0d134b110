import ArrowLang.Text.Blank
import ArrowLang.Text.DecimalDigit
import ArrowLang.Text.Lines
import ArrowLang.Token.Lexeme

/-! Colouring a text: it is cut into pieces, each with a class, by rules that are tried in order.
Inside quotes other rules hold than outside. -/
namespace ArrowLang.Coloring

open Text (isBlank isDecimalDigit unifyLineEnds)
open Lexeme (isWordChar)

inductive Class where
  | text | comment | string | escape | float | integer | wordOperator | constant | operator | name
  | punctuation | error
  deriving DecidableEq, Repr

inductive Mode where
  | code | quoted
  deriving DecidableEq, Repr

structure Piece where
  kind : Class
  text : List Char
  deriving DecidableEq, Repr

def stripNewlines (cs : List Char) : List Char :=
  (((cs.dropWhile (· = '\n')).reverse).dropWhile (· = '\n')).reverse

def dropMark : List Char → List Char
  | '\ufeff' :: cs => cs
  | cs => cs

/-- Without a byte order mark, with newlines as line ends, none at the start and one at the end. -/
def prepare (cs : List Char) : List Char := stripNewlines (unifyLineEnds (dropMark cs)) ++ ['\n']

def isWord (c : Option Char) : Bool := c.any isWordChar

/-- A name begins with a word character that is no decimal digit. -/
def isNameStart (c : Char) : Bool := isWordChar c && !isDecimalDigit c

/-- The whole word at the head of a text, unless it goes on from the character before. -/
def wholeWord (before : Option Char) (cs : List Char) : List Char :=
  if isWord before then [] else cs.takeWhile isWordChar

def wordOperators : List (List Char) := [['a', 'n', 'd'], ['o', 'r'], ['n', 'o', 't']]

def constants : List (List Char) := [['t', 'r', 'u', 'e'], ['f', 'a', 'l', 's', 'e']]

def pairs : List (Char × Char) :=
  [('<', '-'), ('-', '>'), ('+', '+'), ('=', '='), ('!', '='), ('<', '='), ('>', '=')]

def isOperatorChar (c : Char) : Bool :=
  ['+', '-', '*', '/', '%', '^', '<', '>', '=', '!', ':', '?'].contains c

def isPunctuation (c : Char) : Bool :=
  ['(', ')', ',', '[', ']', '\x7b', '\x7d', '|'].contains c

/-- A number that begins with a digit before `cs`: its class and its further characters. -/
def number (cs : List Char) : Class × Nat :=
  let whole := (cs.takeWhile Char.isDigit).length
  match cs.dropWhile Char.isDigit with
  | '.' :: cs =>
    let fraction := (cs.takeWhile Char.isDigit).length
    if fraction = 0 then (.integer, whole) else (.float, whole + 1 + fraction)
  | _ => (.integer, whole)

/-- The rules outside quotes: the class of the piece that begins with `c`, and how many further
characters it has. -/
def codePiece (before : Option Char) (c : Char) (cs : List Char) : Class × Nat × Mode :=
  let word := wholeWord before (c :: cs)
  if isBlank c then (.text, (cs.takeWhile isBlank).length, .code)
  else if c = '#' then (.comment, (cs.takeWhile (· ≠ '\n')).length, .code)
  else if c = '"' then (.string, 0, .quoted)
  else if c.isDigit then
    let (kind, n) := number cs
    (kind, n, .code)
  else if wordOperators.contains word then (.wordOperator, word.length - 1, .code)
  else if constants.contains word then (.constant, word.length - 1, .code)
  else if cs.head?.any fun d => pairs.contains (c, d) then (.operator, 1, .code)
  else if isOperatorChar c then (.operator, 0, .code)
  else if isNameStart c then (.name, (cs.takeWhile isWordChar).length, .code)
  else if isPunctuation c then (.punctuation, 0, .code)
  else (.error, 0, .code)

/-- The rules inside quotes. A backslash that nothing on its line follows is wrong by itself. -/
def quotedPiece (c : Char) (cs : List Char) : Class × Nat × Mode :=
  if c = '\\' then
    match cs with
    | [] => (.error, 0, .quoted)
    | d :: _ =>
      if (Lexeme.escape? d).isSome then (.escape, 1, .quoted)
      else if d = '\n' then (.error, 0, .quoted)
      else (.error, 1, .quoted)
  else if c = '"' then (.string, 0, .code)
  else (.string, (cs.takeWhile fun d => d ≠ '"' && d ≠ '\\').length, .quoted)

def piece (mode : Mode) (before : Option Char) (c : Char) (cs : List Char) : Class × Nat × Mode :=
  match mode with
  | .code => codePiece before c cs
  | .quoted => quotedPiece c cs

/-- The pieces of a text, `before` being the character in front of it. -/
def pieces (mode : Mode) (before : Option Char) : List Char → List Piece
  | [] => []
  | c :: cs =>
    let (kind, n, mode) := piece mode before c cs
    let text := c :: cs.take n
    ⟨kind, text⟩ :: pieces mode text.getLast? (cs.drop n)
termination_by cs => cs.length
decreasing_by
  simp only [List.length_drop, List.length_cons]
  omega

/-- The pieces of a text after it is prepared. -/
def ofText (text : String) : List Piece := pieces .code none (prepare text.toList)

end ArrowLang.Coloring
