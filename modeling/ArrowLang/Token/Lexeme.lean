import ArrowLang.Text.Letter
import ArrowLang.Text.Numeral
import ArrowLang.Token.Kind

/-! Lexemes: the longest piece at the head of a text that is a number, a word, an operator, a run
of newlines or a quoted string; and the gaps of blanks and comments between them. -/
namespace ArrowLang.Lexeme

open Text (isLetter isNumeral)

def isGapChar (c : Char) : Bool := c = ' ' || c = '\r' || c = '\t'

def isWordStart (c : Char) : Bool := isLetter c || c = '_'

def isWordChar (c : Char) : Bool := isLetter c || isNumeral c || c = '_'

/-- The gap at the head of a text, and the rest. A comment runs to the end of its line. -/
def splitGap (inComment : Bool) : List Char → List Char × List Char
  | [] => ([], [])
  | c :: cs =>
    if inComment && c != '\n' || isGapChar c then
      let (gap, rest) := splitGap inComment cs
      (c :: gap, rest)
    else if c = '#' then
      let (gap, rest) := splitGap true cs
      (c :: gap, rest)
    else ([], c :: cs)

/-- The rest of a number: its digits, and a fraction if a digit follows the point. -/
def numberTail (cs : List Char) : List Char :=
  let whole := cs.takeWhile Char.isDigit
  match cs.dropWhile Char.isDigit with
  | '.' :: d :: rest =>
    if d.isDigit then whole ++ '.' :: d :: rest.takeWhile Char.isDigit else whole
  | _ => whole

def wordKind (word : List Char) : TokenKind :=
  (TokenKind.keyword? (String.ofList word)).getD .identifier

/-- The rest of an operator that begins with `c`, and its kind. -/
def operatorTail? (c : Char) (cs : List Char) : Option (TokenKind × List Char) :=
  match TokenKind.single? c with
  | some kind => some (kind, [])
  | none =>
    (TokenKind.compound? c).map fun (pairs, alone) =>
      match pairs.find? fun pair => cs.head? == some pair.1 with
      | some (second, kind) => (kind, [second])
      | none => (alone, [])

/-- The kind of the lexeme that begins with `c` and its other characters; quoted strings and
characters that begin no lexeme are left out. -/
def tail? (c : Char) (cs : List Char) : Option (TokenKind × List Char) :=
  if c.isDigit then some (.number, numberTail cs)
  else if isWordStart c then
    let tail := cs.takeWhile isWordChar
    some (wordKind (c :: tail), tail)
  else if c = '\n' then some (.newline, cs.takeWhile (· = '\n'))
  else operatorTail? c cs

/-- The text up to the closing quote, and the rest, which begins with that quote unless there is
none. The character after a backslash closes nothing. -/
def splitQuoted : List Char → List Char × List Char
  | [] => ([], [])
  | '"' :: cs => ([], '"' :: cs)
  | '\\' :: c :: cs =>
    let (body, rest) := splitQuoted cs
    ('\\' :: c :: body, rest)
  | c :: cs =>
    let (body, rest) := splitQuoted cs
    (c :: body, rest)

def escape? : Char → Option Char
  | 'n' => some '\n'
  | 't' => some '\t'
  | 'r' => some '\r'
  | '"' => some '"'
  | _ => none

/-- The text that a quoted body stands for. -/
def unescape : List Char → List Char
  | [] => []
  | ['\\'] => []
  | '\\' :: c :: cs => (escape? c).toList ++ unescape cs
  | c :: cs => c :: unescape cs

/-- Line and column after a quoted body. A newline behind a backslash begins no line. -/
def endOfQuoted : List Char → Nat × Nat → Nat × Nat
  | [], at' => at'
  | ['\\'], (line, col) => (line, col + 1)
  | '\\' :: _ :: cs, (line, col) => endOfQuoted cs (line, col + 2)
  | c :: cs, (line, col) =>
    endOfQuoted cs (if c = '\n' then (line + 1, 0) else (line, col + 1))

/-- The first escape that means nothing: its character, and line and column after it. -/
def badEscape? : List Char → Nat × Nat → Option (Char × Nat × Nat)
  | [], _ => none
  | ['\\'], _ => none
  | '\\' :: c :: cs, (line, col) =>
    if (escape? c).isSome then badEscape? cs (line, col + 2) else some (c, line, col + 2)
  | c :: cs, (line, col) =>
    badEscape? cs (if c = '\n' then (line + 1, 0) else (line, col + 1))

/-- The part of a quoted body that ends with the first escape that means nothing. -/
def badPart? : List Char → Option (List Char)
  | [] => none
  | ['\\'] => none
  | '\\' :: c :: cs =>
    if (escape? c).isSome then (badPart? cs).map ('\\' :: c :: ·) else some ['\\', c]
  | c :: cs => (badPart? cs).map (c :: ·)

theorem splitGap_append (inComment : Bool) (cs : List Char) :
    (splitGap inComment cs).1 ++ (splitGap inComment cs).2 = cs := by
  induction cs generalizing inComment with
  | nil => rfl
  | cons c cs ih =>
    simp only [splitGap]
    split
    · simp [ih]
    · split
      · simp [ih]
      · rfl

theorem splitQuoted_append (cs : List Char) : (splitQuoted cs).1 ++ (splitQuoted cs).2 = cs := by
  fun_induction splitQuoted cs <;> simp_all

end ArrowLang.Lexeme
