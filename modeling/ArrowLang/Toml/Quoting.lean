/-! The quoted strings and the keys of a configuration file. -/
namespace ArrowLang.Toml

/-- Why a file cannot be read. -/
inductive Fault where
  | malformed
  /-- An integer has more digits than can be converted. -/
  | tooManyDigits (digits : Nat)
  deriving DecidableEq, Repr

def isSpace (c : Char) : Bool := c = ' ' || c = '\t'

def isSpaceOrNewline (c : Char) : Bool := isSpace c || c = '\n'

def skipSpaces (cs : List Char) : List Char := cs.dropWhile isSpace

def isControl (c : Char) : Bool := c.toNat < 32 || c.toNat = 127

/-- Characters that a string may not hold; newlines only one of several lines may. -/
def isForbidden (severalLines : Bool) (c : Char) : Bool :=
  isControl c && c != '\t' && !(severalLines && c = '\n')

def hexValue? (c : Char) : Option Nat :=
  if c.isDigit then some (c.toNat - '0'.toNat)
  else if 'a' ≤ c && c ≤ 'f' then some (c.toNat - 'a'.toNat + 10)
  else if 'A' ≤ c && c ≤ 'F' then some (c.toNat - 'A'.toNat + 10)
  else none

/-- The number that `width` hexadecimal digits make. -/
def hexNumber : Nat → Nat → List Char → Except Fault (Nat × List Char)
  | 0, n, cs => .ok (n, cs)
  | _ + 1, _, [] => .error .malformed
  | width + 1, n, c :: cs => match hexValue? c with
    | some d => hexNumber width (16 * n + d) cs
    | none => .error .malformed

/-- The character with the code that `width` hexadecimal digits make. -/
def codedChar (width : Nat) (cs : List Char) : Except Fault (List Char × List Char) := do
  let (n, rest) ← hexNumber width 0 cs
  if n.isValidChar then .ok ([Char.ofNat n], rest) else .error .malformed

/-- What an escape stands for, its backslash being read. In a string of several lines a backslash
at the end of a line takes away the blanks and newlines that follow. -/
def escape (severalLines : Bool) : List Char → Except Fault (List Char × List Char)
  | [] => .error .malformed
  | c :: cs =>
    if severalLines && isSpaceOrNewline c then
      if c = '\n' then .ok ([], cs.dropWhile isSpaceOrNewline)
      else match skipSpaces cs with
        | [] => .ok ([], [])
        | '\n' :: rest => .ok ([], rest.dropWhile isSpaceOrNewline)
        | _ => .error .malformed
    else match c with
      | 'b' => .ok (['\x08'], cs)
      | 't' => .ok (['\t'], cs)
      | 'n' => .ok (['\n'], cs)
      | 'f' => .ok (['\x0c'], cs)
      | 'r' => .ok (['\r'], cs)
      | '"' => .ok (['"'], cs)
      | '\\' => .ok (['\\'], cs)
      | 'u' => codedChar 4 cs
      | 'U' => codedChar 8 cs
      | _ => .error .malformed

/-- The text of a string in double quotes up to the quote, or the three quotes, that end it. -/
def basicText (severalLines : Bool) : Nat → List Char → Except Fault (List Char × List Char)
  | 0, _ => .error .malformed
  | _ + 1, [] => .error .malformed
  | fuel + 1, c :: cs =>
    if c = '"' && !severalLines then .ok ([], cs)
    else if c = '"' && cs.take 2 = ['"', '"'] then .ok ([], cs.drop 2)
    else if c = '\\' then do
      let (piece, rest) ← escape severalLines cs
      let (text, rest) ← basicText severalLines fuel rest
      .ok (piece ++ text, rest)
    else if isForbidden severalLines c then .error .malformed
    else do
      let (text, rest) ← basicText severalLines fuel cs
      .ok (c :: text, rest)

/-- The text of a string in single quotes, in which nothing is escaped. -/
def literalText (severalLines : Bool) : List Char → Except Fault (List Char × List Char)
  | [] => .error .malformed
  | c :: cs =>
    if c = '\'' && !severalLines then .ok ([], cs)
    else if c = '\'' && cs.take 2 = ['\'', '\''] then .ok ([], cs.drop 2)
    else if isForbidden severalLines c then .error .malformed
    else do
      let (text, rest) ← literalText severalLines cs
      .ok (c :: text, rest)

/-- One or two more quotes right behind a string of several lines belong to it. -/
def extraQuotes (quote : Char) (text : List Char) : List Char → List Char × List Char
  | c :: d :: cs =>
    if c = quote then
      if d = quote then (text ++ [c, d], cs) else (text ++ [c], d :: cs)
    else (text, c :: d :: cs)
  | [c] => if c = quote then (text ++ [c], []) else (text, [c])
  | [] => (text, [])

def dropNewline : List Char → List Char
  | '\n' :: cs => cs
  | cs => cs

/-- The string on one line that begins with a quote before `cs`. -/
def lineString (quote : Char) (cs : List Char) : Except Fault (String × List Char) := do
  let (text, rest) ← if quote = '"' then basicText false (cs.length + 1) cs else literalText false cs
  .ok (String.ofList text, rest)

/-- The string that begins with a quote before `cs`, on one line or behind three quotes. -/
def string (quote : Char) (cs : List Char) : Except Fault (String × List Char) := do
  if cs.take 2 = [quote, quote] then
    let cs := dropNewline (cs.drop 2)
    let (text, rest) ← if quote = '"' then basicText true (cs.length + 1) cs else literalText true cs
    let (text, rest) := extraQuotes quote text rest
    .ok (String.ofList text, rest)
  else lineString quote cs

abbrev Path := List String

def isKeyChar (c : Char) : Bool := c.isAlphanum || c = '-' || c = '_'

def keyPart : List Char → Except Fault (String × List Char)
  | [] => .error .malformed
  | c :: cs =>
    if isKeyChar c then
      .ok (String.ofList (c :: cs.takeWhile isKeyChar), cs.dropWhile isKeyChar)
    else if c = '"' || c = '\'' then lineString c cs
    else .error .malformed

/-- Key parts with points between them; blanks around the points, and behind the last part, are
skipped. -/
def keyPath : Nat → List Char → Except Fault (Path × List Char)
  | 0, _ => .error .malformed
  | fuel + 1, cs => do
    let (part, rest) ← keyPart cs
    match skipSpaces rest with
    | '.' :: rest =>
      let (parts, rest) ← keyPath fuel (skipSpaces rest)
      .ok (part :: parts, rest)
    | rest => .ok ([part], rest)

end ArrowLang.Toml
