import ArrowLang.Toml.Scalar

/-! Reading a configuration file: statements one on a line, each a pair of key and value or the
header of a table. A table is declared once, and what is written as one value stays as it is. -/
namespace ArrowLang.Toml

def lookup? (key : String) : Table → Option Value
  | [] => none
  | (k, v) :: fields => if k = key then some v else lookup? key fields

/-- The table with a key set, in its old place if it has one. -/
def set (key : String) (v : Value) : Table → Table
  | [] => [(key, v)]
  | (k, w) :: fields => if k = key then (k, v) :: fields else (k, w) :: set key v fields

def add (key : String) (v : Value) (t : Table) : Except Fault Table :=
  if (lookup? key t).isSome then .error .malformed else .ok (set key v t)

/-- Changes the table at the end of a path, which is made if it is missing. On the way an array
stands for its last table if `throughArrays`. -/
def within (throughArrays : Bool) (change : Table → Except Fault Table) :
    Path → Table → Except Fault Table
  | [], t => change t
  | key :: path, t => match lookup? key t with
    | none => do
      let inner ← within throughArrays change path []
      .ok (set key (.table inner) t)
    | some (.table inner) => do
      let inner ← within throughArrays change path inner
      .ok (set key (.table inner) t)
    | some (.array items) =>
      match throughArrays, items.getLast? with
      | true, some (.table inner) => do
        let inner ← within throughArrays change path inner
        .ok (set key (.array (items.dropLast ++ [.table inner])) t)
      | _, _ => .error .malformed
    | some _ => .error .malformed

/-- Adds an empty table at the end of an array of tables. -/
def append (key : String) (t : Table) : Except Fault Table :=
  match lookup? key t with
  | none => .ok (set key (.array [.table []]) t)
  | some (.array items) => .ok (set key (.array (items ++ [.table []])) t)
  | some _ => .error .malformed

/-- Whether one of the paths leads to the key or to something around it. -/
def covers (paths : List Path) (key : Path) : Bool := paths.any (·.isPrefixOf key)

def startsWith (word : String) (cs : List Char) : Bool := word.toList.isPrefixOf cs

/-- A comment up to the end of its line; it holds no control characters. -/
def skipComment : List Char → Except Fault (List Char)
  | '#' :: cs =>
    if (cs.takeWhile (· ≠ '\n')).any (isForbidden false) then .error .malformed
    else .ok (cs.dropWhile (· ≠ '\n'))
  | cs => .ok cs

/-- Blanks, newlines and comments between the items of an array. -/
def skipFiller : Nat → List Char → Except Fault (List Char)
  | 0, cs => .ok cs
  | fuel + 1, cs => do
    match cs.dropWhile isSpaceOrNewline with
    | '#' :: rest => skipFiller fuel (← skipComment ('#' :: rest))
    | rest => .ok rest

def skipFillers (cs : List Char) : Except Fault (List Char) := skipFiller (cs.length + 1) cs

/-- A key and the equals sign behind it. -/
def keyAndEquals (cs : List Char) : Except Fault (Path × List Char) := do
  let (key, rest) ← keyPath (cs.length + 1) cs
  match rest with
  | '=' :: rest => .ok (key, skipSpaces rest)
  | _ => .error .malformed

/-- Whether a value is closed: nothing may be added inside it later. -/
def Value.isClosed : Value → Bool
  | .array _ => true
  | .table _ => true
  | _ => false

mutual

def value : Nat → List Char → Except Fault (Value × List Char)
  | 0, _ => .error .malformed
  | _ + 1, [] => .error .malformed
  | fuel + 1, c :: cs =>
    if c = '"' || c = '\'' then do
      let (s, rest) ← string c cs
      .ok (.text s, rest)
    else if startsWith "true" (c :: cs) then .ok (.bool true, cs.drop 3)
    else if startsWith "false" (c :: cs) then .ok (.bool false, cs.drop 4)
    else if c = '[' then do
      let (items, rest) ← arrayItems fuel (← skipFillers cs)
      .ok (.array items, rest)
    else if c = '\x7b' then do
      match skipSpaces cs with
      | '\x7d' :: rest => .ok (.table [], rest)
      | rest =>
        let (fields, rest) ← inlineFields fuel [] [] rest
        .ok (.table fields, rest)
    else scalar (c :: cs)

/-- The items of an array up to its closing bracket. -/
def arrayItems : Nat → List Char → Except Fault (List Value × List Char)
  | 0, _ => .error .malformed
  | fuel + 1, cs =>
    match cs with
    | ']' :: rest => .ok ([], rest)
    | _ => do
      let (v, rest) ← value fuel cs
      match ← skipFillers rest with
      | ']' :: rest => .ok ([v], rest)
      | ',' :: rest =>
        let (vs, rest) ← arrayItems fuel (← skipFillers rest)
        .ok (v :: vs, rest)
      | _ => .error .malformed

/-- The fields of an inline table up to its closing brace, after those in `done`. -/
def inlineFields : Nat → Table → List Path → List Char → Except Fault (Table × List Char)
  | 0, _, _, _ => .error .malformed
  | fuel + 1, done, closed, cs => do
    let (key, rest) ← keyAndEquals cs
    let (v, rest) ← value fuel rest
    if covers closed key then .error .malformed
    else
      let done ← within false (add (key.getLastD "") v) key.dropLast done
      let closed := if v.isClosed then key :: closed else closed
      match skipSpaces rest with
      | '\x7d' :: rest => .ok (done, rest)
      | ',' :: rest => inlineFields fuel done closed (skipSpaces rest)
      | _ => .error .malformed

end

/-- What is read so far. `declared` are the tables that no header may name again, `closed` the values
that nothing may be added to; `dotted` are tables made by dotted keys since the last header, which
are declared at the next one. -/
structure Draft where
  data : Table
  header : Path
  declared : List Path
  closed : List Path
  dotted : List Path

namespace Draft

def empty : Draft := ⟨[], [], [], [], []⟩

/-- The tables that a dotted key goes through, from the outermost on. -/
def through (header : Path) (key : Path) : List Path :=
  (List.range key.length).tail.map fun n => header ++ key.take n

def pair (d : Draft) (key : Path) (v : Value) : Except Fault Draft := do
  let passed := through d.header key
  if passed.any d.declared.contains then .error .malformed
  else
    let parent := d.header ++ key.dropLast
    if covers d.closed parent then .error .malformed
    else
      let data ← within true (add (key.getLastD "") v) parent d.data
      let closed := if v.isClosed then (d.header ++ key) :: d.closed else d.closed
      .ok { d with data, closed, dotted := passed ++ d.dotted }

/-- Ends the section of the last header. -/
def endSection (d : Draft) : Draft := { d with declared := d.dotted ++ d.declared, dotted := [] }

/-- The header of a table. -/
def tableHeader (d : Draft) (key : Path) : Except Fault Draft := do
  if d.declared.contains key || covers d.closed key then .error .malformed
  else
    let data ← within true .ok key d.data
    .ok { d with data, header := key, declared := key :: d.declared }

/-- The header of an element of an array of tables. What was said inside the last element does not
count for the new one. -/
def elementHeader (d : Draft) (key : Path) : Except Fault Draft := do
  if covers d.closed key then .error .malformed
  else
    let outside (paths : List Path) := paths.filter fun path => !key.isPrefixOf path
    let data ← within true (append (key.getLastD "")) key.dropLast d.data
    .ok { d with data, header := key, declared := key :: outside d.declared, closed := outside d.closed }

/-- The statement at the head of a text that begins with no blank, and the rest. -/
def statement (d : Draft) (cs : List Char) : Except Fault (Draft × List Char) :=
  match cs with
  | '[' :: '[' :: rest => do
    let (key, rest) ← keyPath (rest.length + 1) (skipSpaces rest)
    let d ← d.endSection.elementHeader key
    match rest with
    | ']' :: ']' :: rest => .ok (d, rest)
    | _ => .error .malformed
  | '[' :: rest => do
    let (key, rest) ← keyPath (rest.length + 1) (skipSpaces rest)
    let d ← d.endSection.tableHeader key
    match rest with
    | ']' :: rest => .ok (d, rest)
    | _ => .error .malformed
  | '#' :: _ => .ok (d, cs)
  | _ => do
    let (key, rest) ← keyAndEquals cs
    let (v, rest) ← value (2 * rest.length + 2) rest
    let d ← d.pair key v
    .ok (d, rest)

/-- Statements up to the end of the text. -/
def statements : Nat → Draft → List Char → Except Fault Draft
  | 0, _, _ => .error .malformed
  | fuel + 1, d, cs =>
    match skipSpaces cs with
    | [] => .ok d
    | '\n' :: rest => statements fuel d rest
    | cs => do
      let (d, rest) ← d.statement cs
      match ← skipComment (skipSpaces rest) with
      | [] => .ok d
      | '\n' :: rest => statements fuel d rest
      | _ => .error .malformed

end Draft

/-- Carriage returns before newlines belong to the line end. -/
def joinLineEnds : List Char → List Char
  | '\r' :: '\n' :: cs => '\n' :: joinLineEnds cs
  | c :: cs => c :: joinLineEnds cs
  | [] => []

/-- The top table of a file. -/
def read (text : String) : Except Fault Table :=
  let cs := joinLineEnds text.toList
  (Draft.empty.statements (cs.length + 1) cs).map (·.data)

end ArrowLang.Toml
