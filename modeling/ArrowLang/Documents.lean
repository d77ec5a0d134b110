import ArrowLang.Grammar.Program

/-! The open documents of an editor. Each is kept with the notes that reading its text gave, and
these are published whenever its text changes. -/
namespace ArrowLang

/-- From a line and character up to another, counted from zero; the end is not included. -/
structure Span where
  startLine : Nat
  startChar : Nat
  endLine : Nat
  endChar : Nat
  deriving DecidableEq, Repr

/-- The character before a column, lines and columns counted as diagnostics do. -/
def Span.before (line col : Int) : Span :=
  let l := (line - 1).toNat
  let c := (col - 1).toNat
  ⟨l, c, l, c + 1⟩

/-- What is published of a diagnostic. Severities count from one, which is an error. -/
structure Note where
  span : Span
  severity : Nat
  source : String
  code : String
  message : String
  deriving DecidableEq, Repr

def Note.ofDiagnostic (d : Diagnostic) : Note where
  span := .before d.line d.col
  severity := 1
  source := "gwn"
  code := d.code
  message := d.message ++ d.place

structure Document where
  text : String
  notes : List Note
  deriving DecidableEq, Repr

def Document.read (stack : Nat) (text : String) : Except Abort Document :=
  (Program.read stack text).map fun p => ⟨text, p.diagnostics.map .ofDiagnostic⟩

/-- Documents by their address, in ascending order of addresses. -/
abbrev Documents := List (String × Document)

structure Publication where
  address : String
  notes : List Note
  deriving DecidableEq, Repr

inductive DocumentEvent where
  | opened (address text : String)
  /-- Every new text is the whole document, so the last one counts. -/
  | changed (address : String) (texts : List String)
  | closed (address : String)
  deriving DecidableEq, Repr

namespace Documents

def put (address : String) (d : Document) : Documents → Documents
  | [] => [(address, d)]
  | (a, e) :: ds =>
    if address = a then (address, d) :: ds
    else if address < a then (address, d) :: (a, e) :: ds
    else (a, e) :: put address d ds

def erase (address : String) (ds : Documents) : Documents := ds.filter (·.1 ≠ address)

/-- Takes in a text. One that cannot be read to its end changes nothing. -/
def update (stack : Nat) (address text : String) (ds : Documents) :
    Except Abort (List Publication × Documents) :=
  (Document.read stack text).map fun d => ([⟨address, d.notes⟩], ds.put address d)

def handle (stack : Nat) (ds : Documents) :
    DocumentEvent → Except Abort (List Publication × Documents)
  | .opened address text => ds.update stack address text
  | .changed address texts => ds.update stack address (texts.getLast?.getD "")
  | .closed address => .ok ([], ds.erase address)

end Documents
end ArrowLang
