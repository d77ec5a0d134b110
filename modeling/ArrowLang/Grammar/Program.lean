import ArrowLang.Grammar.Expression

/-! Reading a whole text into declarations. A fault abandons the declaration that it is in, and
reading goes on behind the token where it arose; a declaration that nests too deep for the stack is
abandoned to the end of its line. -/
namespace ArrowLang
namespace Reading

/-- The name before `=`, with a type if there is a colon. -/
def target? (e : Expr) : Option (Token × Option Token) :=
  match e.node with
  | .name t => some (t, none)
  | .binary o l r =>
    if o.kind = .colon then
      match l.node, r.node with
      | .name t, .name u => some (t, some u)
      | _, _ => none
    else none
  | _ => none

/-- The declaration of a constant, from its `=` on. -/
def constant (sub : Sub) (e : Expr) : Reading Decl := call do
  match target? e with
  | none => throw (.fault (.expectedToken .identifier "Expected constant name before '='.") (← current))
  | some (name, typeName) =>
    advance
    let value ← sub .or
    return .constant name typeName value

/-- A declaration ends its line. -/
def ended (d : Decl) : Reading Decl := do
  if (← check .newline) || (← check .endOfText) then return d
  else throw (.fault (.expectedToken .newline "Expected newline after expression.") (← current))

def declaration (sub : Sub) : Reading Decl := call do
  let e ← sub .or
  if ← check .equal then
    let d ← constant sub e
    ended d
  else ended (.evaluated e)

end Reading

namespace Window

/-- Declarations up to the end of the text, each read with the stack. What nests `depth` deep has used
up a stack of so many frames. -/
def declarations (stack : Stack) (depth : Nat) : Nat → Window → Except Abort (List Decl) × Window
  | 0, w => (.ok [], w)
  | n + 1, w =>
    if w.current.kind = .endOfText then (.ok [], w)
    else match ((Reading.declaration (Reading.expression depth)).run stack).run w with
      | (.ok d, w) =>
        let (ds, w) := declarations stack depth n w.skipNewlines
        (ds.map (d :: ·), w)
      | (.error (.fault fault t), w) =>
        declarations stack depth n (w.report (.grammar fault t)).advance.skipNewlines
      | (.error (.tooDeep _), w) =>
        declarations stack depth n
          (w.report (.grammar .nestingTooDeep w.current)).skipLine.skipNewlines
      | (.error (.abort cause), w) => (.error cause, w)

/-- The frames that the reading of a text takes for itself: its own calls nest no deeper. -/
def ownFrames : Nat := 8

/-- Moves into the text and reads all of it, with so many frames besides its own. -/
def program (stack : Nat) (w : Window) : Except Abort (List Decl) × Window :=
  let w := w.advance.skipNewlines
  w.declarations (some (ownFrames + stack)) (ownFrames + stack) (w.remaining + 1)

end Window

/-- The declarations of a text and the diagnostics in the order in which they were reported. -/
structure Program where
  decls : List Decl
  diagnostics : List Diagnostic

def Program.read (stack : Nat) (text : String) : Except Abort Program :=
  let (ds, w) := (Window.ofText text).program stack
  ds.map fun ds => ⟨ds, w.diagnostics.toList⟩

end ArrowLang
