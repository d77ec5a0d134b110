import ArrowLang.Diagnostic.Excerpt
import ArrowLang.Grammar.Program
import ArrowLang.Text.Ansi
import ArrowLang.Tree.Canonical
import ArrowLang.Tree.Outline

/-! What reading one text writes: its declarations as canonical text or as outlines on standard
output, and its diagnostics on standard error. -/
namespace ArrowLang

/-- The two streams that a program writes to. -/
structure Output where
  stdout : String
  stderr : String
  deriving DecidableEq, Repr

namespace Output

def empty : Output := ⟨"", ""⟩

def append (a b : Output) : Output := ⟨a.stdout ++ b.stdout, a.stderr ++ b.stderr⟩

instance : Append Output := ⟨append⟩

@[simp] theorem stdout_append (a b : Output) : (a ++ b).stdout = a.stdout ++ b.stdout := rfl
@[simp] theorem stderr_append (a b : Output) : (a ++ b).stderr = a.stderr ++ b.stderr := rfl

end Output

/-- A line as it is written. Streams that are no terminal show no control sequences. -/
def echo (terminal : Bool) (line : String) : String :=
  if terminal then line ++ "\n" else Text.plain (line ++ "\n")

/-- What ends the reading or the writing of a text. -/
inductive Halt where
  | abort (cause : Abort)
  | format (cause : FormatError)

def Halt.message : Halt → String
  | .abort cause => cause.message
  | .format cause => cause.message

namespace Report

structure Style where
  tree : Bool
  color : Bool
  terminal : Bool

def diagnostics (style : Style) (source : String) (ds : List Diagnostic) : String :=
  String.join (ds.map fun d => echo style.terminal (d.render style.color source))

/-- The lines that show a declaration, and what ends them before their time. -/
def declLines (tree : Bool) (stack : Stack) (d : Decl) : List String × Option FormatError :=
  if tree then
    let p := Outline.decl d 0 "" stack
    (p.lines, if p.complete then none else some .tooDeep)
  else match d.format stack with
    | .ok line => ([line], none)
    | .error e => ([], some e)

/-- What shows the declarations, up to the first that cannot be shown. -/
def decls (style : Style) (stack : Stack) : List Decl → String × Option FormatError
  | [] => ("", none)
  | d :: ds =>
    let (lines, e) := declLines style.tree stack d
    let text := String.join (lines.map (echo style.terminal))
    match e with
    | none =>
      let (more, e) := decls style stack ds
      (text ++ more, e)
    | some e => (text, some e)

/-- Reads a text and writes what is in it; the result tells whether nothing is wrong. Both go as deep
as the same stack lets them. -/
def run (stack : Nat) (style : Style) (source : String) : Except Halt Bool × Output :=
  let (result, w) := (Window.ofText source).program stack
  let stderr := diagnostics style source w.diagnostics.toList
  match result with
  | .error cause => (.error (.abort cause), ⟨"", stderr⟩)
  | .ok ds => match decls style (some (Window.ownFrames + stack)) ds with
    | (stdout, none) => (.ok w.diagnostics.isEmpty, ⟨stdout, stderr⟩)
    | (stdout, some e) => (.error (.format e), ⟨stdout, stderr⟩)

end Report
end ArrowLang
