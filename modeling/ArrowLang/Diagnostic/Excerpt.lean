import ArrowLang.Diagnostic.Fault
import ArrowLang.Text.Lines

/-! A diagnostic shown with the line that it is about: a header, the line behind a gutter, a caret
under the last character that is blamed, and the message. -/
namespace ArrowLang.Diagnostic

def gutter : String := "    "

def red : String := "\x1b[1;31m"
def bold : String := "\x1b[1m"
def blue : String := "\x1b[1;34m"
def reset : String := "\x1b[0m"

def paint (color : Bool) (code : String) : String := if color then code else ""

/-- The line of the source with a number, without carriage returns at its end. A number that no
line has gives an empty one. -/
def sourceLine (source : String) (line : Int) : String :=
  if 1 ≤ line then
    String.ofList (Text.dropReturns ((Text.splitLines source.toList).getD (line - 1).toNat []))
  else ""

def caretPadding (col : Int) : String := String.ofList (List.replicate (col - 1).toNat ' ')

def excerptLines (color : Bool) (source : String) (d : Diagnostic) : List String :=
  let c := paint color
  [c red ++ "[line " ++ toString d.line ++ "] Error" ++ d.place ++ ":" ++ c reset,
    c blue ++ gutter ++ c reset ++ sourceLine source d.line,
    gutter ++ caretPadding d.col ++ c red ++ "^" ++ c reset,
    c bold ++ d.message ++ c reset]

def render (color : Bool) (source : String) (d : Diagnostic) : String :=
  "\n".intercalate (d.excerptLines color source)

end ArrowLang.Diagnostic
