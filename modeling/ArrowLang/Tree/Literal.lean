import ArrowLang.Decimal.Layout
import ArrowLang.Text.Quoted

/-! Literals, and bare values that may stand where a tree should have a node. -/
namespace ArrowLang

open Decimal (Binary64)

inductive Literal where
  | int (value : Int)
  | float (value : Binary64)
  | bool (value : Bool)
  | text (value : String)
  deriving DecidableEq, Inhabited

inductive Atom where
  | int (value : Int)
  | text (value : String)
  | bool (value : Bool)
  | null
  deriving DecidableEq

/-- A value in the place of a pattern or of a declaration. -/
inductive Stray where
  | atom (value : Atom)
  | literal (value : Literal)
  deriving DecidableEq

def boolName (b : Bool) : String := if b then "True" else "False"

def intText (n : Int) : String := String.ofList (Decimal.intDigits n)

namespace Literal

/-- Equality of literals of one kind; floats are compared as numbers. -/
def same : Literal → Literal → Bool
  | .int a, .int b => a == b
  | .float a, .float b => a.sameNumber b
  | .bool a, .bool b => a == b
  | .text a, .text b => a == b
  | _, _ => false

def nodeName : Literal → String
  | .int _ => "IntLit"
  | .float _ => "FloatLit"
  | .bool _ => "BoolLit"
  | .text _ => "StringLit"

/-- The value as a dump shows it. -/
def valueText : Literal → String
  | .int n => intText n
  | .float v => v.text
  | .bool b => boolName b
  | .text s => Text.quoted s

end Literal

namespace Atom

def kindName : Atom → String
  | .int _ => "int"
  | .text _ => "str"
  | .bool _ => "bool"
  | .null => "NoneType"

def valueText : Atom → String
  | .int n => intText n
  | .text s => Text.quoted s
  | .bool b => boolName b
  | .null => "None"

end Atom

def Stray.valueText : Stray → String
  | .atom a => a.valueText
  | .literal l => l.nodeName ++ "(value=" ++ l.valueText ++ ")"

end ArrowLang
