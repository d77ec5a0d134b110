import ArrowLang.Tree.Literal

/-! The types that expressions are tagged with, and their names. -/
namespace ArrowLang

inductive TypeTag where
  | primitive (name : String)
  | list (element : TypeTag)
  | function (param result : TypeTag)
  /-- A value in the place of a type. -/
  | stray (value : Atom)
  deriving DecidableEq

namespace TypeTag

def unknown : TypeTag := .primitive "Unknown"
def int : TypeTag := .primitive "Int"
def float : TypeTag := .primitive "Float"
def bool : TypeTag := .primitive "Bool"
def text : TypeTag := .primitive "String"

instance : Inhabited TypeTag := ⟨unknown⟩

def isFunction : TypeTag → Bool
  | .function .. => true
  | _ => false

/-- Arrows associate to the right; a function in the place of a parameter is in parentheses. -/
def name : TypeTag → String
  | .primitive n => n
  | .list t => "[" ++ t.name ++ "]"
  | .function p r => (if p.isFunction then "(" ++ p.name ++ ")" else p.name) ++ " -> " ++ r.name
  | .stray _ => "?"

def ofLiteral : Literal → TypeTag
  | .int _ => int
  | .float _ => float
  | .bool _ => bool
  | .text _ => text

end TypeTag
end ArrowLang
