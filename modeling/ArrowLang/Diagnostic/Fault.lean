import ArrowLang.Token.Cursor

/-! Diagnostics: what is wrong, where, and in which words. -/
namespace ArrowLang

def LexicalFault.code : LexicalFault → String
  | .general _ => "E100"
  | .unrecognizedCharacter _ => "E101"
  | .unrecognizedEscape _ => "E102"
  | .unterminatedString => "E103"

def LexicalFault.message : LexicalFault → String
  | .unrecognizedCharacter text => "Unrecognised character '" ++ text ++ "'."
  | .unrecognizedEscape text => "Unrecognised escape sequence '\\" ++ text ++ "'."
  | .unterminatedString => "Unterminated string."
  | .general message => message

def LexicalFault.place : LexicalFault → String
  | .unrecognizedCharacter text => " at '" ++ text ++ "'"
  | .unrecognizedEscape text => " at '\\" ++ text ++ "'"
  | .unterminatedString => " at end"
  | .general _ => ""

inductive GrammarFault where
  | expectedExpression
  | expectedToken (kind : TokenKind) (message : String)
  | invalidNumber (range : String)
  | nestingTooDeep
  /-- A fault with words of its own. -/
  | general (message : String)
  deriving DecidableEq, Repr

namespace GrammarFault

def integerRange : String := "a 32-bit integer"
def floatRange : String := "a float"

def code : GrammarFault → String
  | .general _ => "E200"
  | .expectedExpression => "E201"
  | .expectedToken .. => "E202"
  | .invalidNumber _ => "E203"
  | .nestingTooDeep => "E204"

def message (token : Token) : GrammarFault → String
  | .expectedExpression => "Expected expression."
  | .expectedToken _ message => message
  | .invalidNumber range => "Number '" ++ token.lexeme ++ "' does not fit in " ++ range ++ "."
  | .nestingTooDeep => "Expression nested too deeply."
  | .general message => message

end GrammarFault

/-- How a diagnostic names the token that it blames. -/
def Token.place (token : Token) : String :=
  match token.kind with
  | .newline => " at newline"
  | .endOfText => " at end"
  | _ => " at '" ++ token.lexeme ++ "'"

inductive Diagnostic where
  | lexical (fault : LexicalFault) (line col : Int)
  | grammar (fault : GrammarFault) (token : Token)
  | general (message : String) (line col : Int)
  deriving DecidableEq, Repr

namespace Diagnostic

def ofLexical (e : LexicalError) : Diagnostic := .lexical e.fault e.line e.col

def code : Diagnostic → String
  | .lexical fault .. => fault.code
  | .grammar fault _ => fault.code
  | .general .. => "E000"

def message : Diagnostic → String
  | .lexical fault .. => fault.message
  | .grammar fault token => fault.message token
  | .general message .. => message

def place : Diagnostic → String
  | .lexical fault .. => fault.place
  | .grammar _ token => token.place
  | .general .. => ""

def line : Diagnostic → Int
  | .lexical _ line _ => line
  | .grammar _ token => token.line
  | .general _ line _ => line

/-- The column just past what is blamed. -/
def col : Diagnostic → Int
  | .lexical _ _ col => col
  | .grammar _ token => token.col
  | .general _ _ col => col

end Diagnostic
end ArrowLang
