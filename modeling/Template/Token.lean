import Template.Element
import Template.SyntaxError

namespace Template

/-- What stands in the value of a string attribute where a mustache stood. -/
def placeholder : List Char := ['%', 'v']

inductive Attribute.Kind
  | string (key value : String) (mustaches : List String)
  | mustache (key expression : String)
  | bool (key : String)
  | variadic (expression : String)
  deriving DecidableEq, Repr

structure Attribute where
  kind : Attribute.Kind
  position : Position
  deriving DecidableEq, Repr

def Attribute.key? (a : Attribute) : Option String :=
  match a.kind with
  | .string key _ _ => some key
  | .mustache key _ => some key
  | .bool key => some key
  | .variadic _ => none

inductive Token.Kind
  | endOfInput
  | text (data : String)
  | mustache (expression : String)
  | comment (data : String)
  | startTag (name : String) (attributes : List Attribute)
  | selfClosingTag (name : String) (attributes : List Attribute)
  | endTag (name : String)
  deriving DecidableEq, Repr

/-- The position of a token is that of its first character; the end of the input stands at the
last character. -/
structure Token where
  kind : Token.Kind
  position : Position
  deriving DecidableEq, Repr

/-- What one step of scanning yields: a token, or the error met in its place. -/
abbrev Lexeme := Except SyntaxError Token

namespace Lexeme

def position : Lexeme → Position
  | .ok t => t.position
  | .error e => e.position

def isEnd : Lexeme → Bool
  | .ok ⟨.endOfInput, _⟩ => true
  | _ => false

def error? : Lexeme → Option SyntaxError
  | .ok _ => none
  | .error e => some e

end Lexeme

end Template
