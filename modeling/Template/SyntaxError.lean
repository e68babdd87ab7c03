import Template.Position
import Template.Text.Quoted

namespace Template

inductive SyntaxError.Cause
  | unexpected (found : Option Char)
  /-- A `/` in a start tag that no `>` follows. -/
  | unclosedSlash (found : Option Char)
  | emptyMustache
  | voidClosingTag (name : String)
  | unmatchedClosingTag (name : String)
  | unclosedElement (name : String)
  | other (message : String)
  deriving DecidableEq, Repr

structure SyntaxError where
  cause : SyntaxError.Cause
  position : Position
  deriving DecidableEq, Repr

namespace SyntaxError

def Cause.message : Cause → String
  | .unexpected none => "unexpected end of input"
  | .unexpected (some '\n') => "unexpected end of line"
  | .unexpected (some c) => "unexpected " ++ Text.Quoted.char c
  | .unclosedSlash none => "'>' expected, got end of input instead"
  | .unclosedSlash (some c) => "'>' expected, got " ++ Text.Quoted.char c ++ " instead"
  | .emptyMustache => "empty mustache"
  | .voidClosingTag name => "void element `" ++ name ++ "` cannot have closing tag"
  | .unmatchedClosingTag name => "closing tag `" ++ name ++ "` not matching"
  | .unclosedElement name =>
    "unexpected end of input, expecting closing tag for `" ++ name ++ "`"
  | .other message => message

def message (e : SyntaxError) : String := e.cause.message

def display (e : SyntaxError) : String := e.position.display ++ ": " ++ e.message

/-- One line for a list of errors: the first of them, and how many there are besides. -/
def summary : List SyntaxError → String
  | [] => "no errors"
  | [e] => e.display
  | e :: es => e.display ++ " (and " ++ toString es.length ++ " more errors)"

end SyntaxError

end Template
