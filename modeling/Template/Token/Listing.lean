import Template.Token
import Template.Text.Quoted

namespace Template

namespace Listing

def record (name : String) (fields : List (String × String)) : String :=
  name ++ " \x7b " ++ ", ".intercalate (fields.map fun f => f.1 ++ ": " ++ f.2) ++ " \x7d"

def tuple (name : String) (argument : String) : String := name ++ "(" ++ argument ++ ")"

def list (items : List String) : String := "[" ++ ", ".intercalate items ++ "]"

def position (p : Position) : String :=
  record "Position" [("line", toString p.line), ("column", toString p.column)]

section Quoted

open Text.Quoted (string)

-- the characters that strings show as they are
variable (plain : Char → Bool)

def attributeKind : Attribute.Kind → String
  | .string key value mustaches =>
    record "String"
      [("key", string plain key), ("value", string plain value),
        ("mustaches", list (mustaches.map (string plain)))]
  | .mustache key expression =>
    record "Mustache" [("key", string plain key), ("expression", string plain expression)]
  | .bool key => record "Bool" [("key", string plain key)]
  | .variadic expression => record "Variadic" [("expression", string plain expression)]

def attr (a : Attribute) : String :=
  record "Attribute" [("kind", attributeKind plain a.kind), ("position", position a.position)]

def tokenKind : Token.Kind → String
  | .endOfInput => "EndOfInput"
  | .text data => tuple "Text" (string plain data)
  | .mustache expression => tuple "Mustache" (string plain expression)
  | .comment data => tuple "Comment" (string plain data)
  | .startTag name attributes =>
    record "StartTag"
      [("name", string plain name), ("attributes", list (attributes.map (attr plain)))]
  | .selfClosingTag name attributes =>
    record "SelfClosingTag"
      [("name", string plain name), ("attributes", list (attributes.map (attr plain)))]
  | .endTag name => tuple "EndTag" (string plain name)

def lineBy (t : Token) : String := t.position.display ++ "\t" ++ tokenKind plain t.kind ++ "\n"

end Quoted

def line (t : Token) : String := lineBy Text.Quoted.isPlain t

end Listing

def Listing.ofLexemes : List Lexeme → List String × Option SyntaxError
  | [] => ([], none)
  | .error e :: _ => ([], some e)
  | .ok t :: ls =>
    let (lines, e?) := ofLexemes ls
    (Listing.line t :: lines, e?)

end Template
