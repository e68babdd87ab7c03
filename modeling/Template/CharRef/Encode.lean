import Template.CharRef.Decode

namespace Template.CharRef

/-- The reference written for `c`, if it needs one.  `first` holds at the start of the text;
`next` is the character after `c`. -/
def escape? (ctx : Context) (first : Bool) (c : Char) (next : Option Char) : Option String :=
  match c, ctx with
  | '&', _ => some "&amp;"
  | '{', _ => if next = some '{' then some "&#123;" else none
  | '\n', _ => some "&#10;"
  | '\r', _ => some "&#13;"
  | '\x0c', _ => some "&#12;"
  | '"', .attribute => some "&quot;"
  | '<', .text => some "&lt;"
  | ' ', .text => if first then some "&#32;" else none
  | '\t', .text => if first then some "&#9;" else none
  | _, _ => none

def encodeFrom (ctx : Context) (first : Bool) : List Char → List Char
  | [] => []
  | c :: cs =>
    match escape? ctx first c cs.head? with
    | some reference => reference.toList ++ encodeFrom ctx false cs
    | none => c :: encodeFrom ctx false cs

def encode (ctx : Context) (cs : List Char) : List Char := encodeFrom ctx true cs

@[simp] theorem encode_nil (ctx : Context) : encode ctx [] = [] := rfl

end Template.CharRef
