import Template.Text.Marks
import Template.Text.Unprintable

namespace Template.Text.Quoted

def isPlain (c : Char) : Bool := !isMark c && !isUnprintable c

def hexEscape (c : Char) : List Char :=
  ['\\', 'u', '{'] ++ Nat.toDigits 16 c.toNat ++ ['}']

def encodeChar (plain : Char → Bool) (q c : Char) : List Char :=
  match c with
  | '\x00' => ['\\', '0']
  | '\t' => ['\\', 't']
  | '\r' => ['\\', 'r']
  | '\n' => ['\\', 'n']
  | '\\' => ['\\', '\\']
  | c => if c = q then ['\\', q] else if plain c then [c] else hexEscape c

def encode (plain : Char → Bool) (q : Char) (cs : List Char) : List Char :=
  q :: cs.flatMap (encodeChar plain q) ++ [q]

def char (c : Char) : String := String.ofList (encode isPlain '\'' [c])

def string (plain : Char → Bool) (s : String) : String :=
  String.ofList (encode plain '"' s.toList)

end Template.Text.Quoted
