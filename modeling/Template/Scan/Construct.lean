import Template.Scan.Attribute
import Template.Text.Layout

namespace Template

inductive Opening
  | endTag
  | comment
  | startTag
  | mustache
  deriving DecidableEq, Repr

def Opening.of? : List Char → Option Opening
  | '<' :: '/' :: _ => some .endTag
  | '<' :: '!' :: '-' :: '-' :: _ => some .comment
  | '<' :: c :: _ => if Text.isNameStart c then some .startTag else none
  | '{' :: '{' :: _ => some .mustache
  | _ => none

def Opening.width : Opening → Nat
  | .endTag => 2
  | .comment => 4
  | .startTag => 1
  | .mustache => 2

theorem Opening.width_pos (opening : Opening) : 0 < opening.width := by
  cases opening <;> decide

namespace Scan

def opens (cs : List Char) : Bool := (Opening.of? cs).isSome

theorem opens_eq_true {c : Char} {cs : List Char} (h : opens (c :: cs) = true) :
    c = '<' ∨ c = '{' ∧ cs.head? = some '{' := by
  simp only [opens, Opening.of?.eq_def] at h
  split at h
  · rename_i heq
    cases heq
    exact .inl rfl
  · rename_i heq
    cases heq
    exact .inl rfl
  · rename_i heq
    cases heq
    exact .inl rfl
  · rename_i heq
    cases heq
    exact .inr ⟨rfl, rfl⟩
  · cases h

theorem two_le_length_of_opens {cs : List Char} (h : opens cs = true) : 2 ≤ cs.length := by
  cases cs with
  | nil => cases h
  | cons x cs =>
    cases cs with
    | nil => simp [opens, Opening.of?.eq_def] at h
    | cons y cs => exact Nat.le_add_left 2 _

/-- The text token of a run that starts at `c`.  A run of line breaks alone is no text. -/
def textToken? (c : Cursor) (run : List Char) : Option Token :=
  match Text.stripLayout run with
  | [] => none
  | data => some
    { kind := .text (String.ofList (CharRef.decode .text data))
      position := (c.skip (Text.leadingLayout run).length).nextPosition }

def text? : Scan (Option Token) := do
  let c ← get
  return textToken? c (← takeBefore opens)

def mustache (start : Position) : Scan Token := do
  return ⟨.mustache (← mustacheBody), start⟩

def endsComment (cs : List Char) : Bool := ['-', '-', '>'].isPrefixOf cs

def comment (start : Position) : Scan Token := do
  let data ← takeBefore endsComment
  skip 3
  return ⟨.comment (String.ofList data), start⟩

def endTag (start : Position) : Scan Token := do
  let name ← name
  expect '>'
  require (Element.isVoid name = false) (.voidClosingTag name) start
  return ⟨.endTag name, start⟩

/-- The token of a tag that ends in `>`: a void element needs no closing tag. -/
def tagKind (name : String) (attributes : List Attribute) : Token.Kind :=
  if Element.isVoid name then .selfClosingTag name attributes else .startTag name attributes

def startTag (start : Position) : Scan Token := do
  let name ← name
  let attributes ← attributes
  match ← read with
  | some '>' => return ⟨tagKind name attributes, start⟩
  | some '/' =>
    let slash ← position
    let found ← peek
    require (found = some '>') (.unclosedSlash found) slash
    skip 1
    return ⟨.selfClosingTag name attributes, start⟩
  | found => fail (.unexpected found) (← position)

def body (opening : Opening) (start : Position) : Scan Token :=
  match opening with
  | .endTag => endTag start
  | .comment => comment start
  | .startTag => startTag start
  | .mustache => mustache start

def construct : Scan Token := do
  let start ← nextPosition
  match Opening.of? (← get).rest with
  | none => return ⟨.endOfInput, start⟩
  | some opening =>
    skip opening.width
    body opening start

def markup : Scan Token := do
  match ← text? with
  | some t => return t
  | none => construct

def closingTag (name : String) : List Char := ['<', '/'] ++ name.toList ++ ['>']

theorem before_closingTag_append {name : String} {xs : List Char} (hxs : ∀ x ∈ xs, x ≠ '<')
    (cs : List Char) :
    Text.before (closingTag name).isPrefixOf (xs ++ cs) =
      xs ++ Text.before (closingTag name).isPrefixOf cs := by
  refine Text.before_append_of_neg ?_ cs
  intro x hx ys
  rw [← Bool.not_eq_true, List.isPrefixOf_iff_prefix]
  intro hprefix
  exact hxs x hx (List.cons_prefix_cons.1 hprefix).1.symm

/-- Reads the body of a raw-text element, or its closing tag if nothing stands before it. -/
def rawText (name : String) : Scan Token := do
  let start ← nextPosition
  let close := closingTag name
  let body ← takeBefore close.isPrefixOf
  if close.isPrefixOf (← get).rest then
    if body = [] then
      skip close.length
      return ⟨.endTag name, start⟩
    else return ⟨.text (String.ofList body), start⟩
  else fail (.unexpected none) (← position)

end Scan

end Template
