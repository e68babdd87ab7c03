import Template.CharRef
import Template.Forest
import Template.Scan.Construct

/-! Rendering.  Every tag, text and mustache stands on a line of its own, indented by two spaces
a level.  Text and attribute values are escaped; the bodies of raw-text elements are not. -/

namespace Template

namespace Indented

def mustache (expression : String) : List Char := ['{', '{'] ++ expression.toList ++ ['}', '}']

def attr (a : Attribute) : List Char :=
  match a.kind with
  | .string key value _ =>
    key.toList ++ ['=', '"'] ++ CharRef.encode .attribute value.toList ++ ['"']
  | .mustache key expression => key.toList ++ ['='] ++ mustache expression
  | .bool key => key.toList
  | .variadic expression => ['.', '.', '.'] ++ mustache expression

def openingTag (name : String) (attributes : List Attribute) : List Char :=
  ['<'] ++ name.toList ++ attributes.flatMap (fun a => ' ' :: attr a) ++ ['>']

def line (depth : Nat) (content : List Char) : List Char :=
  List.replicate (2 * depth) ' ' ++ content ++ ['\n']

def text (raw : Bool) (data : String) : List Char :=
  if raw then data.toList else CharRef.encode .text data.toList

end Indented

/-- Renders a forest at the given depth; `raw` holds in the body of a raw-text element.  What
stands below a node without a kind is rendered in its place. -/
def Forest.indented (depth : Nat) (raw : Bool) : Forest → List Char
  | .nil => []
  | .cons node below beside =>
    (match node.kind with
      | .unset => below.indented depth raw
      | .text data => Indented.line depth (Indented.text raw data)
      | .mustache expression => Indented.line depth (Indented.mustache expression)
      | .element name attributes =>
        Indented.line depth (Indented.openingTag name attributes) ++
          if Element.isVoid name then []
          else below.indented (depth + 1) (Element.isRawText name) ++
            Indented.line depth (Scan.closingTag name))
      ++ beside.indented depth raw

@[simp] theorem Forest.indented_nil (depth : Nat) (raw : Bool) :
    Forest.nil.indented depth raw = [] := rfl

@[simp] theorem Forest.indented_append (depth : Nat) (raw : Bool) (f g : Forest) :
    (f ++ g).indented depth raw = f.indented depth raw ++ g.indented depth raw := by
  induction f with
  | nil => rfl
  | cons n below beside _ ih => simp [Forest.indented, ih]

def Forest.indentedOnto (depth : Nat) (raw : Bool) : Forest → List Char → List Char
  | .nil, tail => tail
  | .cons node below beside, tail =>
    let tail := beside.indentedOnto depth raw tail
    match node.kind with
    | .unset => below.indentedOnto depth raw tail
    | .text data => Indented.line depth (Indented.text raw data) ++ tail
    | .mustache expression => Indented.line depth (Indented.mustache expression) ++ tail
    | .element name attributes =>
      Indented.line depth (Indented.openingTag name attributes) ++
        if Element.isVoid name then tail
        else below.indentedOnto (depth + 1) (Element.isRawText name)
          (Indented.line depth (Scan.closingTag name) ++ tail)

@[simp] theorem Forest.indentedOnto_eq (depth : Nat) (raw : Bool) (f : Forest)
    (tail : List Char) : f.indentedOnto depth raw tail = f.indented depth raw ++ tail := by
  induction f generalizing depth raw tail with
  | nil => rfl
  | cons n below beside ihb ihs =>
    simp only [Forest.indentedOnto, Forest.indented, ihb, ihs]
    cases n.kind with
    | unset => simp
    | text data => simp
    | mustache expression => simp
    | element name attributes => by_cases h : Element.isVoid name = true <;> simp [h]

def Forest.render (f : Forest) : List Char := f.indentedOnto 0 false []

theorem Forest.render_eq (f : Forest) : f.render = f.indented 0 false := by
  simp [Forest.render]

def Tree.render (t : Tree) (id : NodeId) : Except Violation String :=
  if id < t.size then .ok (String.ofList (t.subtree id).render)
  else .error (.outOfBounds t.size id)

namespace Tree

def cell (t : Tree) (id : NodeId) : Except Violation Cell :=
  match t.cells[id]? with
  | some c => .ok c
  | none => .error (.outOfBounds t.size id)

def row (t : Tree) : Nat → Option NodeId → Except Violation (List NodeId)
  | _, none => .ok []
  | 0, some _ => .error .stalled
  | fuel + 1, some id => do
    let c ← t.cell id
    return id :: (← t.row fuel c.next?)

/-- Writes the subtree at `id` from node to node along the links, within `fuel` levels. -/
def write (t : Tree) : Nat → Nat → Bool → NodeId → Except Violation (List Char)
  | 0, _, _, _ => .error .stalled
  | fuel + 1, depth, raw, id => do
    let c ← t.cell id
    match c.node.kind with
    | .unset => return (← (← t.row t.size c.firstChild?).mapM (t.write fuel depth raw)).flatten
    | .text data => return Indented.line depth (Indented.text raw data)
    | .mustache expression => return Indented.line depth (Indented.mustache expression)
    | .element name attributes =>
      let front := Indented.line depth (Indented.openingTag name attributes)
      if Element.isVoid name then return front
      else
        let below ← (← t.row t.size c.firstChild?).mapM
          (t.write fuel (depth + 1) (Element.isRawText name))
        return front ++ below.flatten ++ Indented.line depth (Scan.closingTag name)

end Tree

end Template
