import Template.Forest.Indented
import Template.Playback
import Template.Reading

namespace Template

structure Document where
  tree : Tree
  deriving DecidableEq, Repr

namespace Document

inductive Failure
  | malformed (e : SyntaxError)
  | refused (v : Violation)
  deriving DecidableEq, Repr

structure Builder where
  tree : Tree := .empty
  opened : List NodeId := []
  deriving DecidableEq, Repr

namespace Builder

def innermost (b : Builder) : NodeId := b.opened.headD Tree.root

def openName? (b : Builder) : Option String :=
  b.opened.head?.bind fun id => (b.tree.node? id).bind Node.name?

def add (b : Builder) (n : Node) : Except Failure (NodeId × Builder) :=
  let (id, tree) := b.tree.push n
  match tree.append b.innermost id with
  | .ok tree => .ok (id, { b with tree := tree })
  | .error v => .error (.refused v)

def addLeaf (b : Builder) (n : Node) : Except Failure Builder := do return (← b.add n).2

def addOpen (b : Builder) (n : Node) : Except Failure Builder := do
  let (id, b) ← b.add n
  return { b with opened := id :: b.opened }

def close (b : Builder) (name : String) (position : Position) : Except Failure Builder :=
  if b.openName? = some name then .ok { b with opened := b.opened.tail }
  else .error (.malformed ⟨.unmatchedClosingTag name, position⟩)

def take (b : Builder) (t : Token) : Except Failure Builder :=
  match t.kind with
  | .endOfInput => .ok b
  | .comment _ => .ok b
  | .text data => b.addLeaf { kind := .text data, position := t.position }
  | .mustache expression => b.addLeaf { kind := .mustache expression, position := t.position }
  | .selfClosingTag name attributes => b.addLeaf (.element name attributes t.position)
  | .startTag name attributes => b.addOpen (.element name attributes t.position)
  | .endTag name => b.close name t.position

def finish (b : Builder) (position : Position) : Except Failure Document :=
  match b.openName? with
  | some name => .error (.malformed ⟨.unclosedElement name, position⟩)
  | none => .ok ⟨b.tree⟩

def run (b : Builder) : List Lexeme → Except Failure Document
  | [] => .ok ⟨b.tree⟩
  | .error e :: _ => .error (.malformed e)
  | .ok t :: ls =>
    if t.kind = .endOfInput then b.finish t.position
    else match b.take t with
      | .ok b => b.run ls
      | .error f => .error f

/-- Takes in lexemes as they are scanned, up to the end of the input or the first error, within
`fuel` of them. -/
def scan {σ : Type} (step : σ → Except Violation (Lexeme × σ)) :
    Nat → Builder → Playback σ → Except Violation (Except Failure Document × Playback σ)
  | 0, _, _ => .error .stalled
  | fuel + 1, b, p => do
    match ← p.next step with
    | (.error e, p) => return (.error (.malformed (p.firstError e.position)), p)
    | (.ok t, p) =>
      if t.kind = .endOfInput then return (b.finish t.position, p)
      else match b.take t with
        | .ok b => b.scan step fuel p
        | .error f => return (.error f, p)

end Builder

def ofLexemes (ls : List Lexeme) : Except Failure Document := Builder.run {} ls

def parse (source : String) : Except Failure Document := ofLexemes (lexemes source)

def nodes (d : Document) : List NodeId := d.tree.children Tree.root

def render (d : Document) : String :=
  String.ofList (d.nodes.flatMap fun id => (d.tree.subtree id).render)

end Document

end Template
