import Template.Token
import Template.Violation

/-! Trees of nodes.  Every node is kept in one array and named by its index there.  Node 0 is
the root: it collects the nodes at the top level. -/

namespace Template

inductive Node.Kind
  | unset
  | text (data : String)
  | mustache (expression : String)
  | element (name : String) (attributes : List Attribute)
  deriving DecidableEq, Repr

structure Node where
  kind : Node.Kind
  position : Position := {}
  ns? : Option String := none
  deriving DecidableEq, Repr

def Node.element (name : String) (attributes : List Attribute) (position : Position) : Node :=
  ⟨.element name attributes, position, Element.ns? name⟩

def Node.name? (n : Node) : Option String :=
  match n.kind with
  | .element name _ => some name
  | _ => none

abbrev NodeId := Nat

/-- A node and its links: the node above it, the first and the last below it, and those beside
it. -/
structure Tree.Cell where
  node : Node
  parent? : Option NodeId := none
  firstChild? : Option NodeId := none
  lastChild? : Option NodeId := none
  prev? : Option NodeId := none
  next? : Option NodeId := none
  deriving DecidableEq, Repr

structure Tree where
  cells : Array Tree.Cell
  deriving DecidableEq, Repr

namespace Tree

def root : NodeId := 0

def empty : Tree := ⟨#[{ node := { kind := .unset } }]⟩

def size (t : Tree) : Nat := t.cells.size

def node? (t : Tree) (id : NodeId) : Option Node := t.cells[id]?.map Cell.node

def parent? (t : Tree) (id : NodeId) : Option NodeId := t.cells[id]?.bind Cell.parent?

def firstChild? (t : Tree) (id : NodeId) : Option NodeId := t.cells[id]?.bind Cell.firstChild?

def lastChild? (t : Tree) (id : NodeId) : Option NodeId := t.cells[id]?.bind Cell.lastChild?

def prev? (t : Tree) (id : NodeId) : Option NodeId := t.cells[id]?.bind Cell.prev?

def next? (t : Tree) (id : NodeId) : Option NodeId := t.cells[id]?.bind Cell.next?

def rowUpTo (t : Tree) : Nat → Option NodeId → List NodeId
  | fuel + 1, some id => id :: t.rowUpTo fuel (t.next? id)
  | _, _ => []

def children (t : Tree) (id : NodeId) : List NodeId := t.rowUpTo t.size (t.firstChild? id)

def isAttached (t : Tree) (id : NodeId) : Bool :=
  (t.parent? id).isSome || (t.prev? id).isSome || (t.next? id).isSome

def lineageUpTo (t : Tree) : Nat → NodeId → List NodeId
  | 0, _ => []
  | fuel + 1, id =>
    id :: match t.parent? id with
      | some parent => t.lineageUpTo fuel parent
      | none => []

def lineage (t : Tree) (id : NodeId) : List NodeId := t.lineageUpTo t.size id

def push (t : Tree) (n : Node) : NodeId × Tree := (t.size, ⟨t.cells.push { node := n }⟩)

def update (t : Tree) (id : NodeId) (f : Cell → Cell) : Tree := ⟨t.cells.modify id f⟩

def replace? (t : Tree) (id : NodeId) (n : Node) : Option Tree :=
  if id < t.size then some (t.update id fun c => { c with node := n }) else none

def linkAfter (t : Tree) (parent child : NodeId) : Option NodeId → Tree
  | some last => t.update last fun c => { c with next? := some child }
  | none => t.update parent fun c => { c with firstChild? := some child }

def attach (t : Tree) (parent child : NodeId) : Tree :=
  let last? := t.lastChild? parent
  ((t.linkAfter parent child last?).update parent fun c => { c with lastChild? := some child }).update
    child fun c => { c with parent? := some parent, prev? := last? }

/-- Attaches `child` under `parent`, unless it is the root, has a place already, or would come
to stand below itself.  Debug builds are meant: only there the last is looked at. -/
def append (t : Tree) (parent child : NodeId) : Except Violation Tree :=
  if child = root then .error .rootAsChild
  else if parent = child then .error .ownChild
  else if t.size ≤ child then .error (.outOfBounds t.size child)
  else if t.isAttached child then .error .attachedChild
  else if t.size ≤ parent then .error (.outOfBounds t.size parent)
  else if child ∈ t.lineage parent then .error .descendantAsParent
  else .ok (t.attach parent child)

@[simp] theorem size_empty : empty.size = 1 := rfl

@[simp] theorem size_push (t : Tree) (n : Node) : (t.push n).2.size = t.size + 1 := by
  simp [push, size]

@[simp] theorem size_update (t : Tree) (id : NodeId) (f : Cell → Cell) :
    (t.update id f).size = t.size := by
  simp [update, size]

@[simp] theorem size_attach (t : Tree) (parent child : NodeId) :
    (t.attach parent child).size = t.size := by
  simp only [attach, size_update]
  cases t.lastChild? parent <;> simp [linkAfter]

end Tree

end Template
