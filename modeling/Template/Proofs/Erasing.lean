import Template.Proofs.Moving
import Template.Proofs.Normal

namespace Template

def Token.Kind.unplaced : Token.Kind → Token.Kind
  | .startTag name attributes => .startTag name (attributes.map Attribute.unplaced)
  | .selfClosingTag name attributes => .selfClosingTag name (attributes.map Attribute.unplaced)
  | kind => kind

def Token.unplaced (t : Token) : Token := ⟨t.kind.unplaced, {}⟩

def SyntaxError.unplaced (e : SyntaxError) : SyntaxError := ⟨e.cause, {}⟩

def Lexeme.unplaced : Lexeme → Lexeme
  | .ok t => .ok t.unplaced
  | .error e => .error e.unplaced

section Move

variable {base : Position}

theorem Attribute.unplaced_move (a : Attribute) : (a.move base).unplaced = a.unplaced := rfl

theorem Token.unplaced_move (t : Token) : (t.move base).unplaced = t.unplaced := by
  obtain ⟨kind, p⟩ := t
  cases kind <;> simp [move, unplaced, Kind.move, Kind.unplaced, Function.comp_def,
    Attribute.unplaced_move]

theorem Lexeme.unplaced_move (l : Lexeme) : (l.move base).unplaced = l.unplaced := by
  cases l with
  | ok t => exact congrArg Except.ok t.unplaced_move
  | error e => rfl

end Move

namespace Tree

def Cell.unplaced (c : Cell) : Cell := { c with node := c.node.unplaced }

def unplaced (t : Tree) : Tree := ⟨t.cells.map Cell.unplaced⟩

variable (t : Tree) (id : NodeId)

@[simp] theorem size_unplaced : t.unplaced.size = t.size := Array.size_map

@[simp] theorem node?_unplaced : t.unplaced.node? id = (t.node? id).map Node.unplaced := by
  simp [node?, unplaced, Function.comp_def, Cell.unplaced]

theorem link_unplaced {α : Type} {link : Cell → Option α} (h : ∀ c, link c.unplaced = link c) :
    t.unplaced.cells[id]?.bind link = t.cells[id]?.bind link := by
  rw [unplaced, Array.getElem?_map]
  cases t.cells[id]? with
  | none => rfl
  | some c => exact h c

@[simp] theorem parent?_unplaced : t.unplaced.parent? id = t.parent? id :=
  t.link_unplaced id fun _ => rfl

@[simp] theorem lastChild?_unplaced : t.unplaced.lastChild? id = t.lastChild? id :=
  t.link_unplaced id fun _ => rfl

@[simp] theorem isAttached_unplaced : t.unplaced.isAttached id = t.isAttached id := by
  have hprev : t.unplaced.prev? id = t.prev? id := t.link_unplaced id fun _ => rfl
  have hnext : t.unplaced.next? id = t.next? id := t.link_unplaced id fun _ => rfl
  rw [isAttached, isAttached, parent?_unplaced, hprev, hnext]

@[simp] theorem lineage_unplaced : t.unplaced.lineage id = t.lineage id := by
  rw [lineage, lineage, size_unplaced]
  generalize t.size = fuel
  induction fuel generalizing id with
  | zero => rfl
  | succ fuel ih =>
    rw [lineageUpTo, lineageUpTo, parent?_unplaced]
    cases t.parent? id with
    | none => rfl
    | some parent => exact congrArg (id :: ·) (ih parent)

theorem unplaced_push (n : Node) : (t.push n).2.unplaced = (t.unplaced.push n.unplaced).2 := by
  simp [push, unplaced, Cell.unplaced]

theorem unplaced_update {f : Cell → Cell} (h : ∀ c, (f c).unplaced = f c.unplaced) :
    (t.update id f).unplaced = t.unplaced.update id f := by
  rw [unplaced, unplaced, Tree.mk.injEq]
  apply Array.ext_getElem?
  intro i
  rw [Array.getElem?_map, cells_update, cells_update, Array.getElem?_map]
  cases t.cells[i]? with
  | none => rfl
  | some c =>
    simp only [Option.map_some]
    split
    · rw [h c]
    · rfl

theorem unplaced_linkAfter (parent child : NodeId) (last? : Option NodeId) :
    (t.linkAfter parent child last?).unplaced = t.unplaced.linkAfter parent child last? := by
  cases last? with
  | none => exact t.unplaced_update parent fun _ => rfl
  | some last => exact t.unplaced_update last fun _ => rfl

theorem unplaced_attach (parent child : NodeId) :
    (t.attach parent child).unplaced = t.unplaced.attach parent child := by
  rw [attach, attach, lastChild?_unplaced]
  rw [unplaced_update, unplaced_update, unplaced_linkAfter]
  · exact fun _ => rfl
  · exact fun _ => rfl

theorem unplaced_append (parent child : NodeId) :
    (t.append parent child).map unplaced = t.unplaced.append parent child := by
  simp only [append, size_unplaced, isAttached_unplaced, lineage_unplaced, ← unplaced_attach]
  split_ifs <;> rfl

end Tree

namespace Document

def unplaced (d : Document) : Document := ⟨d.tree.unplaced⟩

def Failure.unplaced : Failure → Failure
  | .malformed e => .malformed e.unplaced
  | .refused v => .refused v

def unplacedBy {α : Type} (f : α → α) : Except Failure α → Except Failure α
  | .ok a => .ok (f a)
  | .error e => .error e.unplaced

namespace Builder

def unplaced (b : Builder) : Builder := { b with tree := b.tree.unplaced }

theorem openName?_unplaced (b : Builder) : b.unplaced.openName? = b.openName? := by
  obtain ⟨tree, opened⟩ := b
  cases opened with
  | nil => rfl
  | cons id opened =>
    change (tree.unplaced.node? id).bind Node.name? = (tree.node? id).bind Node.name?
    rw [Tree.node?_unplaced]
    cases tree.node? id with
    | none => rfl
    | some n => exact n.name?_unplaced

theorem unplaced_add (b : Builder) (n : Node) :
    b.unplaced.add n.unplaced = unplacedBy (fun x => (x.1, x.2.unplaced)) (b.add n) := by
  have hpush : b.unplaced.tree.push n.unplaced = (b.tree.size, (b.tree.push n).2.unplaced) := by
    rw [Tree.unplaced_push]
    exact Prod.ext (Tree.size_unplaced _) rfl
  have hpair : b.tree.push n = (b.tree.size, (b.tree.push n).2) := rfl
  have happend := (b.tree.push n).2.unplaced_append b.innermost b.tree.size
  generalize (b.tree.push n).2 = grown at hpush hpair happend
  simp only [add, hpush, hpair]
  rw [show b.unplaced.innermost = b.innermost from rfl, ← happend]
  cases grown.append b.innermost b.tree.size <;> rfl

theorem unplaced_addLeaf (b : Builder) (n : Node) :
    b.unplaced.addLeaf n.unplaced = unplacedBy unplaced (b.addLeaf n) := by
  rw [addLeaf, addLeaf, unplaced_add]
  cases b.add n <;> rfl

theorem unplaced_addOpen (b : Builder) (n : Node) :
    b.unplaced.addOpen n.unplaced = unplacedBy unplaced (b.addOpen n) := by
  rw [addOpen, addOpen, unplaced_add]
  cases b.add n <;> rfl

theorem unplaced_close (b : Builder) (name : String) (p : Position) :
    b.unplaced.close name {} = unplacedBy unplaced (b.close name p) := by
  rw [close, close, openName?_unplaced]
  split <;> rfl

theorem unplaced_take (b : Builder) (t : Token) :
    b.unplaced.take t.unplaced = unplacedBy unplaced (b.take t) := by
  obtain ⟨kind, p⟩ := t
  cases kind with
  | endOfInput => rfl
  | comment data => rfl
  | text data => exact b.unplaced_addLeaf { kind := .text data, position := p }
  | mustache expression => exact b.unplaced_addLeaf { kind := .mustache expression, position := p }
  | selfClosingTag name attributes => exact b.unplaced_addLeaf (.element name attributes p)
  | startTag name attributes => exact b.unplaced_addOpen (.element name attributes p)
  | endTag name => exact b.unplaced_close name p

theorem unplaced_finish (b : Builder) (p : Position) :
    b.unplaced.finish {} = unplacedBy Document.unplaced (b.finish p) := by
  rw [finish, finish, openName?_unplaced]
  split <;> rfl

theorem unplaced_run (b : Builder) (ls : List Lexeme) :
    b.unplaced.run (ls.map Lexeme.unplaced) = unplacedBy Document.unplaced (b.run ls) := by
  induction ls generalizing b with
  | nil => rfl
  | cons l ls ih =>
    cases l with
    | error e => rfl
    | ok t =>
      have hend : t.unplaced.kind = .endOfInput ↔ t.kind = .endOfInput := by
        obtain ⟨kind, p⟩ := t
        cases kind <;> simp [Token.unplaced, Token.Kind.unplaced]
      rw [List.map_cons, Lexeme.unplaced, run, run, unplaced_take]
      by_cases h : t.kind = .endOfInput
      · rw [if_pos h, if_pos (hend.2 h)]
        exact b.unplaced_finish t.position
      · rw [if_neg h, if_neg (mt hend.1 h)]
        cases b.take t with
        | ok b' => exact ih b'
        | error f => rfl

end Builder

end Document

end Template
