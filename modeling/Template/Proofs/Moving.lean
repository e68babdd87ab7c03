import Template.Proofs.Brackets
import Template.Proofs.Walk

namespace Template

/-- The position `p` of a text that stands behind another one, which ends at `base`. -/
def Position.move (base p : Position) : Position :=
  if p.line = 0 then ⟨base.line, base.column + p.column⟩ else ⟨base.line + p.line, p.column⟩

namespace Position

@[simp] theorem move_zero (p : Position) : move {} p = p := by
  unfold move
  split
  · rename_i hline
    rw [Nat.zero_add, ← hline]
  · rw [Nat.zero_add]

@[simp] theorem move_start (base : Position) : move base {} = base := rfl

theorem move_advance (base p : Position) (c : Char) :
    (move base p).advance c = move base (p.advance c) := by
  unfold advance
  split
  · rw [move, move, if_neg (Nat.succ_ne_zero p.line)]
    split
    · rename_i hline
      rw [hline]
    · rfl
  · unfold move
    split
    · rfl
    · rfl

theorem move_after (base p : Position) (cs : List Char) :
    (move base p).after cs = move base (p.after cs) := by
  induction cs generalizing p with
  | nil => rfl
  | cons c cs ih => rw [after_cons, after_cons, move_advance, ih]

end Position

def Attribute.move (base : Position) (a : Attribute) : Attribute :=
  { a with position := Position.move base a.position }

def Token.Kind.move (base : Position) : Token.Kind → Token.Kind
  | .startTag name attributes => .startTag name (attributes.map (Attribute.move base))
  | .selfClosingTag name attributes => .selfClosingTag name (attributes.map (Attribute.move base))
  | kind => kind

theorem Token.Kind.move_eq_endOfInput {base : Position} {kind : Token.Kind} :
    kind.move base = .endOfInput ↔ kind = .endOfInput := by
  cases kind <;> simp [move]

def Token.move (base : Position) (t : Token) : Token :=
  ⟨t.kind.move base, Position.move base t.position⟩

@[simp] theorem Attribute.move_zero : Attribute.move {} = id := by
  funext a
  rw [move, Position.move_zero]
  rfl

@[simp] theorem Token.Kind.move_zero (kind : Token.Kind) : kind.move {} = kind := by
  cases kind <;> simp [move]

@[simp] theorem Token.move_zero : Token.move {} = id := by
  funext t
  rw [move, Kind.move_zero, Position.move_zero]
  rfl

def SyntaxError.move (base : Position) (e : SyntaxError) : SyntaxError :=
  { e with position := Position.move base e.position }

def Lexeme.move (base : Position) : Lexeme → Lexeme
  | .ok t => .ok (t.move base)
  | .error e => .error (e.move base)

theorem Lexeme.isEnd_move (base : Position) (l : Lexeme) : (l.move base).isEnd = l.isEnd := by
  cases l with
  | error e => rfl
  | ok t =>
    obtain ⟨kind, p⟩ := t
    cases kind <;> rfl

def Node.Kind.move (base : Position) : Node.Kind → Node.Kind
  | .element name attributes => .element name (attributes.map (Attribute.move base))
  | kind => kind

def Node.move (base : Position) (n : Node) : Node :=
  ⟨n.kind.move base, Position.move base n.position, n.ns?⟩

def Forest.move (base : Position) : Forest → Forest
  | .nil => .nil
  | .cons node below beside => .cons (node.move base) (below.move base) (beside.move base)

def Mark.move (base : Position) : Mark → Mark
  | .opening name attributes p =>
    .opening name (attributes.map (Attribute.move base)) (Position.move base p)
  | .closing name => .closing name
  | .text data p => .text data (Position.move base p)
  | .mustache expression p => .mustache expression (Position.move base p)

section Move

variable {base : Position}

@[simp] theorem Node.move_zero : Node.move {} = id := by
  funext n
  obtain ⟨kind, p, ns?⟩ := n
  cases kind <;> simp [move, Kind.move]

@[simp] theorem Forest.move_zero (f : Forest) : f.move {} = f := by
  induction f with
  | nil => rfl
  | cons node below beside ihw ihb => rw [move, Node.move_zero, ihw, ihb, id_eq]

theorem Token.marks_move (t : Token) : (t.move base).marks = t.marks.map (Mark.move base) := by
  obtain ⟨kind, p⟩ := t
  cases kind <;> rfl

theorem Token.brackets_move (t : Token) : (t.move base).brackets = t.brackets := by
  obtain ⟨kind, p⟩ := t
  cases kind <;> rfl

theorem Node.entering_move (n : Node) :
    (n.move base).entering = n.entering.map (Mark.move base) := by
  obtain ⟨kind, p, ns?⟩ := n
  cases kind <;> rfl

theorem Node.leaving_move (n : Node) : (n.move base).leaving = n.leaving.map (Mark.move base) := by
  obtain ⟨kind, p, ns?⟩ := n
  cases kind <;> rfl

theorem Node.name?_move (n : Node) : (n.move base).name? = n.name? := by
  obtain ⟨kind, p, ns?⟩ := n
  cases kind <;> rfl

theorem Node.Proper.move {n : Node} (h : n.Proper) : (n.move base).Proper := by
  obtain ⟨kind, p, ns?⟩ := n
  cases kind <;> exact h

theorem Forest.marks_move (f : Forest) : (f.move base).marks = f.marks.map (Mark.move base) := by
  induction f with
  | nil => rfl
  | cons node below beside ihw ihb =>
    simp [Forest.move, Forest.marks, Node.entering_move, Node.leaving_move, ihw, ihb]

theorem Forest.move_append (f g : Forest) : (f ++ g).move base = f.move base ++ g.move base := by
  induction f with
  | nil => rfl
  | cons node below beside _ ih => simp [Forest.move, ih]

theorem Forest.Proper.move {f : Forest} (h : f.Proper) : (f.move base).Proper := by
  induction f with
  | nil => trivial
  | cons node below beside ihw ihb =>
    obtain ⟨hnode, hleaf, hbelow, hbeside⟩ := h
    refine ⟨hnode.move, ?_, ihw hbelow, ihb hbeside⟩
    intro hname
    rw [Node.name?_move] at hname
    rw [hleaf hname]
    rfl

end Move

end Template
