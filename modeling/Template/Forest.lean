import Template.Tree

namespace Template

inductive Forest
  | nil
  | cons (node : Node) (below beside : Forest)
  deriving DecidableEq, Repr

namespace Forest

def append : Forest → Forest → Forest
  | .nil, g => g
  | .cons n below beside, g => .cons n below (beside.append g)

instance : Append Forest := ⟨append⟩

@[simp] theorem nil_append (f : Forest) : .nil ++ f = f := rfl

@[simp] theorem cons_append (n : Node) (below beside f : Forest) :
    Forest.cons n below beside ++ f = .cons n below (beside ++ f) := rfl

@[simp] theorem append_nil (f : Forest) : f ++ Forest.nil = f := by
  induction f with
  | nil => rfl
  | cons n below beside _ ih => simp [ih]

theorem append_assoc (f g h : Forest) : f ++ g ++ h = f ++ (g ++ h) := by
  induction f with
  | nil => rfl
  | cons n below beside _ ih => simp [ih]

end Forest

namespace Tree

def forestTo (t : Tree) : Nat → List NodeId → Forest
  | 0, _ => .nil
  | depth + 1, ids =>
    ids.foldr
      (fun id beside =>
        match t.node? id with
        | some node => .cons node (t.forestTo depth (t.children id)) beside
        | none => beside)
      .nil

/-- The subtree at `id`.  No tree is deeper than it has nodes. -/
def subtree (t : Tree) (id : NodeId) : Forest := t.forestTo t.size [id]

end Tree

end Template
