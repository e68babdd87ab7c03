namespace Template

structure Position where
  line : Nat := 0
  column : Nat := 0
  deriving DecidableEq, Repr, Inhabited

namespace Position

def advance (p : Position) (c : Char) : Position :=
  if c = '\n' then ⟨p.line + 1, 0⟩ else ⟨p.line, p.column + 1⟩

def after (p : Position) (cs : List Char) : Position := cs.foldl advance p

@[simp] theorem after_nil (p : Position) : p.after [] = p := rfl

@[simp] theorem after_cons (p : Position) (c : Char) (cs : List Char) :
    p.after (c :: cs) = (p.advance c).after cs := rfl

@[simp] theorem after_append (p : Position) (as bs : List Char) :
    p.after (as ++ bs) = (p.after as).after bs := List.foldl_append

/-- Lines are shown counted from one, columns as they are. -/
def display (p : Position) : String := toString (p.line + 1) ++ ":" ++ toString p.column

end Position

end Template
