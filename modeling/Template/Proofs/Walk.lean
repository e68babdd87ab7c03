import Template.Forest

/-! Walks through a tree.  A walk enters every node before the nodes below it and leaves it after
them.  A grove is a forest together with the places of its nodes in a tree; where it stands in
the tree, walking there is walking through the grove. -/

namespace Template

inductive Visit
  | enter (id : NodeId)
  | leave (id : NodeId)
  deriving DecidableEq, Repr

def Visit.entered? : Visit → Option NodeId
  | .enter id => some id
  | .leave _ => none

inductive Mark
  | opening (name : String) (attributes : List Attribute) (position : Position)
  | closing (name : String)
  | text (data : String) (position : Position)
  | mustache (expression : String) (position : Position)
  deriving DecidableEq, Repr

def Token.marks (t : Token) : List Mark :=
  match t.kind with
  | .endOfInput => []
  | .comment _ => []
  | .text data => [.text data t.position]
  | .mustache expression => [.mustache expression t.position]
  | .startTag name attributes => [.opening name attributes t.position]
  | .selfClosingTag name attributes => [.opening name attributes t.position, .closing name]
  | .endTag name => [.closing name]

namespace Node

def entering (n : Node) : List Mark :=
  match n.kind with
  | .unset => []
  | .text data => [.text data n.position]
  | .mustache expression => [.mustache expression n.position]
  | .element name attributes => [.opening name attributes n.position]

def leaving (n : Node) : List Mark :=
  match n.kind with
  | .element name _ => [.closing name]
  | _ => []

end Node

namespace Tree

def walkTo (t : Tree) : Nat → List NodeId → List Visit
  | 0, _ => []
  | fuel + 1, ids =>
    ids.flatMap fun id => .enter id :: (t.walkTo fuel (t.children id) ++ [.leave id])

def walk (t : Tree) (id : NodeId) : List Visit := t.walkTo t.size (t.children id)

def marksAt (t : Tree) : Visit → List Mark
  | .enter id => ((t.node? id).map Node.entering).getD []
  | .leave id => ((t.node? id).map Node.leaving).getD []

theorem walkTo_append (t : Tree) (fuel : Nat) (as bs : List NodeId) :
    t.walkTo fuel (as ++ bs) = t.walkTo fuel as ++ t.walkTo fuel bs := by
  cases fuel with
  | zero => rfl
  | succ fuel => simp [walkTo]

theorem forestTo_append (t : Tree) (depth : Nat) (as bs : List NodeId) :
    t.forestTo depth (as ++ bs) = t.forestTo depth as ++ t.forestTo depth bs := by
  cases depth with
  | zero => rfl
  | succ depth =>
    induction as with
    | nil => rfl
    | cons a as ih =>
      simp only [forestTo, List.cons_append, List.foldr_cons] at ih ⊢
      rw [ih]
      cases t.node? a <;> rfl

end Tree

def Forest.marks : Forest → List Mark
  | .nil => []
  | .cons node below beside => node.entering ++ below.marks ++ node.leaving ++ beside.marks

@[simp] theorem Forest.marks_nil : Forest.nil.marks = [] := rfl

@[simp] theorem Forest.marks_append (f g : Forest) : (f ++ g).marks = f.marks ++ g.marks := by
  induction f with
  | nil => rfl
  | cons node below beside _ ih => simp [Forest.marks, ih]

section Proper

/-- A node as the builder makes it: never without a kind, and with the namespace of its name. -/
def Node.Proper (n : Node) : Prop :=
  match n.kind with
  | .unset => False
  | .text _ => n.ns? = none
  | .mustache _ => n.ns? = none
  | .element name _ => n.ns? = Element.ns? name

def Forest.Proper : Forest → Prop
  | .nil => True
  | .cons node below beside =>
    node.Proper ∧ (node.name? = none → below = .nil) ∧ below.Proper ∧ beside.Proper

def Closing (ms : List Mark) : Prop := ∀ m ∈ ms.head?, ∃ name, m = .closing name

theorem closing_cons (name : String) (ms : List Mark) : Closing (.closing name :: ms) := by
  rintro m ⟨⟩
  exact ⟨name, rfl⟩

@[simp] theorem Forest.proper_append (f g : Forest) : (f ++ g).Proper ↔ f.Proper ∧ g.Proper := by
  induction f with
  | nil => simp [Forest.Proper]
  | cons node below beside _ ih => simp [Forest.Proper, ih, and_assoc]

theorem Node.leaving_of_none {n : Node} (h : n.name? = none) : n.leaving = [] := by
  obtain ⟨kind, p, ns?⟩ := n
  cases kind with
  | element name attributes => cases h
  | _ => rfl

theorem Node.leaving_of_some {n : Node} {name : String} (h : n.name? = some name) :
    n.leaving = [.closing name] := by
  obtain ⟨kind, p, ns?⟩ := n
  cases kind with
  | element name attributes =>
    cases h
    rfl
  | _ => cases h

theorem Node.Proper.entering_eq {n : Node} (h : n.Proper) :
    ∃ m, n.entering = [m] ∧ ∀ name, m ≠ .closing name := by
  obtain ⟨kind, p, ns?⟩ := n
  cases kind with
  | unset => cases h
  | text data => exact ⟨_, rfl, fun _ heq => nomatch heq⟩
  | mustache expression => exact ⟨_, rfl, fun _ heq => nomatch heq⟩
  | element name attributes => exact ⟨_, rfl, fun _ heq => nomatch heq⟩

theorem Node.Proper.eq_of_entering {n n' : Node} (h : n.Proper) (h' : n'.Proper)
    (heq : n.entering = n'.entering) : n = n' := by
  obtain ⟨kind, p, ns?⟩ := n
  obtain ⟨kind', p', ns?'⟩ := n'
  cases kind <;> cases kind' <;> cases heq <;> cases h <;> cases h' <;> rfl

theorem Forest.Proper.eq_nil_of_closing {f : Forest} {ms : List Mark} (h : f.Proper)
    (hclosing : Closing (f.marks ++ ms)) : f = .nil := by
  cases f with
  | nil => rfl
  | cons node below beside =>
    obtain ⟨m, hm, hne⟩ := h.1.entering_eq
    rw [Forest.marks, hm] at hclosing
    obtain ⟨name, hname⟩ := hclosing m rfl
    exact absurd hname (hne name)

theorem Forest.Proper.eq_of_marks_append {f g : Forest} {us vs : List Mark} (hf : f.Proper)
    (hg : g.Proper) (hus : Closing us) (hvs : Closing vs) (h : f.marks ++ us = g.marks ++ vs) :
    f = g ∧ us = vs := by
  -- what follows the forests opens no node, so that both end at the same mark
  induction f generalizing g us vs with
  | nil =>
    rw [Forest.marks, List.nil_append] at h
    rw [h] at hus
    rw [hg.eq_nil_of_closing hus] at h ⊢
    exact ⟨rfl, h⟩
  | cons node below beside ihw ihb =>
    cases g with
    | nil =>
      rw [Forest.marks_nil, List.nil_append] at h
      rw [← h] at hvs
      cases hf.eq_nil_of_closing hvs
    | cons node' below' beside' =>
      obtain ⟨hnode, hleaf, hbelow, hbeside⟩ := hf
      obtain ⟨hnode', hleaf', hbelow', hbeside'⟩ := hg
      obtain ⟨m, hm, -⟩ := hnode.entering_eq
      obtain ⟨m', hm', -⟩ := hnode'.entering_eq
      simp only [Forest.marks, hm, hm', List.append_assoc, List.cons_append, List.nil_append,
        List.cons.injEq] at h
      obtain ⟨rfl, h⟩ := h
      cases hnode.eq_of_entering hnode' (hm.trans hm'.symm)
      cases hname : node.name? with
      | none =>
        rw [hleaf hname, hleaf' hname, Node.leaving_of_none hname] at h
        obtain ⟨rfl, rfl⟩ := ihb hbeside hbeside' hus hvs h
        exact ⟨by rw [hleaf hname, hleaf' hname], rfl⟩
      | some name =>
        rw [Node.leaving_of_some hname] at h
        obtain ⟨rfl, hrest⟩ := ihw hbelow hbelow' (closing_cons _ _) (closing_cons _ _) h
        obtain ⟨rfl, rfl⟩ := ihb hbeside hbeside' hus hvs (List.cons.inj hrest).2
        exact ⟨rfl, rfl⟩

theorem Forest.Proper.eq_of_marks {f g : Forest} (hf : f.Proper) (hg : g.Proper)
    (h : f.marks = g.marks) : f = g := by
  have hnil : Closing [] := fun m hm => nomatch hm
  refine (hf.eq_of_marks_append hg hnil hnil ?_).1
  rw [h]

end Proper

inductive Grove
  | nil
  | snoc (before : Grove) (id : NodeId) (node : Node) (below : Grove)

namespace Grove

def roots : Grove → List NodeId
  | nil => []
  | snoc before id _ _ => before.roots ++ [id]

def ids : Grove → List NodeId
  | nil => []
  | snoc before id _ below => before.ids ++ id :: below.ids

def marks : Grove → List Mark
  | nil => []
  | snoc before _ node below => before.marks ++ (node.entering ++ below.marks ++ node.leaving)

def walk : Grove → List Visit
  | nil => []
  | snoc before id _ below => before.walk ++ .enter id :: (below.walk ++ [.leave id])

def toForest : Grove → Forest
  | nil => .nil
  | snoc before _ node below => before.toForest ++ .cons node below.toForest .nil

def height : Grove → Nat
  | nil => 0
  | snoc before _ _ below => max before.height (below.height + 1)

def In (t : Tree) : Grove → Prop
  | nil => True
  | snoc before id node below =>
    before.In t ∧ t.node? id = some node ∧ t.children id = below.roots ∧ below.In t

variable {t t' : Tree} {g : Grove}

theorem height_le_length (g : Grove) : g.height ≤ g.ids.length := by
  induction g with
  | nil => exact Nat.le_refl 0
  | snoc before id node below ihb ihw =>
    rw [height, ids, List.length_append, List.length_cons]
    omega

theorem marks_toForest (g : Grove) : g.toForest.marks = g.marks := by
  induction g with
  | nil => rfl
  | snoc before id node below ihb ihw => simp [toForest, marks, Forest.marks, ihb, ihw]

theorem entered_walk (g : Grove) : g.walk.filterMap Visit.entered? = g.ids := by
  induction g with
  | nil => rfl
  | snoc before id node below ihb ihw => simp [walk, ids, Visit.entered?, ihb, ihw]

theorem In.walkTo_eq (h : g.In t) {fuel : Nat} (hf : g.height ≤ fuel) :
    t.walkTo fuel g.roots = g.walk := by
  induction g generalizing fuel with
  | nil => cases fuel <;> rfl
  | snoc before id node below ihb ihw =>
    obtain ⟨hbefore, _, hkids, hbelow⟩ := h
    rw [height] at hf
    rw [roots, Tree.walkTo_append, ihb hbefore (by omega), walk]
    cases fuel with
    | zero => omega
    | succ fuel =>
      rw [Tree.walkTo, List.flatMap_singleton, hkids, ihw hbelow (by omega)]

theorem In.forestTo_eq (h : g.In t) {depth : Nat} (hd : g.height ≤ depth) :
    t.forestTo depth g.roots = g.toForest := by
  induction g generalizing depth with
  | nil => cases depth <;> rfl
  | snoc before id node below ihb ihw =>
    obtain ⟨hbefore, hnode, hkids, hbelow⟩ := h
    rw [height] at hd
    rw [roots, Tree.forestTo_append, ihb hbefore (by omega), toForest]
    cases depth with
    | zero => omega
    | succ depth =>
      rw [Tree.forestTo, List.foldr_cons, hnode, hkids]
      simp only [ihw hbelow (show below.height ≤ depth by omega), List.foldr_nil]

theorem In.marksAt_walk (h : g.In t) : g.walk.flatMap t.marksAt = g.marks := by
  induction g with
  | nil => rfl
  | snoc before id node below ihb ihw =>
    obtain ⟨hbefore, hnode, _, hbelow⟩ := h
    simp [walk, marks, Tree.marksAt, hnode, ihb hbefore, ihw hbelow]

theorem In.congr (h : g.In t)
    (hsame : ∀ id ∈ g.ids, t'.node? id = t.node? id ∧ t'.children id = t.children id) :
    g.In t' := by
  induction g with
  | nil => trivial
  | snoc before id node below ihb ihw =>
    obtain ⟨hbefore, hnode, hkids, hbelow⟩ := h
    simp only [ids, List.forall_mem_append, List.forall_mem_cons] at hsame
    obtain ⟨hsb, hsid, hsw⟩ := hsame
    exact ⟨ihb hbefore hsb, hsid.1.trans hnode, hsid.2.trans hkids, ihw hbelow hsw⟩

end Grove

end Template
