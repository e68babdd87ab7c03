import Template.Proofs.Ancestry

namespace Template.Tree

variable {t t' : Tree} {parent child p id top : NodeId} {ids : List NodeId}

/-- The nodes at `top` and below it, found by going from a node to its children. -/
inductive Within (t : Tree) (top : NodeId) : NodeId → Prop
  | top : t.Within top top
  | child {p id : NodeId} : t.Within top p → id ∈ t.children p → t.Within top id

section Within

theorem Linked.within_iff_mem_trail (h : t.Linked) (htrail : Trail t.parent? (some id) ids) :
    t.Within top id ↔ top ∈ ids := by
  constructor
  · intro hwithin
    induction hwithin generalizing ids with
    | top =>
      cases htrail with
      | step _ => exact List.mem_cons_self
    | @child p id _ hmem ih =>
      cases htrail with
      | step htrail =>
        rw [h.parent?_of_mem hmem] at htrail
        exact List.mem_cons_of_mem _ (ih htrail)
  · intro hmem
    generalize hid? : some id = id? at htrail
    induction htrail generalizing id with
    | stop => cases hid?
    | @step a ids hrest ih =>
      cases hid?
      rcases List.mem_cons.1 hmem with rfl | hmem
      · exact .top
      · cases hp : t.parent? a with
        | none =>
          rw [hp] at hrest
          cases hrest
          cases hmem
        | some p => exact .child (ih hmem hp.symm) (h.mem hp)

theorem Grounded.within_iff (h : t.Grounded) (hid : id < t.size) :
    t.Within top id ↔ top ∈ t.lineage id := by
  obtain ⟨ids, htrail⟩ := h.climbs id
  rw [h.linked.lineage_eq htrail hid]
  exact h.linked.within_iff_mem_trail htrail

theorem Within.of_children (h : t.Within top id)
    (hsame : ∀ a, t.Within top a → t'.children a = t.children a) : t'.Within top id := by
  induction h with
  | top => exact .top
  | child hp hid ih =>
    rw [← hsame _ hp] at hid
    exact .child ih hid

theorem within_congr (hsame : ∀ a, t.Within top a → t'.children a = t.children a) (id : NodeId) :
    t'.Within top id ↔ t.Within top id := by
  refine ⟨?_, fun h => h.of_children hsame⟩
  intro h
  induction h with
  | top => exact .top
  | child _ hid ih =>
    rw [hsame _ ih] at hid
    exact .child ih hid

theorem forestTo_congr_within
    (hsame : ∀ a, t.Within top a → t'.node? a = t.node? a ∧ t'.children a = t.children a)
    (depth : Nat) (hid : t.Within top id) : t'.forestTo depth [id] = t.forestTo depth [id] := by
  induction depth generalizing id with
  | zero => rfl
  | succ depth ih =>
    obtain ⟨hnode, hchildren⟩ := hsame id hid
    have hbelow : t'.forestTo depth (t.children id) = t.forestTo depth (t.children id) :=
      forestTo_congr fun a ha => ih (.child hid ha)
    rw [forestTo, forestTo, List.foldr_cons, List.foldr_cons, hnode, hchildren, hbelow]
    rfl

end Within

section Attach

theorem append_eq_attach (hroot : child ≠ root) (hself : parent ≠ child) (hc : child < t.size)
    (hattached : t.isAttached child = false) (hp : parent < t.size)
    (hline : child ∉ t.lineage parent) :
    t.append parent child = .ok (t.attach parent child) := by
  rw [append, if_neg hroot, if_neg hself, if_neg (Nat.not_le.2 hc), hattached,
    if_neg Bool.false_ne_true, if_neg (Nat.not_le.2 hp), if_neg hline]

def Refuses (t : Tree) (parent child : NodeId) : Violation → Prop
  | .rootAsChild => child = root
  | .ownChild => parent = child
  | .outOfBounds size index => size = t.size ∧ t.size ≤ index ∧ (index = parent ∨ index = child)
  | .attachedChild => ∃ p, t.parent? child = some p
  | .descendantAsParent => t.Within child parent
  | _ => False

/-- `child` has come to stand below `parent`, after the children it had, and nothing else has
changed. -/
structure Gains (t t' : Tree) (parent child : NodeId) : Prop where
  wellFormed : t'.WellFormed
  size : t'.size = t.size
  children : t'.children parent = t.children parent ++ [child]
  others : ∀ p ≠ parent, t'.children p = t.children p
  node? : ∀ id, t'.node? id = t.node? id
  parent? : t'.parent? child = some parent
  parents : ∀ id ≠ child, t'.parent? id = t.parent? id
  below : ∀ id, t'.Within child id ↔ t.Within child id
  subtree : t'.subtree child = t.subtree child

structure Attaches (t : Tree) (parent child : NodeId) : Prop where
  ok_iff : (∃ t', t.append parent child = .ok t') ↔
    parent < t.size ∧ child < t.size ∧ child ≠ root ∧ child ≠ parent ∧
      t.parent? child = none ∧ ¬ t.Within child parent
  accepted : ∀ t', t.append parent child = .ok t' →
    t.edit (.append parent child) = t' ∧ t.Gains t' parent child
  refused : ∀ v, t.append parent child = .error v →
    t.edit (.append parent child) = t ∧ t.Refuses parent child v

namespace Grounded

variable (h : t.Grounded)
include h

theorem isAttached_eq_false_iff : t.isAttached child = false ↔ t.parent? child = none := by
  rw [← Bool.not_eq_true, h.linked.isAttached_iff, Bool.not_eq_true, Option.isSome_eq_false_iff,
    Option.isNone_iff_eq_none]

theorem gains (happend : t.append parent child = .ok t') : t.Gains t' parent child := by
  have hgrounded := h.append happend
  obtain ⟨hroot, hself, hc, hattached, hp, hline, rfl⟩ := append_eq_ok happend
  have hfree := h.isAttached_eq_false_iff.1 hattached
  have hchildren := h.linked.children_attach hp hc hfree
  have hothers : ∀ p ≠ parent, (t.attach parent child).children p = t.children p := by
    intro p hne
    rw [hchildren, if_neg hne]
  -- the one list that grows is not that of a node below the child
  have hsame : ∀ a, t.Within child a → (t.attach parent child).node? a = t.node? a ∧
      (t.attach parent child).children a = t.children a := by
    intro a ha
    refine ⟨node?_attach t parent child a, hothers a ?_⟩
    rintro rfl
    exact hline ((h.within_iff hp).1 ha)
  exact {
    wellFormed := hgrounded.wellFormed
    size := size_attach t parent child
    children := by rw [hchildren, if_pos rfl]
    others := hothers
    node? := node?_attach t parent child
    parent? := by rw [parent?_attach hc, if_pos rfl]
    parents := fun id hne => by rw [parent?_attach hc, if_neg hne]
    below := within_congr fun a ha => (hsame a ha).2
    subtree := by
      rw [subtree, subtree, size_attach]
      exact forestTo_congr_within hsame _ .top }

theorem refuses {v : Violation} (happend : t.append parent child = .error v) :
    t.Refuses parent child v := by
  unfold Tree.append at happend
  split at happend
  · cases happend
    assumption
  split at happend
  · cases happend
    assumption
  split at happend
  · cases happend
    exact ⟨rfl, ‹_›, .inr rfl⟩
  split at happend
  · rename_i hattached
    cases happend
    exact Option.isSome_iff_exists.1 ((h.linked.isAttached_iff child).1 hattached)
  split at happend
  · cases happend
    exact ⟨rfl, ‹_›, .inl rfl⟩
  split at happend
  · rename_i hp hline
    cases happend
    exact (h.within_iff (Nat.lt_of_not_le hp)).2 hline
  · cases happend

theorem append_ok_iff : (∃ t', t.append parent child = .ok t') ↔
    parent < t.size ∧ child < t.size ∧ child ≠ Tree.root ∧ child ≠ parent ∧
      t.parent? child = none ∧ ¬ t.Within child parent := by
  constructor
  · rintro ⟨t', happend⟩
    obtain ⟨hroot, hself, hc, hattached, hp, hline, -⟩ := append_eq_ok happend
    exact ⟨hp, hc, hroot, hself.symm, h.isAttached_eq_false_iff.1 hattached,
      mt (h.within_iff hp).1 hline⟩
  · rintro ⟨hp, hc, hroot, hself, hfree, hbelow⟩
    exact ⟨_, append_eq_attach hroot hself.symm hc (h.isAttached_eq_false_iff.2 hfree) hp
      (mt (h.within_iff hp).2 hbelow)⟩

end Grounded

/-- However a tree was edited, a node can be attached exactly where it is free and would not come
to stand below itself.  It then stands at the end of one list of children, with all that is below
it, and the rest of the tree stays; otherwise all of the tree stays. -/
theorem attaches_edits (es : List Edit) (parent child : NodeId) :
    (Tree.empty.edits es).Attaches parent child where
  ok_iff := (Grounded.empty.edits es).append_ok_iff
  accepted := by
    intro t' happend
    refine ⟨?_, (Grounded.empty.edits es).gains happend⟩
    rw [edit, happend]
  refused := by
    intro v happend
    refine ⟨?_, (Grounded.empty.edits es).refuses happend⟩
    rw [edit, happend]

example : (Tree.empty.edits [.push (.element "p" [] {}), .push { kind := .text "x" },
    .append 1 2]).append 2 1 = .error .descendantAsParent := by decide

end Attach

end Template.Tree
