import Mathlib.Data.List.Perm.Subperm
import Mathlib.Data.List.Range
import Mathlib.Logic.Function.Basic
import Template.Tree

namespace Template.Tree

variable {t : Tree} {kids : NodeId → List NodeId} {parent child p q id : NodeId}

/-- The nodes `ids` are children of `parent` next to each other, the first of them after `prev?`
and the last without a next one. -/
def Row (t : Tree) (parent : NodeId) : Option NodeId → List NodeId → Prop
  | _, [] => True
  | prev?, id :: ids =>
    t.parent? id = some parent ∧ t.prev? id = prev? ∧ t.next? id = ids.head? ∧
      t.Row parent (some id) ids

/-- The links of the tree make `kids p` the children of `p`, for every `p`. -/
structure LinkedBy (t : Tree) (kids : NodeId → List NodeId) : Prop where
  first : ∀ p, t.firstChild? p = (kids p).head?
  last : ∀ p, t.lastChild? p = (kids p).getLast?
  row : ∀ p, t.Row p none (kids p)
  nodup : ∀ p, (kids p).Nodup
  mem : ∀ {id p}, t.parent? id = some p → id ∈ kids p
  free : ∀ {id}, t.parent? id = none → t.prev? id = none ∧ t.next? id = none

def Linked (t : Tree) : Prop := t.LinkedBy t.children

theorem Row.parent?_eq {prev? : Option NodeId} {ids : List NodeId} (h : t.Row p prev? ids)
    (hid : id ∈ ids) : t.parent? id = some p := by
  induction ids generalizing prev? with
  | nil => cases hid
  | cons a ids ih =>
    rcases List.mem_cons.1 hid with rfl | hid
    · exact h.1
    · exact ih h.2.2.2 hid

theorem Row.rowUpTo_eq {prev? : Option NodeId} {ids : List NodeId} (h : t.Row p prev? ids)
    (fuel : Nat) : t.rowUpTo fuel ids.head? = ids.take fuel := by
  induction ids generalizing prev? fuel with
  | nil => cases fuel <;> simp [rowUpTo]
  | cons a ids ih =>
    cases fuel with
    | zero => rfl
    | succ fuel =>
      rw [List.head?_cons, rowUpTo, h.2.2.1, ih h.2.2.2, List.take_succ_cons]

theorem Row.congr {t' : Tree} {prev? : Option NodeId} {ids : List NodeId}
    (h : t.Row p prev? ids) (hparent : ∀ id ∈ ids, t'.parent? id = t.parent? id)
    (hprev : ∀ id ∈ ids, t'.prev? id = t.prev? id)
    (hnext : ∀ id ∈ ids, t'.next? id = t.next? id) : t'.Row p prev? ids := by
  induction ids generalizing prev? with
  | nil => trivial
  | cons a ids ih =>
    simp only [List.forall_mem_cons] at hparent hprev hnext
    exact ⟨hparent.1.trans h.1, hprev.1.trans h.2.1, hnext.1.trans h.2.2.1,
      ih h.2.2.2 hparent.2 hprev.2 hnext.2⟩

theorem lt_size_of_link {g : Cell → Option NodeId} (h : t.cells[id]?.bind g = some p) :
    id < t.size := by
  by_contra hge
  rw [Array.getElem?_eq_none (Nat.le_of_not_lt hge)] at h
  cases h

theorem lt_size_of_node? {n : Node} (h : t.node? id = some n) : id < t.size := by
  obtain ⟨c, hc, -⟩ := Option.map_eq_some_iff.1 h
  exact (Array.getElem?_eq_some_iff.1 hc).1

theorem lt_size_of_parent? (h : t.parent? id = some p) : id < t.size := lt_size_of_link h

theorem parent?_of_size_le (h : t.size ≤ id) : t.parent? id = none := by
  rw [parent?, Array.getElem?_eq_none h, Option.bind_none]

theorem lt_size_of_firstChild? (h : t.firstChild? p = some id) : p < t.size := lt_size_of_link h

namespace LinkedBy

theorem parent?_of_mem (h : t.LinkedBy kids) (hid : id ∈ kids p) : t.parent? id = some p :=
  (h.row p).parent?_eq hid

theorem lt_size_of_mem (h : t.LinkedBy kids) (hid : id ∈ kids p) : id < t.size :=
  lt_size_of_parent? (h.parent?_of_mem hid)

theorem kids_of_size_le (h : t.LinkedBy kids) (hp : t.size ≤ p) : kids p = [] := by
  cases hk : kids p with
  | nil => rfl
  | cons id ids =>
    have hfirst : t.firstChild? p = some id := by rw [h.first, hk, List.head?_cons]
    exact absurd (lt_size_of_firstChild? hfirst) (Nat.not_lt.2 hp)

theorem length_kids_le (h : t.LinkedBy kids) (p : NodeId) : (kids p).length ≤ t.size := by
  have hsub : kids p ⊆ List.range t.size := by
    intro id hid
    exact List.mem_range.2 (h.lt_size_of_mem hid)
  simpa using ((h.nodup p).subperm hsub).length_le

theorem children_eq (h : t.LinkedBy kids) (p : NodeId) : t.children p = kids p := by
  rw [children, h.first, (h.row p).rowUpTo_eq, List.take_of_length_le (h.length_kids_le p)]

theorem of_links {t' : Tree} (h : t.LinkedBy kids) (hparent : ∀ id, t'.parent? id = t.parent? id)
    (hfirst : ∀ id, t'.firstChild? id = t.firstChild? id)
    (hlast : ∀ id, t'.lastChild? id = t.lastChild? id) (hprev : ∀ id, t'.prev? id = t.prev? id)
    (hnext : ∀ id, t'.next? id = t.next? id) : t'.LinkedBy kids where
  first p := (hfirst p).trans (h.first p)
  last p := (hlast p).trans (h.last p)
  row p := (h.row p).congr (fun id _ => hparent id) (fun id _ => hprev id) fun id _ => hnext id
  nodup := h.nodup
  mem := by
    intro id p hid
    rw [hparent] at hid
    exact h.mem hid
  free := by
    intro id hid
    rw [hparent] at hid
    rw [hprev, hnext]
    exact h.free hid

theorem linked (h : t.LinkedBy kids) : t.Linked := by
  have heq : t.children = kids := funext h.children_eq
  rw [Linked, heq]
  exact h

end LinkedBy

theorem linked_empty : empty.Linked := by
  have hlink : ∀ (id : NodeId) (g : Cell → Option NodeId),
      g { node := { kind := .unset } } = none → empty.cells[id]?.bind g = none := by
    intro id g hg
    cases id <;> simp [empty, hg]
  have hnone : empty.LinkedBy fun _ => [] := {
    first := fun p => hlink p _ rfl
    last := fun p => hlink p _ rfl
    row := fun _ => trivial
    nodup := fun _ => List.nodup_nil
    mem := by
      intro id p h
      rw [parent?, hlink id _ rfl] at h
      cases h
    free := fun {id} _ => ⟨hlink id _ rfl, hlink id _ rfl⟩ }
  exact hnone.linked

section Push

variable {n : Node}

theorem link_push {g : Cell → Option NodeId} (hg : g { node := n } = none) (id : NodeId) :
    (t.push n).2.cells[id]?.bind g = t.cells[id]?.bind g := by
  simp only [push, Array.getElem?_push]
  split
  · rename_i h
    rw [h, Array.getElem?_eq_none (Nat.le_refl _), Option.bind_some, hg, Option.bind_none]
  · rfl

@[simp] theorem parent?_push (id : NodeId) : (t.push n).2.parent? id = t.parent? id :=
  link_push rfl id

theorem LinkedBy.push (h : t.LinkedBy kids) (n : Node) : (t.push n).2.LinkedBy kids :=
  h.of_links (link_push rfl) (link_push rfl) (link_push rfl) (link_push rfl) (link_push rfl)

theorem Linked.push (h : t.Linked) (n : Node) : (t.push n).2.Linked :=
  (LinkedBy.push h n).linked

theorem Linked.children_push (h : t.Linked) (n : Node) (p : NodeId) :
    (t.push n).2.children p = t.children p :=
  (LinkedBy.push h n).children_eq p

theorem lt_size_push (n : Node) (h : id < t.size) : id < (t.push n).2.size := by
  rw [size_push]
  exact Nat.lt_succ_of_lt h

theorem node?_push_of_lt (n : Node) (h : id < t.size) : (t.push n).2.node? id = t.node? id := by
  rw [node?, push, Array.getElem?_push_lt h, node?, Array.getElem?_eq_getElem h]

@[simp] theorem node?_push_size (t : Tree) (n : Node) : (t.push n).2.node? t.size = some n := by
  simp [node?, push, size]

end Push

section Attach

def Cell.relink (parent child : NodeId) (last? : Option NodeId) (id : NodeId) (c : Cell) :
    Cell where
  node := c.node
  parent? := if id = child then some parent else c.parent?
  firstChild? := if id = parent ∧ last? = none then some child else c.firstChild?
  lastChild? := if id = parent then some child else c.lastChild?
  prev? := if id = child then last? else c.prev?
  next? := if last? = some id then some child else c.next?

theorem cells_update (t : Tree) (i id : NodeId) (f : Cell → Cell) :
    (t.update i f).cells[id]? = t.cells[id]?.map fun c => if id = i then f c else c := by
  rw [update, Array.getElem?_modify]
  by_cases h : id = i
  · simp [h]
  · simp [h, Ne.symm h]

theorem cells_linkAfter (t : Tree) (parent child id : NodeId) (last? : Option NodeId) :
    (t.linkAfter parent child last?).cells[id]? = t.cells[id]?.map fun c =>
      { c with
        firstChild? := if id = parent ∧ last? = none then some child else c.firstChild?
        next? := if last? = some id then some child else c.next? } := by
  cases last? with
  | none =>
    rw [linkAfter, cells_update]
    congr 1
    funext c
    by_cases h : id = parent <;> simp [h]
  | some last =>
    rw [linkAfter, cells_update]
    congr 1
    funext c
    by_cases h : id = last
    · simp [h]
    · simp [h, Ne.symm h]

theorem cells_attach (t : Tree) (parent child id : NodeId) :
    (t.attach parent child).cells[id]? =
      t.cells[id]?.map (Cell.relink parent child (t.lastChild? parent) id) := by
  simp only [attach, cells_update, cells_linkAfter, Option.map_map]
  congr 1
  funext c
  simp only [Function.comp_apply, Cell.relink]
  by_cases hc : id = child
  · by_cases hp : id = parent
    · simp only [if_pos hc, if_pos hp]
    · simp only [if_pos hc, if_neg hp]
  · by_cases hp : id = parent
    · simp only [if_neg hc, if_pos hp]
    · simp only [if_neg hc, if_neg hp]

@[simp] theorem node?_attach (t : Tree) (parent child id : NodeId) :
    (t.attach parent child).node? id = t.node? id := by
  rw [node?, cells_attach, Option.map_map]
  rfl

theorem link_attach (g : Cell → Option NodeId) (id : NodeId) :
    (t.attach parent child).cells[id]?.bind g =
      t.cells[id]?.bind fun c => g (c.relink parent child (t.lastChild? parent) id) := by
  rw [cells_attach, Option.bind_map]
  rfl

theorem bind_ite {g : Cell → Option NodeId} {v : Option NodeId} {i : NodeId} (hi : i < t.size)
    (id : NodeId) :
    (t.cells[id]?.bind fun c => if id = i then v else g c) =
      if id = i then v else t.cells[id]?.bind g := by
  by_cases h : id = i
  · subst h
    simp [Array.getElem?_eq_getElem hi]
  · simp [h]

theorem parent?_attach (hc : child < t.size) (id : NodeId) :
    (t.attach parent child).parent? id = if id = child then some parent else t.parent? id :=
  (link_attach _ id).trans (bind_ite hc id)

theorem prev?_attach (hc : child < t.size) (id : NodeId) :
    (t.attach parent child).prev? id =
      if id = child then t.lastChild? parent else t.prev? id :=
  (link_attach _ id).trans (bind_ite hc id)

theorem lastChild?_attach (hp : parent < t.size) (id : NodeId) :
    (t.attach parent child).lastChild? id =
      if id = parent then some child else t.lastChild? id :=
  (link_attach _ id).trans (bind_ite hp id)

theorem firstChild?_attach (hp : parent < t.size) (id : NodeId) :
    (t.attach parent child).firstChild? id =
      if id = parent ∧ t.lastChild? parent = none then some child else t.firstChild? id := by
  refine (link_attach _ id).trans ?_
  by_cases hlast : t.lastChild? parent = none
  · simpa [Cell.relink, hlast, firstChild?] using bind_ite hp id
  · simp [Cell.relink, hlast, firstChild?]

theorem next?_attach (hlast : ∀ last, t.lastChild? parent = some last → last < t.size)
    (id : NodeId) :
    (t.attach parent child).next? id =
      if t.lastChild? parent = some id then some child else t.next? id := by
  refine (link_attach _ id).trans ?_
  cases h : t.lastChild? parent with
  | none => simp [Cell.relink, next?]
  | some last => simpa [Cell.relink, next?, eq_comm] using bind_ite (hlast last h) id

theorem Row.concat {t' : Tree} {prev? : Option NodeId} {ids : List NodeId}
    (h : t.Row p prev? ids) (hnodup : ids.Nodup) (hchild : t'.parent? child = some p)
    (hback : t'.prev? child = ids.getLast?.or prev?) (hend : t'.next? child = none)
    (hparent : ∀ id ∈ ids, t'.parent? id = t.parent? id)
    (hprev : ∀ id ∈ ids, t'.prev? id = t.prev? id)
    (hnext : ∀ id ∈ ids,
      t'.next? id = if ids.getLast? = some id then some child else t.next? id) :
    t'.Row p prev? (ids ++ [child]) := by
  induction ids generalizing prev? with
  | nil => exact ⟨hchild, hback, hend, trivial⟩
  | cons a ids ih =>
    simp only [List.forall_mem_cons] at hparent hprev hnext
    obtain ⟨ha, hnodup⟩ := List.nodup_cons.1 hnodup
    refine ⟨hparent.1.trans h.1, hprev.1.trans h.2.1, ?_, ?_⟩
    · rw [hnext.1]
      cases ids with
      | nil => simp
      | cons b ids =>
        -- no node stands in the row twice, so the last one is not the first
        have hlast : (a :: b :: ids).getLast? ≠ some a := by
          rw [List.getLast?_cons_cons]
          intro heq
          exact ha (List.mem_of_getLast? heq)
        rw [if_neg hlast, h.2.2.1]
        rfl
    · refine ih h.2.2.2 hnodup ?_ hparent.2 hprev.2 ?_
      · rw [hback]
        cases ids with
        | nil => rfl
        | cons b ids =>
          rw [List.getLast?_cons_cons, List.getLast?_eq_some_getLast (List.cons_ne_nil b ids)]
          rfl
      · intro id hid
        rw [hnext.2 id hid]
        cases ids with
        | nil => cases hid
        | cons b ids => rw [List.getLast?_cons_cons]

namespace LinkedBy

variable (h : t.LinkedBy kids)
include h

theorem lastChild?_eq_some (hid : t.lastChild? p = some id) : id ∈ kids p := by
  rw [h.last] at hid
  exact List.mem_of_getLast? hid

theorem lastChild?_lt_size {last : NodeId} (hl : t.lastChild? p = some last) : last < t.size :=
  h.lt_size_of_mem (h.lastChild?_eq_some hl)

theorem lastChild?_ne_of_free (hfree : t.parent? id = none) (p : NodeId) :
    t.lastChild? p ≠ some id := by
  intro hl
  rw [h.parent?_of_mem (h.lastChild?_eq_some hl)] at hfree
  cases hfree

theorem ne_of_mem (hfree : t.parent? child = none) (hid : id ∈ kids p) : id ≠ child := by
  rintro rfl
  rw [h.parent?_of_mem hid] at hfree
  cases hfree

theorem nodup_concat (hfree : t.parent? child = none) : (kids parent ++ [child]).Nodup := by
  refine List.nodup_append.2 ⟨h.nodup parent, List.pairwise_singleton _ child, ?_⟩
  intro a ha b hb
  rw [List.mem_singleton.1 hb]
  exact h.ne_of_mem hfree ha

theorem free_attach (hc : child < t.size) (hid : (t.attach parent child).parent? id = none) :
    (t.attach parent child).prev? id = none ∧ (t.attach parent child).next? id = none := by
  rw [parent?_attach hc] at hid
  by_cases heq : id = child
  · rw [if_pos heq] at hid
    cases hid
  · rw [if_neg heq] at hid
    rw [prev?_attach hc, if_neg heq, next?_attach fun _ => h.lastChild?_lt_size,
      if_neg (h.lastChild?_ne_of_free hid parent)]
    exact h.free hid

variable (hp : parent < t.size) (hc : child < t.size) (hfree : t.parent? child = none)
include hc hfree

theorem row_attach_self :
    (t.attach parent child).Row parent none (kids parent ++ [child]) := by
  refine (h.row parent).concat (h.nodup parent) ?_ ?_ ?_ ?_ ?_ ?_
  · rw [parent?_attach hc, if_pos rfl]
  · rw [prev?_attach hc, if_pos rfl, h.last, Option.or_none]
  · rw [next?_attach fun _ => h.lastChild?_lt_size, if_neg (h.lastChild?_ne_of_free hfree parent),
      (h.free hfree).2]
  · intro id hid
    rw [parent?_attach hc, if_neg (h.ne_of_mem hfree hid)]
  · intro id hid
    rw [prev?_attach hc, if_neg (h.ne_of_mem hfree hid)]
  · intro id _
    rw [next?_attach fun _ => h.lastChild?_lt_size, h.last]

theorem row_attach_of_ne (hq : q ≠ parent) : (t.attach parent child).Row q none (kids q) := by
  refine (h.row q).congr ?_ ?_ ?_
  · intro id hid
    rw [parent?_attach hc, if_neg (h.ne_of_mem hfree hid)]
  · intro id hid
    rw [prev?_attach hc, if_neg (h.ne_of_mem hfree hid)]
  · intro id hid
    have hl : t.lastChild? parent ≠ some id := by
      intro hl
      have hparent := h.parent?_of_mem (h.lastChild?_eq_some hl)
      rw [h.parent?_of_mem hid] at hparent
      exact hq (Option.some.inj hparent)
    rw [next?_attach fun _ => h.lastChild?_lt_size, if_neg hl]

include hp

theorem attach :
    (t.attach parent child).LinkedBy
      (Function.update kids parent (kids parent ++ [child])) where
  first q := by
    rw [firstChild?_attach hp, h.first, h.last]
    by_cases hq : q = parent
    · subst hq
      rw [Function.update_self]
      cases kids q <;> simp
    · rw [Function.update_of_ne hq, if_neg (fun hand => hq hand.1)]
  last q := by
    rw [lastChild?_attach hp, h.last]
    by_cases hq : q = parent
    · subst hq
      simp
    · rw [Function.update_of_ne hq, if_neg hq]
  row q := by
    by_cases hq : q = parent
    · subst hq
      rw [Function.update_self]
      exact h.row_attach_self hc hfree
    · rw [Function.update_of_ne hq]
      exact h.row_attach_of_ne hc hfree hq
  nodup q := by
    by_cases hq : q = parent
    · subst hq
      rw [Function.update_self]
      exact h.nodup_concat hfree
    · rw [Function.update_of_ne hq]
      exact h.nodup q
  mem := by
    intro id q hid
    rw [parent?_attach hc] at hid
    by_cases heq : id = child
    · rw [if_pos heq] at hid
      cases hid
      simp [heq]
    · rw [if_neg heq] at hid
      by_cases hq : q = parent
      · subst hq
        simp [h.mem hid]
      · rw [Function.update_of_ne hq]
        exact h.mem hid
  free := h.free_attach hc

end LinkedBy

theorem Linked.attach (h : t.Linked) (hp : parent < t.size) (hc : child < t.size)
    (hfree : t.parent? child = none) : (t.attach parent child).Linked :=
  (LinkedBy.attach h hp hc hfree).linked

theorem Linked.children_attach (h : t.Linked) (hp : parent < t.size) (hc : child < t.size)
    (hfree : t.parent? child = none) (q : NodeId) :
    (t.attach parent child).children q =
      if q = parent then t.children parent ++ [child] else t.children q := by
  rw [(LinkedBy.attach h hp hc hfree).children_eq, Function.update_apply]

end Attach

section Fresh

theorem size_notMem_lineageUpTo (h : t.Linked) (n : Node) (hp : p < t.size) (fuel : Nat) :
    t.size ∉ (t.push n).2.lineageUpTo fuel p := by
  induction fuel generalizing p with
  | zero => exact List.not_mem_nil
  | succ fuel ih =>
    rw [lineageUpTo, List.mem_cons, not_or]
    refine ⟨Nat.ne_of_gt hp, ?_⟩
    cases hq : (t.push n).2.parent? p with
    | none => exact List.not_mem_nil
    | some q =>
      rw [parent?_push] at hq
      refine ih ?_
      by_contra hge
      have hmem := h.mem hq
      rw [LinkedBy.kids_of_size_le h (Nat.le_of_not_lt hge)] at hmem
      cases hmem

def grow (t : Tree) (n : Node) (p : NodeId) : Tree := (t.push n).2.attach p t.size

@[simp] theorem size_grow (t : Tree) (n : Node) (p : NodeId) : (t.grow n p).size = t.size + 1 := by
  simp [grow]

theorem node?_grow_of_lt (n : Node) (p : NodeId) (hid : id < t.size) :
    (t.grow n p).node? id = t.node? id := by
  rw [grow, node?_attach, node?_push_of_lt n hid]

@[simp] theorem node?_grow_size (t : Tree) (n : Node) (p : NodeId) :
    (t.grow n p).node? t.size = some n := by
  rw [grow, node?_attach, node?_push_size]

theorem parent?_push_size (t : Tree) (n : Node) : (t.push n).2.parent? t.size = none := by
  rw [parent?_push, parent?_of_size_le (Nat.le_refl _)]

variable (h : t.Linked) (n : Node) (hp : p < t.size)
include h hp

theorem append_push : (t.push n).2.append p t.size = .ok (t.grow n p) := by
  have hfree := parent?_push_size t n
  obtain ⟨hprev, hnext⟩ := (h.push n).free hfree
  have hroot : t.size ≠ root := by
    rintro heq
    rw [heq] at hp
    exact Nat.not_lt_zero p hp
  have hattached : (t.push n).2.isAttached t.size = false := by
    rw [isAttached, hfree, hprev, hnext]
    rfl
  have hline : t.size ∉ (t.push n).2.lineage p := size_notMem_lineageUpTo h n hp _
  rw [append, if_neg hroot, if_neg (Nat.ne_of_lt hp), if_neg (by simp), hattached,
    if_neg Bool.false_ne_true, if_neg (Nat.not_le.2 (lt_size_push n hp)), if_neg hline, grow]

theorem Linked.grow : (t.grow n p).Linked :=
  (h.push n).attach (lt_size_push n hp) (by simp) (parent?_push_size t n)

theorem Linked.children_grow (q : NodeId) :
    (t.grow n p).children q = if q = p then t.children p ++ [t.size] else t.children q := by
  rw [Tree.grow, (h.push n).children_attach (lt_size_push n hp) (by simp)
    (parent?_push_size t n), h.children_push, h.children_push]

theorem Linked.children_grow_size : (t.grow n p).children t.size = [] := by
  rw [h.children_grow n hp, if_neg (Nat.ne_of_gt hp), LinkedBy.kids_of_size_le h (Nat.le_refl _)]

end Fresh

end Template.Tree
