import Template.Document
import Template.Proofs.Ancestry

namespace Template

namespace Tree

variable {t : Tree} {p id j : NodeId} {ids : List NodeId} {prev? : Option NodeId}

structure Closed (t : Tree) : Prop where
  parent : ∀ {id j}, t.parent? id = some j → j < t.size
  first : ∀ {id j}, t.firstChild? id = some j → j < t.size
  last : ∀ {id j}, t.lastChild? id = some j → j < t.size
  prev : ∀ {id j}, t.prev? id = some j → j < t.size
  next : ∀ {id j}, t.next? id = some j → j < t.size

theorem Row.mem_of_next? (h : t.Row p prev? ids) (hid : id ∈ ids) (hj : t.next? id = some j) :
    j ∈ ids := by
  induction ids generalizing prev? with
  | nil => cases hid
  | cons a ids ih =>
    obtain ⟨-, -, hnext, hrow⟩ := h
    rcases List.mem_cons.1 hid with rfl | hid
    · rw [hnext] at hj
      exact List.mem_cons_of_mem _ (List.mem_of_head? hj)
    · exact List.mem_cons_of_mem _ (ih hrow hid)

theorem Row.mem_of_prev? (h : t.Row p prev? ids) (hid : id ∈ ids) (hj : t.prev? id = some j) :
    prev? = some j ∨ j ∈ ids := by
  induction ids generalizing prev? with
  | nil => cases hid
  | cons a ids ih =>
    obtain ⟨-, hprev, -, hrow⟩ := h
    rcases List.mem_cons.1 hid with rfl | hid
    · rw [hprev] at hj
      exact .inl hj
    · rcases ih hrow hid with heq | hmem
      · cases heq
        exact .inr List.mem_cons_self
      · exact .inr (List.mem_cons_of_mem _ hmem)

theorem Linked.closed (h : t.Linked) : t.Closed where
  parent := h.lt_size_of_parent?_eq
  first := by
    intro id j hj
    rw [h.first] at hj
    exact h.lt_size_of_mem (List.mem_of_head? hj)
  last := h.lastChild?_lt_size
  prev := by
    intro id j hj
    cases hp : t.parent? id with
    | none =>
      rw [(h.free hp).1] at hj
      cases hj
    | some p =>
      rcases (h.row p).mem_of_prev? (h.mem hp) hj with heq | hmem
      · cases heq
      · exact h.lt_size_of_mem hmem
  next := by
    intro id j hj
    cases hp : t.parent? id with
    | none =>
      rw [(h.free hp).2] at hj
      cases hj
    | some p => exact h.lt_size_of_mem ((h.row p).mem_of_next? (h.mem hp) hj)

theorem exists_cell (hid : id < t.size) :
    ∃ c, t.cell id = .ok c ∧ t.node? id = some c.node ∧ t.firstChild? id = c.firstChild? ∧
      t.next? id = c.next? := by
  obtain ⟨c, hcell⟩ : ∃ c, t.cells[id]? = some c := ⟨_, Array.getElem?_eq_getElem hid⟩
  refine ⟨c, ?_, ?_, ?_, ?_⟩
  · rw [cell, hcell]
  · rw [node?, hcell]
    rfl
  · rw [firstChild?, hcell]
    rfl
  · rw [next?, hcell]
    rfl

theorem row_eq {fuel : Nat} (h : t.Row p prev? ids) (hlt : ∀ id ∈ ids, id < t.size)
    (hfuel : ids.length ≤ fuel) : t.row fuel ids.head? = .ok ids := by
  induction ids generalizing prev? fuel with
  | nil => cases fuel <;> rfl
  | cons id ids ih =>
    rw [List.forall_mem_cons] at hlt
    obtain ⟨-, -, hnext, hrow⟩ := h
    obtain ⟨c, hc, -, -, hcnext⟩ := exists_cell hlt.1
    rw [hcnext] at hnext
    cases fuel with
    | zero => cases hfuel
    | succ fuel =>
      rw [List.head?_cons, row, hc]
      change (t.row fuel c.next? >>= _) = _
      rw [hnext, ih hrow hlt.2 (Nat.le_of_succ_le_succ hfuel)]
      rfl

theorem Linked.row_eq (h : t.Linked) (p : NodeId) :
    t.row t.size (t.firstChild? p) = .ok (t.children p) := by
  rw [h.first]
  exact Tree.row_eq (h.row p) (fun id hid => h.lt_size_of_mem hid) (h.length_kids_le p)

theorem mapM_eq_ok {α : Type} {f : NodeId → Except Violation α} {g : NodeId → α}
    (h : ∀ id ∈ ids, f id = .ok (g id)) : ids.mapM f = .ok (ids.map g) := by
  induction ids with
  | nil => rfl
  | cons id ids ih =>
    rw [List.forall_mem_cons] at h
    rw [List.mapM_cons, h.1, ih h.2]
    rfl

theorem indented_forestTo (t : Tree) (fuel depth : Nat) (raw : Bool) (ids : List NodeId) :
    (ids.map fun id => (t.forestTo fuel [id]).indented depth raw).flatten =
      (t.forestTo fuel ids).indented depth raw := by
  induction ids with
  | nil => cases fuel <;> rfl
  | cons id ids ih =>
    have happend : t.forestTo fuel (id :: ids) = t.forestTo fuel [id] ++ t.forestTo fuel ids :=
      forestTo_append t fuel [id] ids
    rw [List.map_cons, List.flatten_cons, ih, happend, Forest.indented_append]

theorem Linked.write_eq {fuel : Nat} (h : t.Linked) (htrail : Trail t.parent? (some id) ids)
    (hid : id < t.size) (hfuel : t.size < fuel + ids.length) (depth : Nat) (raw : Bool) :
    t.write fuel depth raw id = .ok ((t.forestTo fuel [id]).indented depth raw) := by
  induction fuel generalizing id ids depth raw with
  | zero =>
    have hlength := h.length_trail_le htrail hid
    omega
  | succ fuel ih =>
    obtain ⟨c, hc, hnode, hfirst, -⟩ := exists_cell hid
    have hrow := h.row_eq id
    rw [hfirst] at hrow
    have hbelow : ∀ depth raw, (t.children id).mapM (t.write fuel depth raw) =
        .ok ((t.children id).map fun id => (t.forestTo fuel [id]).indented depth raw) := by
      intro depth raw
      apply mapM_eq_ok
      intro child hchild
      have hup : Trail t.parent? (some child) (child :: ids) := by
        apply Trail.step
        rw [h.parent?_of_mem hchild]
        exact htrail
      refine ih hup (h.lt_size_of_mem hchild) ?_ depth raw
      rw [List.length_cons]
      omega
    have hforest : t.forestTo (fuel + 1) [id] =
        .cons c.node (t.forestTo fuel (t.children id)) .nil := by
      rw [forestTo, List.foldr_cons, hnode]
      rfl
    rw [write, hc, hforest, Forest.indented, Forest.indented_nil, List.append_nil]
    cases hkind : c.node.kind with
    | unset =>
      simp only [bind, Except.bind, hkind, hrow, hbelow, indented_forestTo]
      rfl
    | text data =>
      simp only [bind, Except.bind, hkind]
      rfl
    | mustache expression =>
      simp only [bind, Except.bind, hkind]
      rfl
    | element name attributes =>
      simp only [bind, Except.bind, hkind]
      cases Element.isVoid name with
      | true =>
        rw [if_pos rfl, if_pos rfl, List.append_nil]
        rfl
      | false =>
        rw [if_neg Bool.false_ne_true, if_neg Bool.false_ne_true]
        simp only [hrow, hbelow, indented_forestTo, List.append_assoc]
        rfl

theorem Grounded.write_eq (h : t.Grounded) (hid : id < t.size) :
    t.write t.size 0 false id = .ok (t.subtree id).render := by
  obtain ⟨ids, htrail⟩ := h.climbs id
  have hpos : 0 < ids.length := by
    cases htrail with
    | step _ => exact Nat.succ_pos _
  rw [h.linked.write_eq htrail hid (by omega), Forest.render_eq, subtree]

end Tree

namespace Document

namespace Builder

variable {b b' : Builder} {n : Node} {id : NodeId}

structure InRange (b : Builder) : Prop where
  grounded : b.tree.Grounded
  opened : ∀ id ∈ Tree.root :: b.opened, id < b.tree.size

theorem inRange_empty : InRange {} where
  grounded := .empty
  opened := List.forall_mem_singleton.2 Nat.one_pos

theorem InRange.add (h : b.InRange) (hadd : b.add n = .ok (id, b')) :
    b'.InRange ∧ id < b'.tree.size ∧ b'.opened = b.opened := by
  rw [Builder.add] at hadd
  simp only at hadd
  split at hadd
  · rename_i t happend
    cases hadd
    have hsize : t.size = b.tree.size + 1 := by
      obtain ⟨-, -, -, -, -, -, rfl⟩ := Tree.append_eq_ok happend
      rw [Tree.size_attach, Tree.size_push]
    refine ⟨⟨(h.grounded.push n).append happend, ?_⟩, ?_, rfl⟩
    · intro id hid
      rw [hsize]
      exact Nat.lt_succ_of_lt (h.opened id hid)
    · rw [hsize]
      exact Nat.lt_succ_self _
  · cases hadd

theorem InRange.innermost_lt (h : b.InRange) : b.innermost < b.tree.size := by
  rw [innermost]
  cases hopened : b.opened with
  | nil => exact h.opened _ List.mem_cons_self
  | cons id ids =>
    refine h.opened id ?_
    rw [hopened]
    exact List.mem_cons_of_mem _ List.mem_cons_self

theorem InRange.add_eq (h : b.InRange) (n : Node) :
    b.add n = .ok (b.tree.size, { b with tree := b.tree.grow n b.innermost }) := by
  have happend := Tree.append_push h.grounded.linked n h.innermost_lt
  simp only [Builder.add]
  rw [show (b.tree.push n).1 = b.tree.size from rfl, happend]

theorem InRange.take_ne_refused (h : b.InRange) (t : Token) (v : Violation) :
    b.take t ≠ .error (.refused v) := by
  intro htake
  rw [Builder.take] at htake
  split at htake
  · cases htake
  · cases htake
  · rw [Builder.addLeaf, h.add_eq] at htake
    cases htake
  · rw [Builder.addLeaf, h.add_eq] at htake
    cases htake
  · rw [Builder.addLeaf, h.add_eq] at htake
    cases htake
  · rw [Builder.addOpen, h.add_eq] at htake
    cases htake
  · rw [Builder.close] at htake
    split at htake <;> cases htake

theorem InRange.addLeaf (h : b.InRange) (hadd : b.addLeaf n = .ok b') : b'.InRange := by
  rw [Builder.addLeaf] at hadd
  cases hn : b.add n with
  | error f =>
    rw [hn] at hadd
    cases hadd
  | ok r =>
    rw [hn] at hadd
    cases hadd
    exact (h.add hn).1

theorem InRange.addOpen (h : b.InRange) (hadd : b.addOpen n = .ok b') : b'.InRange := by
  rw [Builder.addOpen] at hadd
  cases hn : b.add n with
  | error f =>
    rw [hn] at hadd
    cases hadd
  | ok r =>
    rw [hn] at hadd
    cases hadd
    obtain ⟨hrange, hid, -⟩ := h.add hn
    obtain ⟨hroot, hopened⟩ := List.forall_mem_cons.1 hrange.opened
    exact ⟨hrange.grounded, List.forall_mem_cons.2 ⟨hroot, List.forall_mem_cons.2 ⟨hid, hopened⟩⟩⟩

theorem InRange.close {name : String} {p : Position} (h : b.InRange)
    (hclose : b.close name p = .ok b') : b'.InRange := by
  rw [Builder.close] at hclose
  split at hclose
  · cases hclose
    obtain ⟨hroot, hopened⟩ := List.forall_mem_cons.1 h.opened
    exact ⟨h.grounded,
      List.forall_mem_cons.2 ⟨hroot, fun id hid => hopened id (List.mem_of_mem_tail hid)⟩⟩
  · cases hclose

theorem InRange.take {t : Token} (h : b.InRange) (htake : b.take t = .ok b') : b'.InRange := by
  rw [Builder.take] at htake
  split at htake
  · cases htake
    exact h
  · cases htake
    exact h
  · exact h.addLeaf htake
  · exact h.addLeaf htake
  · exact h.addLeaf htake
  · exact h.addOpen htake
  · exact h.close htake

theorem InRange.foldlM {ts : List Token} (h : b.InRange)
    (hts : ts.foldlM Builder.take b = .ok b') : b'.InRange := by
  induction ts generalizing b with
  | nil =>
    cases hts
    exact h
  | cons t ts ih =>
    rw [List.foldlM_cons] at hts
    cases htake : b.take t with
    | error f =>
      rw [htake] at hts
      cases hts
    | ok b₁ =>
      rw [htake] at hts
      exact ih (h.take htake) hts

theorem InRange.run {ls : List Lexeme} {d : Document} (h : b.InRange) (hrun : b.run ls = .ok d) :
    d.tree.Grounded := by
  induction ls generalizing b with
  | nil =>
    cases hrun
    exact h.grounded
  | cons l ls ih =>
    cases l with
    | error e => cases hrun
    | ok t =>
      rw [Builder.run] at hrun
      split at hrun
      · rw [finish] at hrun
        split at hrun
        · cases hrun
        · cases hrun
          exact h.grounded
      · split at hrun
        · rename_i b₁ htake
          exact ih (h.take htake) hrun
        · cases hrun

end Builder

theorem grounded_of_parse {source : String} {d : Document} (h : parse source = .ok d) :
    d.tree.Grounded :=
  Builder.inRange_empty.run h

end Document

end Template
