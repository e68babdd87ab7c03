import Template.Proofs.Arena
import Template.Proofs.Attaching
import Template.Proofs.FixedPoints

/-! What a rendering depends on.  Nodes of two trees look alike if they are of one kind, and those
below them look alike one by one, wherever they stand in their trees.  Main statement: what looks
alike is rendered alike, so that no edit outside a subtree changes its rendering, and a document is
rendered as its root is. -/

namespace Template

/-- A kind without what is not rendered: the positions of attributes, and the mustaches that stood
in their values. -/
def Node.Kind.bare : Node.Kind → Node.Kind
  | .element name attributes => .element name (attributes.map fun a => a.plain.unplaced)
  | kind => kind

theorem Forest.indented_bare (n : Node) (below beside : Forest) (depth : Nat) (raw : Bool) :
    (Forest.cons n below beside).indented depth raw =
      (Forest.cons { kind := n.kind.bare, position := {} } below beside).indented depth raw := by
  obtain ⟨kind, p, ns?⟩ := n
  cases kind with
  | element name attributes =>
    have hattr : ∀ a : Attribute, Indented.attr a.plain.unplaced = Indented.attr a := by
      intro a
      rw [Indented.attr_unplaced, Indented.attr_plain]
    simp only [Forest.indented, Node.Kind.bare, Indented.openingTag_map hattr]
  | _ => rfl

namespace Tree

variable {t t' : Tree} {id id' p : NodeId} {ids ids' : List NodeId} {n : Node}

/-- The nodes `ids` of one tree look like the nodes `ids'` of another, one by one. -/
inductive Alike (t t' : Tree) : List NodeId → List NodeId → Prop
  | nil : Alike t t' [] []
  | cons {id id' : NodeId} {ids ids' : List NodeId} {n n' : Node} :
      t.node? id = some n → t'.node? id' = some n' → n.kind.bare = n'.kind.bare →
      Alike t t' (t.children id) (t'.children id') → Alike t t' ids ids' →
      Alike t t' (id :: ids) (id' :: ids')

/-- The subtree at `id` is rendered as `out`.  Written along the links it is the same, and to go on
to any depth takes no more than there are nodes. -/
structure Writes (t : Tree) (id : NodeId) (out : String) : Prop where
  render : t.render id = .ok out
  write : ∀ fuel ≥ t.size, t.write fuel 0 false id = .ok out.toList

section Alike

theorem Grounded.forestTo_size_eq (h : t.Grounded) {depth : Nat} (hdepth : t.size ≤ depth)
    (ids : List NodeId) : t.forestTo depth ids = t.forestTo t.size ids :=
  forestTo_congr fun id _ => h.wellFormed.subtree id depth hdepth

theorem Grounded.forestTo_cons (h : t.Grounded) (hnode : t.node? id = some n)
    (ids : List NodeId) :
    t.forestTo t.size (id :: ids) =
      .cons n (t.forestTo t.size (t.children id)) (t.forestTo t.size ids) := by
  have hdeep := h.forestTo_size_eq (Nat.le_succ t.size)
  rw [← hdeep (id :: ids), ← hdeep ids, forestTo, List.foldr_cons, hnode]
  rfl

theorem Grounded.writes (h : t.Grounded) (hid : id < t.size) :
    t.Writes id (String.ofList (t.subtree id).render) where
  render := if_pos hid
  write := by
    intro fuel hfuel
    obtain ⟨ids, htrail⟩ := h.climbs id
    have hpos : 0 < ids.length := by
      cases htrail with
      | step _ => exact Nat.succ_pos _
    rw [h.linked.write_eq htrail hid (by omega), h.forestTo_size_eq hfuel, String.toList_ofList,
      Forest.render_eq, subtree]

theorem Alike.indented_eq (halike : Alike t t' ids ids') (h : t.Grounded) (h' : t'.Grounded)
    (depth : Nat) (raw : Bool) :
    (t.forestTo t.size ids).indented depth raw = (t'.forestTo t'.size ids').indented depth raw := by
  induction halike generalizing depth raw with
  | nil => cases t.size <;> cases t'.size <;> rfl
  | cons hnode hnode' hkind _ _ ihbelow ihbeside =>
    rw [h.forestTo_cons hnode, h'.forestTo_cons hnode', Forest.indented_bare, hkind,
      ← Forest.indented_bare]
    simp only [Forest.indented, ihbelow, ihbeside]

theorem Alike.writes (halike : Alike t t' [id] [id']) (h : t.Grounded) (h' : t'.Grounded) :
    ∃ out, t.Writes id out ∧ t'.Writes id' out := by
  have heq : (t.subtree id).render = (t'.subtree id').render := by
    rw [Forest.render_eq, Forest.render_eq]
    exact halike.indented_eq h h' 0 false
  have hid : id < t.size ∧ id' < t'.size := by
    cases halike with
    | cons hnode hnode' _ _ _ => exact ⟨lt_size_of_node? hnode, lt_size_of_node? hnode'⟩
  have hwrites := h'.writes hid.2
  rw [← heq] at hwrites
  exact ⟨_, h.writes hid.1, hwrites⟩

end Alike

section Outside

/-- The edit does not reach into the subtree at `id`.  Attaching the node itself does not either,
wherever that is tried. -/
def Edit.Outside (t : Tree) (id : NodeId) : Edit → Prop
  | .push _ => True
  | .copy _ => True
  | .append parent child => child = id ∨ ¬ t.Within id parent
  | .replace a _ => ¬ t.Within id a

structure Keeps (t t' : Tree) (id : NodeId) : Prop where
  size_le : t.size ≤ t'.size
  same : ∀ a, t.Within id a → t'.node? a = t.node? a ∧ t'.children a = t.children a

theorem Keeps.refl (t : Tree) (id : NodeId) : t.Keeps t id :=
  ⟨Nat.le_refl _, fun _ _ => ⟨rfl, rfl⟩⟩

theorem Keeps.within_iff (h : t.Keeps t' id) (a : NodeId) : t'.Within id a ↔ t.Within id a :=
  within_congr (fun a ha => (h.same a ha).2) a

theorem Keeps.trans {u : Tree} (h : t.Keeps t' id) (h' : t'.Keeps u id) : t.Keeps u id where
  size_le := h.size_le.trans h'.size_le
  same := by
    intro a ha
    obtain ⟨hnode, hchildren⟩ := h.same a ha
    obtain ⟨hnode', hchildren'⟩ := h'.same a ((h.within_iff a).2 ha)
    exact ⟨hnode'.trans hnode, hchildren'.trans hchildren⟩

theorem Keeps.outside {e : Edit} (h : t.Keeps t' id) (he : e.Outside t id) : e.Outside t' id := by
  cases e with
  | push n => trivial
  | copy a => trivial
  | append parent child => exact he.imp_right (mt (h.within_iff parent).1)
  | replace a n => exact mt (h.within_iff a).1 he

theorem Keeps.subtree_eq (h : t.Keeps t' id) (hgrounded : t.Grounded) :
    t'.subtree id = t.subtree id := by
  rw [subtree, forestTo_congr_within h.same t'.size .top,
    hgrounded.forestTo_size_eq h.size_le, subtree]

theorem Linked.lt_size_of_within {a : NodeId} (h : t.Linked) (hid : id < t.size)
    (ha : t.Within id a) : a < t.size := by
  cases ha with
  | top => exact hid
  | child _ hmem => exact h.lt_size_of_mem hmem

theorem Linked.keeps_push (h : t.Linked) (hid : id < t.size) (n : Node) :
    t.Keeps (t.push n).2 id where
  size_le := by
    rw [size_push]
    exact Nat.le_succ _
  same := fun a ha =>
    ⟨node?_push_of_lt n (h.lt_size_of_within hid ha), h.children_push n a⟩

theorem Grounded.keeps_append {parent child : NodeId} (h : t.Grounded)
    (he : (Edit.append parent child).Outside t id) :
    t.Keeps (t.edit (.append parent child)) id := by
  rw [Tree.edit]
  cases happend : t.append parent child with
  | error v => exact .refl t id
  | ok t' =>
    have hgains := h.gains happend
    have hbelow := (h.append_ok_iff.1 ⟨t', happend⟩).2.2.2.2.2
    refine ⟨hgains.size.ge, fun a ha => ⟨hgains.node? a, hgains.others a ?_⟩⟩
    rintro rfl
    rcases he with rfl | he
    · exact hbelow ha
    · exact he ha

theorem node?_update_of_ne {a : NodeId} (hne : a ≠ id) (f : Cell → Cell) :
    (t.update id f).node? a = t.node? a := by
  rw [node?, cells_update, Option.map_map, node?]
  simp [Function.comp_def, hne]

theorem Linked.children_replace (h : t.Linked) (id : NodeId) (n : Node) (p : NodeId) :
    (t.update id fun c => { c with node := n }).children p = t.children p := by
  have hlinked : (t.update id fun c => { c with node := n }).LinkedBy t.children :=
    LinkedBy.of_links h (link_replace fun _ => rfl) (link_replace fun _ => rfl)
      (link_replace fun _ => rfl) (link_replace fun _ => rfl) (link_replace fun _ => rfl)
  exact hlinked.children_eq p

theorem Linked.keeps_replace {a : NodeId} (h : t.Linked) (ha : ¬ t.Within id a) (n : Node) :
    t.Keeps (t.edit (.replace a n)) id := by
  rw [edit, replace?]
  split
  · refine ⟨(size_update t a _).ge, fun b hb => ⟨node?_update_of_ne ?_ _, h.children_replace a n b⟩⟩
    rintro rfl
    exact ha hb
  · exact .refl t id

theorem Grounded.keeps_edit {e : Edit} (h : t.Grounded) (hid : id < t.size)
    (he : e.Outside t id) : t.Keeps (t.edit e) id := by
  cases e with
  | push n => exact h.linked.keeps_push hid n
  | copy a =>
    rw [Tree.edit]
    cases t.node? a with
    | some n => exact h.linked.keeps_push hid n
    | none => exact .refl t id
  | append parent child => exact h.keeps_append he
  | replace a n => exact h.linked.keeps_replace he n

theorem Grounded.keeps_edits {es : List Edit} (h : t.Grounded) (hid : id < t.size)
    (hes : ∀ e ∈ es, e.Outside t id) : t.Keeps (t.edits es) id := by
  induction es generalizing t with
  | nil => exact .refl t id
  | cons e es ih =>
    rw [List.forall_mem_cons] at hes
    have hkeeps := h.keeps_edit hid hes.1
    exact hkeeps.trans (ih (h.edit e) (Nat.lt_of_lt_of_le hid hkeeps.size_le)
      fun e' he' => hkeeps.outside (hes.2 e' he'))

theorem Keeps.writes (h : t.Keeps t' id) (hgrounded : t.Grounded) (hgrounded' : t'.Grounded)
    (hid : id < t.size) : ∃ out, t.Writes id out ∧ t'.Writes id out := by
  have hwrites := hgrounded'.writes (Nat.lt_of_lt_of_le hid h.size_le)
  rw [h.subtree_eq hgrounded] at hwrites
  exact ⟨_, hgrounded.writes hid, hwrites⟩

end Outside

theorem Grounded.render_unset (h : t.Grounded) (hnode : t.node? id = some n)
    (hkind : n.kind = .unset) :
    (t.subtree id).render = (t.children id).flatMap fun a => (t.subtree a).render := by
  have hnil : t.forestTo t.size [] = .nil := by cases t.size <;> rfl
  rw [Forest.render_eq, subtree, h.forestTo_cons hnode, Forest.indented, hkind, hnil,
    Forest.indented_nil, List.append_nil, ← indented_forestTo, List.flatMap_def]
  simp only [Forest.render_eq, subtree]

theorem edits_append (t : Tree) (es es' : List Edit) :
    t.edits (es ++ es') = (t.edits es).edits es' :=
  List.foldl_append

end Tree

namespace Document

namespace Builder

variable {b b' : Builder} {n : Node} {id : NodeId} {t : Token}

def Edited (b : Builder) : Prop := ∃ es : List Tree.Edit, b.tree = Tree.empty.edits es

theorem Edited.add (h : b.Edited) (hadd : b.add n = .ok (id, b')) : b'.Edited := by
  obtain ⟨es, hes⟩ := h
  rw [Builder.add] at hadd
  simp only at hadd
  split at hadd
  · rename_i tree happend
    cases hadd
    refine ⟨es ++ [.push n, .append b.innermost b.tree.size], ?_⟩
    rw [Tree.edits_append, ← hes]
    change tree = (b.tree.push n).2.edit (.append b.innermost (b.tree.push n).1)
    rw [Tree.edit, happend]
  · cases hadd

theorem take_eq_ok (h : b.take t = .ok b') :
    b'.tree = b.tree ∨ ∃ n r, b.add n = .ok r ∧ b'.tree = r.2.tree := by
  have hleaf : ∀ n, b.addLeaf n = .ok b' →
      b'.tree = b.tree ∨ ∃ n r, b.add n = .ok r ∧ b'.tree = r.2.tree := by
    intro n hn
    rw [addLeaf] at hn
    cases hadd : b.add n with
    | error f =>
      rw [hadd] at hn
      cases hn
    | ok r =>
      rw [hadd] at hn
      cases hn
      exact .inr ⟨n, r, hadd, rfl⟩
  rw [take] at h
  split at h
  · cases h
    exact .inl rfl
  · cases h
    exact .inl rfl
  · exact hleaf _ h
  · exact hleaf _ h
  · exact hleaf _ h
  · rename_i name attributes _
    rw [addOpen] at h
    cases hadd : b.add (.element name attributes t.position) with
    | error f =>
      rw [hadd] at h
      cases h
    | ok r =>
      rw [hadd] at h
      cases h
      exact .inr ⟨_, r, hadd, rfl⟩
  · rw [close] at h
    split at h
    · cases h
      exact .inl rfl
    · cases h

theorem Edited.take (h : b.Edited) (htake : b.take t = .ok b') : b'.Edited := by
  rcases take_eq_ok htake with heq | ⟨n, r, hadd, heq⟩
  · rw [Edited, heq]
    exact h
  · rw [Edited, heq]
    exact h.add hadd

theorem Edited.run {ls : List Lexeme} {d : Document} (h : b.Edited) (hrun : b.run ls = .ok d) :
    ∃ es : List Tree.Edit, d.tree = Tree.empty.edits es := by
  induction ls generalizing b with
  | nil =>
    cases hrun
    exact h
  | cons l ls ih =>
    cases l with
    | error e => cases hrun
    | ok t =>
      rw [Builder.run] at hrun
      split at hrun
      · rw [finish] at hrun
        split at hrun
        · cases hrun
        · cases hrun
          exact h
      · split at hrun
        · rename_i b₁ htake
          exact ih (h.take htake) hrun
        · cases hrun

end Builder

structure RendersAsRoot (d : Document) : Prop where
  edited : ∃ es : List Tree.Edit, d.tree = Tree.empty.edits es
  nodes : ∃ outs, d.nodes.mapM d.tree.render = .ok outs ∧ d.render = String.join outs
  root : d.tree.Writes Tree.root d.render

theorem rendersAsRoot_of_parse {source : String} {d : Document} (h : parse source = .ok d) :
    d.RendersAsRoot := by
  have hgrounded := grounded_of_parse h
  obtain ⟨g, ts, hstanding, -⟩ := exists_standing h
  refine ⟨Builder.Edited.run ⟨[], rfl⟩ h, ?_, ?_⟩
  · refine ⟨d.nodes.map fun id => String.ofList (d.tree.subtree id).render, ?_, ?_⟩
    · apply Tree.mapM_eq_ok
      intro id hid
      exact if_pos (hgrounded.linked.lt_size_of_mem hid)
    · rw [render, ← String.toList_inj, String.toList_ofList, String.toList_join, List.flatMap_map]
      simp only [String.toList_ofList]
  · have hwrites := hgrounded.writes (Tree.lt_size_of_node? hstanding.rooted)
    rw [hgrounded.render_unset hstanding.rooted rfl] at hwrites
    exact hwrites

end Document

namespace Tree

/-- Whatever the trees, nodes that look alike are rendered alike.  Hence edits outside the subtree
of a node do not change its rendering, and a document is rendered as its root is. -/
theorem rendered_by_look (es : List Edit) (id : NodeId) (source : String) :
    (∀ (es' : List Edit) (id' : NodeId),
      Alike (Tree.empty.edits es) (Tree.empty.edits es') [id] [id'] →
        ∃ out, (Tree.empty.edits es).Writes id out ∧ (Tree.empty.edits es').Writes id' out) ∧
    (∀ es' : List Edit, id < (Tree.empty.edits es).size →
      (∀ e ∈ es', e.Outside (Tree.empty.edits es) id) →
        ∃ out, (Tree.empty.edits es).Writes id out ∧
          ((Tree.empty.edits es).edits es').Writes id out) ∧
    ∀ d, Document.parse source = .ok d → d.RendersAsRoot := by
  have h := Grounded.empty.edits es
  refine ⟨?_, ?_, fun d hd => Document.rendersAsRoot_of_parse hd⟩
  · intro es' id' halike
    exact halike.writes h (Grounded.empty.edits es')
  · intro es' hid hes'
    exact (h.keeps_edits hid hes').writes h (h.edits es') hid

end Tree

end Template
