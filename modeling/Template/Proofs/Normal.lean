import Template.Proofs.Regular

/-! Normal forms.  A document that is rendered and read again comes back with adjacent texts
joined, with string attributes that have forgotten their mustaches, and with the indentation in
the bodies of its raw-text elements. -/

namespace Template

def Attribute.plain (a : Attribute) : Attribute :=
  match a.kind with
  | .string key value _ => { a with kind := .string key value [] }
  | _ => a

def Attribute.unplaced (a : Attribute) : Attribute := { a with position := {} }

def Node.unplaced (n : Node) : Node :=
  match n.kind with
  | .element name attributes =>
    ⟨.element name (attributes.map Attribute.unplaced), {}, n.ns?⟩
  | _ => { n with position := {} }

def Mark.unplaced : Mark → Mark
  | .opening name attributes _ => .opening name (attributes.map Attribute.unplaced) {}
  | .closing name => .closing name
  | .text data _ => .text data {}
  | .mustache expression _ => .mustache expression {}

namespace Forest

def unplaced : Forest → Forest
  | .nil => .nil
  | .cons node below beside => .cons node.unplaced below.unplaced beside.unplaced

def prependText (data : String) : Forest → Forest
  | .cons ⟨.text data', p, ns?⟩ below beside => .cons ⟨.text (data ++ data'), p, ns?⟩ below beside
  | f => .cons { kind := .text data } .nil f

def bodyText (depth : Nat) : Forest → List Char
  | .cons ⟨.text body, _, _⟩ _ _ =>
    '\n' :: List.replicate (2 * (depth + 1)) ' ' ++ body.toList ++
      '\n' :: List.replicate (2 * depth) ' '
  | _ => '\n' :: List.replicate (2 * depth) ' '

def normal (depth : Nat) : Forest → Forest
  | .nil => .nil
  | .cons node below beside =>
    match node.kind with
    | .text data => (beside.normal depth).prependText data
    | .element name attributes =>
      .cons { node with kind := .element name (attributes.map Attribute.plain) }
        (if Element.isRawText name then
          .cons { kind := .text (String.ofList (below.bodyText depth)) } .nil .nil
        else below.normal (depth + 1))
        (beside.normal depth)
    | _ => .cons node .nil (beside.normal depth)

end Forest

/-- The subtree at `id` as it stands at the top level: the root gives what is below it. -/
def Tree.topLevel (t : Tree) (id : NodeId) : Forest :=
  if id = root then t.forestTo t.size (t.children root) else t.subtree id

def Document.forest (d : Document) : Forest := d.tree.topLevel Tree.root

section Unplaced

theorem Node.entering_unplaced (n : Node) :
    n.unplaced.entering = n.entering.map Mark.unplaced := by
  obtain ⟨kind, p, ns?⟩ := n
  cases kind <;> rfl

theorem Node.leaving_unplaced (n : Node) : n.unplaced.leaving = n.leaving.map Mark.unplaced := by
  obtain ⟨kind, p, ns?⟩ := n
  cases kind <;> rfl

theorem Forest.marks_unplaced (f : Forest) : f.unplaced.marks = f.marks.map Mark.unplaced := by
  induction f with
  | nil => rfl
  | cons node below beside ihw ihb =>
    simp [Forest.unplaced, Forest.marks, Node.entering_unplaced, Node.leaving_unplaced, ihw, ihb]

theorem Node.Proper.unplaced {n : Node} (h : n.Proper) : n.unplaced.Proper := by
  obtain ⟨kind, p, ns?⟩ := n
  cases kind <;> exact h

theorem Node.name?_unplaced (n : Node) : n.unplaced.name? = n.name? := by
  obtain ⟨kind, p, ns?⟩ := n
  cases kind <;> rfl

theorem Forest.Proper.unplaced {f : Forest} (h : f.Proper) : f.unplaced.Proper := by
  induction f with
  | nil => trivial
  | cons node below beside ihw ihb =>
    obtain ⟨hnode, hleaf, hbelow, hbeside⟩ := h
    refine ⟨hnode.unplaced, ?_, ihw hbelow, ihb hbeside⟩
    intro hname
    rw [Node.name?_unplaced] at hname
    rw [hleaf hname]
    rfl

end Unplaced

section Sound

inductive Forest.BodyOf (name : String) : Forest → Prop
  | nil : BodyOf name .nil
  | text {b : String} (p : Position) : IsBody name b →
      BodyOf name (.cons ⟨.text b, p, none⟩ .nil .nil)

def Node.Holds (n : Node) (below : Forest) : Prop :=
  match n.kind with
  | .element name _ =>
    (Element.isVoid name = true → below = .nil) ∧
      (Element.isRawText name = true → below.BodyOf name)
  | _ => below = .nil

/-- A forest that stands in the document of some source. -/
def Forest.Sound : Forest → Prop
  | .nil => True
  | .cons node below beside =>
    node.Proper ∧ (∀ m ∈ node.entering, m.Sound) ∧ node.Holds below ∧ below.Sound ∧ beside.Sound

@[simp] theorem Forest.sound_append (f g : Forest) : (f ++ g).Sound ↔ f.Sound ∧ g.Sound := by
  induction f with
  | nil => simp [Forest.Sound]
  | cons node below beside _ ih => simp [Forest.Sound, ih, and_assoc]

theorem Forest.Sound.proper {f : Forest} (h : f.Sound) : f.Proper := by
  induction f with
  | nil => trivial
  | cons node below beside ihw ihb =>
    obtain ⟨hproper, -, hholds, hbelow, hbeside⟩ := h
    refine ⟨hproper, ?_, ihw hbelow, ihb hbeside⟩
    intro hname
    obtain ⟨kind, p, ns?⟩ := node
    cases kind with
    | element name attributes => cases hname
    | _ => exact hholds

theorem Closing.of_head? {ms : List Mark} {name : String} (h : ms.head? = some (.closing name)) :
    Closing ms := by
  intro m hm
  rw [h] at hm
  cases hm
  exact ⟨name, rfl⟩

theorem Forest.Proper.eq_text {f : Forest} (h : f.Proper) {name b : String} {p : Position}
    {us vs : List Mark}
    (heq : f.marks ++ .closing name :: us = .text b p :: .closing name :: vs) :
    f = .cons ⟨.text b, p, none⟩ .nil .nil := by
  have htext : (Forest.cons ⟨.text b, p, none⟩ .nil .nil).Proper :=
    ⟨rfl, fun _ => rfl, trivial, trivial⟩
  exact (h.eq_of_marks_append htext (closing_cons name us) (closing_cons name vs) heq).1

theorem Forest.Proper.sound_of_regular {f : Forest} {ms : List Mark} (hf : f.Proper)
    (h : Regular (f.marks ++ ms)) : f.Sound := by
  induction f generalizing ms with
  | nil => trivial
  | cons node below beside ihw ihb =>
    obtain ⟨hnode, hleaf, hbelow, hbeside⟩ := hf
    simp only [Forest.marks, List.append_assoc] at h
    refine ⟨hnode, ?_, ?_, ihw hbelow h.of_append, ihb hbeside h.of_append.of_append.of_append⟩
    · obtain ⟨m, hm, -⟩ := hnode.entering_eq
      rw [hm] at h ⊢
      rw [List.forall_mem_singleton]
      exact h.1
    · obtain ⟨kind, p, ns?⟩ := node
      cases kind with
      | element name attributes =>
        obtain ⟨-, ⟨hvoid, hraw⟩, -⟩ := h
        constructor
        · intro hv
          exact hbelow.eq_nil_of_closing (Closing.of_head? (hvoid hv))
        · intro hr
          rcases hraw hr with hclose | ⟨b, q, vs, heq, hb⟩
          · rw [hbelow.eq_nil_of_closing (Closing.of_head? hclose)]
            exact .nil
          · rw [hbelow.eq_text heq]
            exact .text q hb
      | unset => cases hnode
      | text data => exact hleaf rfl
      | mustache expression => exact hleaf rfl

theorem Grove.In.exists_part {t : Tree} {g : Grove} (h : g.In t) (hg : g.toForest.Sound)
    {id : NodeId} (hid : id ∈ g.ids) :
    ∃ node below, (Grove.nil.snoc id node below).In t ∧
      (Forest.cons node below.toForest .nil).Sound ∧ below.ids.length < g.ids.length := by
  induction g with
  | nil => cases hid
  | snoc before id' node below ihb ihw =>
    obtain ⟨hbefore, hnode, hkids, hbelow⟩ := h
    rw [Grove.toForest, Forest.sound_append] at hg
    simp only [Grove.ids, List.length_append, List.length_cons]
    simp only [Grove.ids, List.mem_append, List.mem_cons] at hid
    rcases hid with hid | rfl | hid
    · obtain ⟨node', below', hin, hsound, hlt⟩ := ihb hbefore hg.1 hid
      exact ⟨node', below', hin, hsound, by omega⟩
    · exact ⟨node, below, ⟨trivial, hnode, hkids, hbelow⟩, hg.2, by omega⟩
    · obtain ⟨node', below', hin, hsound, hlt⟩ := ihw hbelow hg.2.2.2.2.1 hid
      exact ⟨node', below', hin, hsound, by omega⟩

end Sound

namespace Document

/-- A document whose nodes all stand below the root, as those of a source do. -/
structure Standing (d : Document) (g : Grove) : Prop where
  rooted : d.tree.node? Tree.root = some { kind := .unset }
  standing : g.In d.tree
  roots : d.tree.children Tree.root = g.roots
  numbered : Tree.root :: g.ids = List.range d.tree.size
  sound : g.toForest.Sound

theorem exists_standing {source : String} {d : Document} (h : parse source = .ok d) :
    ∃ g ts, d.Standing g ∧ tokens source = .ok ts ∧ g.marks = ts.flatMap Token.marks := by
  cases ending source with
  | fault e i hparse =>
    rw [hparse] at h
    cases h
  | complete ts t g hparse htokens _ hrooted hin hroots hmarks hproper hids =>
    rw [hparse] at h
    cases h
    refine ⟨g, ts, ⟨hrooted, hin, hroots, hids, ?_⟩, htokens, hmarks⟩
    have hregular : Regular (g.toForest.marks ++ []) := by
      rw [List.append_nil, Grove.marks_toForest, hmarks]
      exact regular_of_tokens htokens
    exact hproper.sound_of_regular hregular

namespace Standing

variable {d : Document} {g : Grove} (h : d.Standing g)
include h

theorem length_ids : g.ids.length + 1 = d.tree.size := by
  simpa using congrArg List.length h.numbered

theorem forestTo_roots {depth : Nat} (hdepth : g.ids.length ≤ depth) :
    d.tree.forestTo depth (d.tree.children Tree.root) = g.toForest := by
  rw [h.roots, h.standing.forestTo_eq (g.height_le_length.trans hdepth)]

theorem forest_eq : d.forest = g.toForest := by
  have hlength := h.length_ids
  rw [forest, Tree.topLevel, if_pos rfl, h.forestTo_roots (by omega)]

theorem subtree_eq {id : NodeId} (hid : id < d.tree.size) (hroot : id ≠ Tree.root) :
    ∃ node below, d.tree.node? id = some node ∧ d.tree.subtree id = .cons node below .nil ∧
      (Forest.cons node below .nil).Sound := by
  have hlength := h.length_ids
  have hmem : id ∈ g.ids := by
    have hrange := List.mem_range.2 hid
    rw [← h.numbered, List.mem_cons] at hrange
    exact hrange.resolve_left hroot
  obtain ⟨node, below, hin, hsound, hlt⟩ := h.standing.exists_part h.sound hmem
  refine ⟨node, below.toForest, hin.2.1, hin.forestTo_eq ?_, hsound⟩
  have hheight := below.height_le_length
  simp only [Grove.height]
  omega

theorem sound_topLevel {id : NodeId} (hid : id < d.tree.size) :
    (d.tree.topLevel id).Sound ∧
      (d.tree.subtree id).render = (d.tree.topLevel id).indented 0 false := by
  rw [Forest.render_eq]
  by_cases hroot : id = Tree.root
  · subst hroot
    have htop : d.tree.topLevel Tree.root = g.toForest := h.forest_eq
    rw [htop]
    refine ⟨h.sound, ?_⟩
    rw [Tree.subtree, ← h.length_ids, Tree.forestTo, List.foldr_cons, h.rooted,
      h.forestTo_roots (Nat.le_refl _)]
    simp [Forest.indented]
  · obtain ⟨node, below, -, hsubtree, hsound⟩ := h.subtree_eq hid hroot
    rw [Tree.topLevel, if_neg hroot, hsubtree]
    exact ⟨hsound, rfl⟩

theorem topLevel_text {id : NodeId} (hid : id < d.tree.size) {n : Node} {data : String}
    (hnode : d.tree.node? id = some n) (hn : n.kind = .text data) :
    d.tree.topLevel id = .cons n .nil .nil := by
  have hroot : id ≠ Tree.root := by
    rintro rfl
    rw [h.rooted] at hnode
    cases hnode
    cases hn
  obtain ⟨node, below, hnode', hsubtree, hsound⟩ := h.subtree_eq hid hroot
  rw [hnode] at hnode'
  cases hnode'
  have hbelow : below = .nil := by
    have hholds := hsound.2.2.1
    rwa [Node.Holds, hn] at hholds
  rw [Tree.topLevel, if_neg hroot, hsubtree, hbelow]

end Standing

end Document

end Template
