import Template.Document
import Template.Proofs.Brackets
import Template.Proofs.Links
import Template.Proofs.Walk

/-! Documents in the making.  The open elements lead from the root down the right edge of the
tree; what stands beside them and below the innermost one is complete.  Every token keeps a
builder in such a state, and moves it as the token's marks and brackets say. -/

namespace Template

/-- A grove at the top level, or one below an element that is open and the last of its own. -/
inductive Site
  | top (inner : Grove)
  | under (outside : Site) (id : NodeId) (name : String) (attributes : List Attribute)
      (position : Position) (inner : Grove)

namespace Site

def here : Site → NodeId
  | top _ => Tree.root
  | under _ id _ _ _ _ => id

def opened : Site → List NodeId
  | top _ => []
  | under outside id _ _ _ _ => id :: outside.opened

def names : Site → List String
  | top _ => []
  | under outside _ name _ _ _ => name :: outside.names

def ids : Site → List NodeId
  | top inner => inner.ids
  | under outside id _ _ _ inner => outside.ids ++ id :: inner.ids

def marks : Site → List Mark
  | top inner => inner.marks
  | under outside _ name attributes position inner =>
    outside.marks ++ .opening name attributes position :: inner.marks

def add (s : Site) (id : NodeId) (node : Node) (below : Grove) : Site :=
  match s with
  | top inner => top (inner.snoc id node below)
  | under outside id' name attributes position inner =>
    under outside id' name attributes position (inner.snoc id node below)

def close : Site → Site
  | top inner => top inner
  | under outside id name attributes position inner =>
    outside.add id (.element name attributes position) inner

def Proper : Site → Prop
  | top inner => inner.toForest.Proper
  | under outside _ _ _ _ inner => outside.Proper ∧ inner.toForest.Proper

def In (t : Tree) : Site → List NodeId → Prop
  | top inner, hanging => inner.In t ∧ t.children Tree.root = inner.roots ++ hanging
  | under outside id name attributes position inner, hanging =>
    outside.In t [id] ∧ t.node? id = some (.element name attributes position) ∧ inner.In t ∧
      t.children id = inner.roots ++ hanging

variable {t t' : Tree} {s : Site} {id : NodeId} {node : Node} {below : Grove}

@[simp] theorem opened_add : (s.add id node below).opened = s.opened := by
  cases s <;> rfl

@[simp] theorem names_add : (s.add id node below).names = s.names := by
  cases s <;> rfl

@[simp] theorem ids_add : (s.add id node below).ids = s.ids ++ id :: below.ids := by
  cases s <;> simp [add, ids, Grove.ids]

@[simp] theorem marks_add :
    (s.add id node below).marks = s.marks ++ (node.entering ++ below.marks ++ node.leaving) := by
  cases s <;> simp [add, marks, Grove.marks]

theorem Proper.add (h : s.Proper) (hnode : node.Proper)
    (hleaf : node.name? = none → below = .nil) (hbelow : below.toForest.Proper) :
    (s.add id node below).Proper := by
  have hsnoc : ∀ g : Grove, g.toForest.Proper → (g.snoc id node below).toForest.Proper := by
    intro g hg
    rw [Grove.toForest, Forest.proper_append]
    refine ⟨hg, hnode, ?_, hbelow, trivial⟩
    intro hname
    rw [hleaf hname]
    rfl
  cases s with
  | top inner => exact hsnoc inner h
  | under outside id' name attributes position inner => exact ⟨h.1, hsnoc inner h.2⟩

theorem Proper.close (h : s.Proper) : s.close.Proper := by
  cases s with
  | top inner => exact h
  | under outside id name attributes position inner =>
    exact h.1.add rfl (fun hname => nomatch hname) h.2

theorem here_mem (s : Site) : s.here ∈ Tree.root :: s.ids := by
  cases s with
  | top inner => simp [here]
  | under outside id name attributes position inner => simp [here, ids]

theorem headD_opened (s : Site) : s.opened.headD Tree.root = s.here := by
  cases s <;> rfl

theorem In.congr {hanging : List NodeId} (h : s.In t hanging)
    (hsame : ∀ id ∈ Tree.root :: s.ids,
      t'.node? id = t.node? id ∧ t'.children id = t.children id) : s.In t' hanging := by
  induction s generalizing hanging with
  | top inner =>
    simp only [ids, List.forall_mem_cons] at hsame
    exact ⟨h.1.congr hsame.2, hsame.1.2.trans h.2⟩
  | under outside id name attributes position inner ih =>
    obtain ⟨hout, hnode, hinner, hkids⟩ := h
    simp only [ids, List.forall_mem_cons, List.forall_mem_append] at hsame
    obtain ⟨hroot, hso, hsid, hsi⟩ := hsame
    refine ⟨ih hout ?_, hsid.1.trans hnode, hinner.congr hsi, hsid.2.trans hkids⟩
    exact List.forall_mem_cons.2 ⟨hroot, hso⟩

theorem In.hang {child : NodeId} (h : s.In t []) (hnodup : (Tree.root :: s.ids).Nodup)
    (hnode : ∀ id ∈ Tree.root :: s.ids, t'.node? id = t.node? id)
    (hkids : ∀ id, t'.children id =
      if id = s.here then t.children s.here ++ [child] else t.children id) :
    s.In t' [child] := by
  -- the new child changes the children of the innermost open element alone
  have hsame : ∀ id ∈ Tree.root :: s.ids, id ≠ s.here →
      t'.node? id = t.node? id ∧ t'.children id = t.children id := by
    intro id hid hne
    refine ⟨hnode id hid, ?_⟩
    rw [hkids, if_neg hne]
  have hhere : t'.children s.here = t.children s.here ++ [child] := by
    rw [hkids, if_pos rfl]
  cases s with
  | top inner =>
    simp only [ids, List.nodup_cons] at hnodup
    constructor
    · apply h.1.congr
      intro id hid
      apply hsame id (List.mem_cons_of_mem _ hid)
      rintro rfl
      exact hnodup.1 hid
    · have hlist := h.2
      rw [List.append_nil] at hlist
      rw [← hlist]
      exact hhere
  | under outside id name attributes position inner =>
    obtain ⟨hout, hid, hinner, hlist⟩ := h
    simp only [ids, ← List.cons_append, List.nodup_append, List.nodup_cons] at hnodup
    obtain ⟨-, ⟨hinside, -⟩, hdisjoint⟩ := hnodup
    refine ⟨?_, ?_, ?_, ?_⟩
    · apply hout.congr
      intro id' hid'
      apply hsame id'
      · simp only [ids, ← List.cons_append]
        exact List.mem_append_left _ hid'
      · exact hdisjoint id' hid' id List.mem_cons_self
    · rw [hnode id (here_mem (.under outside id name attributes position inner)), hid]
    · apply hinner.congr
      intro id' hid'
      apply hsame id'
      · simp [ids, hid']
      · rintro rfl
        exact hinside hid'
    · rw [List.append_nil] at hlist
      rw [← hlist]
      exact hhere

theorem In.add (h : s.In t [id]) (hnode : t.node? id = some node)
    (hkids : t.children id = below.roots) (hbelow : below.In t) :
    (s.add id node below).In t [] := by
  cases s with
  | top inner =>
    refine ⟨⟨h.1, hnode, hkids, hbelow⟩, ?_⟩
    rw [h.2, List.append_nil]
    rfl
  | under outside id' name attributes position inner =>
    obtain ⟨hout, hid, hinner, hlist⟩ := h
    refine ⟨hout, hid, ⟨hinner, hnode, hkids, hbelow⟩, ?_⟩
    rw [hlist, List.append_nil]
    rfl

theorem In.close (h : s.In t []) : s.close.In t [] := by
  cases s with
  | top inner => exact h
  | under outside id name attributes position inner =>
    obtain ⟨hout, hid, hinner, hlist⟩ := h
    rw [List.append_nil] at hlist
    exact hout.add hid hlist hinner

theorem opened_close (s : Site) : s.close.opened = s.opened.tail := by
  cases s <;> simp [Site.close, opened]

theorem names_close (s : Site) : s.close.names = s.names.tail := by
  cases s <;> simp [Site.close, names]

theorem ids_close (s : Site) : s.close.ids = s.ids := by
  cases s <;> simp [Site.close, ids]

theorem marks_close {name : String} (h : s.names.head? = some name) :
    s.close.marks = s.marks ++ [.closing name] := by
  cases s with
  | top inner => cases h
  | under outside id name' attributes position inner =>
    cases h
    simp [Site.close, marks, Node.entering, Node.leaving, Node.element]

end Site

namespace Document.Builder

variable {b : Builder} {s : Site}

/-- The builder has come as far as `s`: all nodes of its tree but the root stand there, numbered
in the order of a walk. -/
structure Shows (b : Builder) (s : Site) : Prop where
  linked : b.tree.Linked
  rooted : b.tree.node? Tree.root = some { kind := .unset }
  opened : b.opened = s.opened
  standing : s.In b.tree []
  proper : s.Proper
  numbered : Tree.root :: s.ids = List.range b.tree.size

theorem shows_empty : Shows {} (.top .nil) where
  linked := Tree.linked_empty
  rooted := rfl
  opened := rfl
  standing := ⟨trivial, Tree.linked_empty.children_eq _ ▸ rfl⟩
  proper := trivial
  numbered := rfl

namespace Shows

variable (h : b.Shows s)
include h

theorem innermost_eq : b.innermost = s.here := by
  rw [innermost, h.opened, s.headD_opened]

theorem openName?_eq : b.openName? = s.names.head? := by
  have hstanding := h.standing
  rw [openName?, h.opened]
  cases s with
  | top inner => rfl
  | under outside id name attributes position inner =>
    simp [Site.opened, Site.names, hstanding.2.1, Node.name?, Node.element]

theorem lt_size {id : NodeId} (hid : id ∈ Tree.root :: s.ids) : id < b.tree.size := by
  rw [h.numbered] at hid
  exact List.mem_range.1 hid

theorem here_lt_size : s.here < b.tree.size := h.lt_size s.here_mem

theorem add_eq (n : Node) :
    b.add n = .ok (b.tree.size, { b with tree := b.tree.grow n s.here }) := by
  have happend := Tree.append_push h.linked n h.here_lt_size
  simp only [add, h.innermost_eq]
  rw [show (b.tree.push n).1 = b.tree.size from rfl, happend]

theorem hang (n : Node) : s.In (b.tree.grow n s.here) [b.tree.size] := by
  apply h.standing.hang
  · rw [h.numbered]
    exact List.nodup_range
  · intro id hid
    exact Tree.node?_grow_of_lt n s.here (h.lt_size hid)
  · exact h.linked.children_grow n h.here_lt_size

theorem rooted_grow (n : Node) :
    (b.tree.grow n s.here).node? Tree.root = some { kind := .unset } := by
  rw [Tree.node?_grow_of_lt n s.here (h.lt_size List.mem_cons_self), h.rooted]

theorem numbered_grow (n : Node) :
    Tree.root :: (s.ids ++ [b.tree.size]) = List.range (b.tree.grow n s.here).size := by
  rw [Tree.size_grow, List.range_succ, ← h.numbered, List.cons_append]

theorem addLeaf {n : Node} (hn : n.Proper) :
    ∃ b', b.addLeaf n = .ok b' ∧ b'.Shows (s.add b.tree.size n .nil) := by
  refine ⟨{ b with tree := b.tree.grow n s.here }, ?_, ?_, ?_, ?_, ?_, ?_, ?_⟩
  · rw [Builder.addLeaf, h.add_eq]
    rfl
  · exact h.linked.grow n h.here_lt_size
  · exact h.rooted_grow n
  · rw [Site.opened_add]
    exact h.opened
  · exact (h.hang n).add (Tree.node?_grow_size _ n _)
      (h.linked.children_grow_size n h.here_lt_size) trivial
  · exact h.proper.add hn (fun _ => rfl) trivial
  · rw [Site.ids_add]
    exact h.numbered_grow n

theorem addOpen (name : String) (attributes : List Attribute) (position : Position) :
    ∃ b', b.addOpen (.element name attributes position) = .ok b' ∧
      b'.Shows (.under s b.tree.size name attributes position .nil) := by
  refine ⟨⟨b.tree.grow (.element name attributes position) s.here, b.tree.size :: b.opened⟩,
    ?_, ?_, ?_, ?_, ?_, ?_, ?_⟩
  · rw [Builder.addOpen, h.add_eq]
    rfl
  · exact h.linked.grow _ h.here_lt_size
  · exact h.rooted_grow _
  · rw [Site.opened, h.opened]
  · exact ⟨h.hang _, Tree.node?_grow_size _ _ _, trivial,
      h.linked.children_grow_size _ h.here_lt_size⟩
  · exact ⟨h.proper, trivial⟩
  · exact h.numbered_grow _

theorem close_eq {name : String} (hname : s.names.head? = some name) (position : Position) :
    b.close name position = .ok { b with opened := b.opened.tail } := by
  rw [Builder.close, h.openName?_eq, if_pos hname]

theorem shows_close : Shows { b with opened := b.opened.tail } s.close where
  linked := h.linked
  rooted := h.rooted
  opened := by rw [s.opened_close, h.opened]
  standing := h.standing.close
  proper := h.proper.close
  numbered := by rw [s.ids_close, h.numbered]

theorem close_ne {name : String} (hname : s.names.head? ≠ some name) (position : Position) :
    b.close name position = .error (.malformed ⟨.unmatchedClosingTag name, position⟩) := by
  rw [Builder.close, h.openName?_eq, if_neg hname]

theorem take {t : Token} {names : List String}
    (hnames : Bracket.unclosed? s.names t.brackets = some names) :
    ∃ b' s', b.take t = .ok b' ∧ b'.Shows s' ∧ s'.marks = s.marks ++ t.marks ∧
      s'.names = names := by
  obtain ⟨kind, position⟩ := t
  cases kind with
  | endOfInput =>
    cases hnames
    exact ⟨b, s, rfl, h, by simp [Token.marks], rfl⟩
  | comment data =>
    cases hnames
    exact ⟨b, s, rfl, h, by simp [Token.marks], rfl⟩
  | text data =>
    cases hnames
    obtain ⟨b', htake, hshows⟩ := h.addLeaf (n := ⟨.text data, position, none⟩) rfl
    refine ⟨b', _, htake, hshows, ?_, Site.names_add⟩
    simp [Token.marks, Node.entering, Node.leaving, Grove.marks]
  | mustache expression =>
    cases hnames
    obtain ⟨b', htake, hshows⟩ := h.addLeaf (n := ⟨.mustache expression, position, none⟩) rfl
    refine ⟨b', _, htake, hshows, ?_, Site.names_add⟩
    simp [Token.marks, Node.entering, Node.leaving, Grove.marks]
  | selfClosingTag name attributes =>
    cases hnames
    obtain ⟨b', htake, hshows⟩ := h.addLeaf (n := .element name attributes position) rfl
    refine ⟨b', _, htake, hshows, ?_, Site.names_add⟩
    simp [Token.marks, Node.entering, Node.leaving, Node.element, Grove.marks]
  | startTag name attributes =>
    cases hnames
    obtain ⟨b', htake, hshows⟩ := h.addOpen name attributes position
    exact ⟨b', _, htake, hshows, rfl, rfl⟩
  | endTag name =>
    simp only [Token.brackets, Bracket.unclosed?, Bracket.push?, Option.bind_fun_some] at hnames
    split at hnames
    · rename_i hname
      cases hnames
      exact ⟨_, _, h.close_eq hname position, h.shows_close, s.marks_close hname, s.names_close⟩
    · cases hnames

theorem run {ts : List Token} {names : List String} (hend : ∀ t ∈ ts, t.kind ≠ .endOfInput)
    (hnames : Bracket.unclosed? s.names (ts.flatMap Token.brackets) = some names) :
    ∃ (b' : Builder) (s' : Site), b'.Shows s' ∧
      s'.marks = s.marks ++ ts.flatMap Token.marks ∧ s'.names = names ∧
      ∀ rest, b.run (ts.map .ok ++ rest) = b'.run rest := by
  induction ts generalizing b s with
  | nil =>
    cases hnames
    exact ⟨b, s, h, by simp, rfl, fun _ => rfl⟩
  | cons t ts ih =>
    rw [List.flatMap_cons, Bracket.unclosed?_append, Option.bind_eq_some_iff] at hnames
    obtain ⟨ms, hms, hnames⟩ := hnames
    rw [List.forall_mem_cons] at hend
    obtain ⟨b₁, s₁, htake, hshows₁, hmarks₁, rfl⟩ := h.take hms
    obtain ⟨b₂, s₂, hshows₂, hmarks₂, hnames₂, hrun⟩ := ih hshows₁ hend.2 hnames
    refine ⟨b₂, s₂, hshows₂, ?_, hnames₂, ?_⟩
    · rw [hmarks₂, hmarks₁, List.flatMap_cons, List.append_assoc]
    · intro rest
      rw [List.map_cons, List.cons_append, Builder.run, if_neg hend.1, htake]
      exact hrun rest

theorem run_unmatched {name : String} {position : Position} {rest : List Lexeme}
    (hname : s.names.head? ≠ some name) :
    b.run (.ok ⟨.endTag name, position⟩ :: rest) =
      .error (.malformed ⟨.unmatchedClosingTag name, position⟩) := by
  have htake : b.take ⟨.endTag name, position⟩ =
      .error (.malformed ⟨.unmatchedClosingTag name, position⟩) := h.close_ne hname position
  rw [Builder.run, if_neg (by simp), htake]

theorem run_end {position : Position} {rest : List Lexeme} (hnames : s.names = []) :
    b.run (.ok ⟨.endOfInput, position⟩ :: rest) = .ok ⟨b.tree⟩ := by
  rw [Builder.run, if_pos rfl, finish, h.openName?_eq, hnames, List.head?_nil]

theorem run_unclosed {name : String} {names : List String} {position : Position}
    {rest : List Lexeme} (hnames : s.names = name :: names) :
    b.run (.ok ⟨.endOfInput, position⟩ :: rest) =
      .error (.malformed ⟨.unclosedElement name, position⟩) := by
  rw [Builder.run, if_pos rfl, finish, h.openName?_eq, hnames, List.head?_cons]

theorem complete (hnames : s.names = []) :
    ∃ g : Grove, g.In b.tree ∧ b.tree.children Tree.root = g.roots ∧ g.marks = s.marks ∧
      g.toForest.Proper ∧ Tree.root :: g.ids = List.range b.tree.size := by
  have hstanding := h.standing
  have hproper := h.proper
  have hnumbered := h.numbered
  cases s with
  | top inner =>
    obtain ⟨hinner, hlist⟩ := hstanding
    rw [List.append_nil] at hlist
    exact ⟨inner, hinner, hlist, rfl, hproper, hnumbered⟩
  | under outside id name attributes position inner => cases hnames

end Shows

end Document.Builder

end Template
