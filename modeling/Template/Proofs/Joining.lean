import Template.Proofs.Arena
import Template.Proofs.Concatenation
import Template.Proofs.Groves

namespace Template

namespace Document

def Failure.move (base : Position) : Failure → Failure
  | .malformed e => .malformed (e.move base)
  | .refused v => .refused v

inductive Alike (base : Position) : Except Failure Document → Except Failure Document → Prop
  | ok (d d' : Document) : Alike base (.ok d) (.ok d')
  | error (f : Failure) : Alike base (.error f) (.error (f.move base))

variable {base : Position}

theorem Alike.ok_iff {x y : Except Failure Document} (h : Alike base x y) :
    (∃ d, y = .ok d) ↔ ∃ d, x = .ok d := by
  cases h with
  | ok d d' => exact ⟨fun _ => ⟨d, rfl⟩, fun _ => ⟨d', rfl⟩⟩
  | error f =>
    constructor
    · rintro ⟨d, hd⟩
      cases hd
    · rintro ⟨d, hd⟩
      cases hd

theorem Alike.eq_error {x y : Except Failure Document} {f : Failure} (h : Alike base x y)
    (hx : x = .error f) : y = .error (f.move base) := by
  cases h with
  | ok d d' => cases hx
  | error f' =>
    cases hx
    rfl

namespace Builder

variable {b c : Builder} {s s' : Site}

theorem Shows.run_move (hb : b.Shows s) (hc : c.Shows s') (hnames : s'.names = s.names)
    (ls : List Lexeme) : Alike base (b.run ls) (c.run (ls.map (Lexeme.move base))) := by
  induction ls generalizing b c s s' with
  | nil => exact .ok _ _
  | cons l ls ih =>
    rw [List.map_cons]
    cases l with
    | error e => exact .error (.malformed e)
    | ok t =>
      by_cases hkind : t.kind = .endOfInput
      · obtain ⟨kind, p⟩ := t
        cases hkind
        cases hopen : s.names with
        | nil =>
          rw [hb.run_end hopen]
          exact (hc.run_end (hnames.trans hopen)).symm ▸ .ok _ _
        | cons name names =>
          rw [hb.run_unclosed hopen]
          exact (hc.run_unclosed (hnames.trans hopen)).symm ▸ .error _
      · have hkind' : (t.move base).kind ≠ .endOfInput :=
          fun hend => hkind (Token.Kind.move_eq_endOfInput.1 hend)
        cases htake : Bracket.unclosed? s.names t.brackets with
        | some names =>
          have htake' : Bracket.unclosed? s'.names (t.move base).brackets = some names := by
            rw [hnames, Token.brackets_move, htake]
          obtain ⟨b₁, s₁, hb₁, hshows, -, hnames₁⟩ := hb.take htake
          obtain ⟨c₁, s₁', hc₁, hshows', -, hnames₁'⟩ := hc.take htake'
          rw [Lexeme.move, Builder.run, Builder.run, if_neg hkind, if_neg hkind', hb₁, hc₁]
          exact ih hshows hshows' (hnames₁'.trans hnames₁.symm)
        | none =>
          obtain ⟨name, p, rfl, hname⟩ := Bracket.exists_endTag htake
          rw [hb.run_unmatched hname]
          exact (hc.run_unmatched (hnames ▸ hname)).symm ▸ .error _

end Builder

def renumber (k : Nat) (id : NodeId) : NodeId := if id = Tree.root then Tree.root else id + k

/-- The document `d` holds first the nodes of `d₁`, as they are, and then those of `d₂`, numbered
on and with all positions moved. -/
structure Joined (base : Position) (d₁ d₂ d : Document) : Prop where
  size : d.tree.size + 1 = d₁.tree.size + d₂.tree.size
  nodes : d.nodes = d₁.nodes ++ d₂.nodes.map (renumber (d₁.tree.size - 1))
  node_first : ∀ id < d₁.tree.size, d.tree.node? id = d₁.tree.node? id
  parent_first : ∀ id < d₁.tree.size, d.tree.parent? id = d₁.tree.parent? id
  children_first : ∀ id < d₁.tree.size, id ≠ Tree.root → d.tree.children id = d₁.tree.children id
  subtree_first : ∀ id < d₁.tree.size, id ≠ Tree.root → d.tree.subtree id = d₁.tree.subtree id
  node_second : ∀ id < d₂.tree.size, id ≠ Tree.root →
    d.tree.node? (renumber (d₁.tree.size - 1) id) = (d₂.tree.node? id).map (Node.move base)
  parent_second : ∀ id < d₂.tree.size,
    d.tree.parent? (renumber (d₁.tree.size - 1) id) =
      (d₂.tree.parent? id).map (renumber (d₁.tree.size - 1))
  children_second : ∀ id < d₂.tree.size, id ≠ Tree.root →
    d.tree.children (renumber (d₁.tree.size - 1) id) =
      (d₂.tree.children id).map (renumber (d₁.tree.size - 1))
  subtree_second : ∀ id < d₂.tree.size, id ≠ Tree.root →
    d.tree.subtree (renumber (d₁.tree.size - 1) id) = (d₂.tree.subtree id).move base

section Parts

variable {d part : Document} {g : Grove} {k : Nat}

@[simp] theorem renumber_zero : renumber 0 = id := by
  funext i
  unfold renumber
  split
  · rename_i h
    exact h.symm
  · rfl

theorem renumber_of_ne {id : NodeId} (h : id ≠ Tree.root) : renumber k id = id + k := if_neg h

theorem Standing.mem_ids (h : part.Standing g) {id : NodeId} :
    id ∈ g.ids ↔ id < part.tree.size ∧ id ≠ Tree.root := by
  have hmem : id ∈ Tree.root :: g.ids ↔ id < part.tree.size := by rw [h.numbered, List.mem_range]
  have hnodup : (Tree.root :: g.ids).Nodup := h.numbered ▸ List.nodup_range
  rw [← hmem, List.mem_cons]
  constructor
  · intro hid
    refine ⟨.inr hid, ?_⟩
    rintro rfl
    exact (List.nodup_cons.1 hnodup).1 hid
  · rintro ⟨hid, hroot⟩
    exact hid.resolve_left hroot

theorem map_renumber (h : part.tree.Grounded) (p : NodeId) :
    (part.tree.children p).map (renumber k) = (part.tree.children p).map (· + k) := by
  refine List.map_congr_left ?_
  intro c hc
  refine renumber_of_ne ?_
  rintro rfl
  have hparent := h.linked.parent?_of_mem hc
  rw [h.root] at hparent
  cases hparent

theorem forestTo_place {t t' : Tree} (h : g.In t) (h' : (g.place base k).In t') (depth : Nat)
    {ids : List NodeId} (hids : ids ⊆ g.ids) :
    t'.forestTo depth (ids.map (· + k)) = (t.forestTo depth ids).move base := by
  induction depth generalizing ids with
  | zero => rfl
  | succ depth ih =>
    induction ids with
    | nil => rfl
    | cons id ids ihs =>
      rw [List.cons_subset] at hids
      obtain ⟨hnode, hkids⟩ := h.moved h' id hids.1
      have hbelow := ih (h.children_subset id hids.1)
      have hbeside := ihs hids.2
      simp only [Tree.forestTo, List.map_cons, List.foldr_cons] at hbeside ⊢
      rw [hbeside, hnode, hkids, hbelow]
      cases t.node? id <;> rfl

structure Holds (base : Position) (k : Nat) (d part : Document) : Prop where
  node : ∀ id < part.tree.size, id ≠ Tree.root →
    d.tree.node? (renumber k id) = (part.tree.node? id).map (Node.move base)
  parent : ∀ id < part.tree.size,
    d.tree.parent? (renumber k id) = (part.tree.parent? id).map (renumber k)
  children : ∀ id < part.tree.size, id ≠ Tree.root →
    d.tree.children (renumber k id) = (part.tree.children id).map (renumber k)
  subtree : ∀ id < part.tree.size, id ≠ Tree.root →
    d.tree.subtree (renumber k id) = (part.tree.subtree id).move base

theorem holds_of_place (h : part.Standing g) (hpart : part.tree.Grounded) (hd : d.tree.Grounded)
    (hin : (g.place base k).In d.tree) (hroots : ∀ id ∈ g.roots, id + k ∈ d.nodes) :
    Holds base k d part where
  node := by
    intro id hid hroot
    rw [renumber_of_ne hroot]
    exact (h.standing.moved hin id (h.mem_ids.2 ⟨hid, hroot⟩)).1
  parent := by
    intro id hid
    by_cases hroot : id = Tree.root
    · subst hroot
      rw [hpart.root, renumber, if_pos rfl, hd.root]
      rfl
    · rw [renumber_of_ne hroot]
      rcases h.standing.exists_parent id (h.mem_ids.2 ⟨hid, hroot⟩) with htop | ⟨p, hp, hmem⟩
      · have hpar : part.tree.parent? id = some Tree.root := by
          apply hpart.linked.parent?_of_mem
          rw [h.roots]
          exact htop
        rw [hpar]
        exact hd.linked.parent?_of_mem (hroots id htop)
      · have hkids := (h.standing.moved hin p hp).2
        rw [hpart.linked.parent?_of_mem hmem, Option.map_some,
          renumber_of_ne (h.mem_ids.1 hp).2]
        apply hd.linked.parent?_of_mem
        rw [hkids]
        exact List.mem_map_of_mem hmem
  children := by
    intro id hid hroot
    rw [renumber_of_ne hroot, map_renumber hpart]
    exact (h.standing.moved hin id (h.mem_ids.2 ⟨hid, hroot⟩)).2
  subtree := by
    intro id hid hroot
    rw [renumber_of_ne hroot]
    have hmem : [id] ⊆ g.ids :=
      List.cons_subset.2 ⟨h.mem_ids.2 ⟨hid, hroot⟩, List.nil_subset _⟩
    rw [← hd.wellFormed.subtree (id + k) (d.tree.size + part.tree.size) (Nat.le_add_right _ _),
      ← hpart.wellFormed.subtree id (d.tree.size + part.tree.size) (Nat.le_add_left _ _)]
    exact forestTo_place h.standing hin _ hmem

end Parts

section Joined

variable {s₁ s₂ : String} {t : Token} {d₁ d₂ d : Document} {g₁ g₂ g : Grove}

theorem Standing.ids_eq (h : d.Standing g) : g.ids = List.range' 1 g.toForest.count := by
  have hnumbered := h.numbered
  rw [← h.length_ids, List.range_eq_range', List.range'_succ, Grove.length_ids] at hnumbered
  exact (List.cons.inj hnumbered).2

theorem Standing.eq_append (h₁ : d₁.Standing g₁) (h₂ : d₂.Standing g₂) (h : d.Standing g)
    (hmarks : g.marks = g₁.marks ++ g₂.marks.map (Mark.move base)) :
    g = g₁.append (g₂.place base (d₁.tree.size - 1)) := by
  have hforest : g.toForest = (g₁.append (g₂.place base (d₁.tree.size - 1))).toForest := by
    apply h.sound.proper.eq_of_marks
    · rw [Grove.toForest_append, Grove.toForest_place, Forest.proper_append]
      exact ⟨h₁.sound.proper, h₂.sound.proper.move⟩
    · rw [Grove.toForest_append, Grove.toForest_place, Forest.marks_append, Forest.marks_move,
        Grove.marks_toForest, Grove.marks_toForest, Grove.marks_toForest, hmarks]
  apply Grove.eq_of_toForest hforest
  have hsize := h₁.length_ids
  rw [Grove.length_ids] at hsize
  rw [h.ids_eq, hforest, Grove.ids_append, Grove.ids_place, Grove.toForest_append,
    Grove.toForest_place, Forest.count_append, Forest.count_move, h₁.ids_eq, h₂.ids_eq, ← hsize,
    Nat.add_sub_cancel]
  have hmap : (List.range' 1 g₂.toForest.count).map (· + g₁.toForest.count) =
      List.range' (1 + g₁.toForest.count) g₂.toForest.count := by
    rw [Nat.add_comm 1, ← List.map_add_range']
    exact List.map_congr_left fun id _ => Nat.add_comm id _
  rw [hmap, List.range'_append_1]

theorem joined_of_standing (h₁ : d₁.Standing g₁) (h₂ : d₂.Standing g₂) (h : d.Standing g)
    (hd₁ : d₁.tree.Grounded) (hd₂ : d₂.tree.Grounded) (hd : d.tree.Grounded)
    (hmarks : g.marks = g₁.marks ++ g₂.marks.map (Mark.move base)) : Joined base d₁ d₂ d := by
  have hg := Standing.eq_append h₁ h₂ h hmarks
  have hin := h.standing
  have hroots : d.nodes = g₁.roots ++ g₂.roots.map (· + (d₁.tree.size - 1)) := by
    rw [nodes, h.roots, hg, Grove.roots_append, Grove.roots_place]
  rw [hg, Grove.in_append] at hin
  have hfirst : Holds {} 0 d d₁ := by
    refine holds_of_place h₁ hd₁ hd ?_ ?_
    · rw [Grove.place_zero]
      exact hin.1
    · intro id hid
      rw [hroots]
      exact List.mem_append_left _ hid
  have hsecond : Holds base (d₁.tree.size - 1) d d₂ := by
    refine holds_of_place h₂ hd₂ hd hin.2 ?_
    intro id hid
    rw [hroots]
    exact List.mem_append_right _ (List.mem_map_of_mem hid)
  constructor
  · have hlength := h.length_ids
    have hlength₁ := h₁.length_ids
    have hlength₂ := h₂.length_ids
    rw [hg, Grove.ids_append, Grove.ids_place, List.length_append, List.length_map] at hlength
    omega
  · rw [hroots, nodes, nodes, map_renumber hd₂, h₁.roots, h₂.roots]
  · intro id hid
    by_cases hroot : id = Tree.root
    · rw [hroot, h.rooted, h₁.rooted]
    · simpa using hfirst.node id hid hroot
  · simpa using hfirst.parent
  · simpa using hfirst.children
  · simpa using hfirst.subtree
  · exact hsecond.node
  · exact hsecond.parent
  · exact hsecond.children
  · exact hsecond.subtree

theorem exists_run (ht : EndsIn s₁ t) (h₁ : parse s₁ = .ok d₁) :
    ∃ (b : Builder) (s : Site), b.Shows s ∧ s.names = [] ∧
      ∀ s₂, parse (s₁ ++ s₂) = b.run ((lexemes s₂).map (Lexeme.move (endPosition s₁))) := by
  obtain ⟨ts, p, hlexemes, happend⟩ := ht.lexemes_append
  have hunclosed : Bracket.unclosed? [] ((ts ++ [t]).flatMap Token.brackets) = some [] := by
    obtain ⟨us, hus, hbalanced⟩ := (parse_ok_iff_or_fault s₁).1.1 ⟨d₁, h₁⟩
    rw [Bracket.balanced_iff, ← flatMap_brackets, ← eq_map_of_mapM hus, hlexemes,
      List.flatMap_append, flatMap_brackets] at hbalanced
    simpa [Lexeme.brackets, Token.brackets] using hbalanced
  obtain ⟨b, s, hshows, -, hnames, hrun⟩ :=
    Builder.shows_empty.run (EndsIn.kinds hlexemes) hunclosed
  refine ⟨b, s, hshows, hnames, ?_⟩
  intro s₂
  rw [parse, ofLexemes, happend, hrun]

theorem marks_append {ts₁ ts₂ ts : List Token} (ht : EndsIn s₁ t) (h₁ : tokens s₁ = .ok ts₁)
    (h₂ : tokens s₂ = .ok ts₂) (h : tokens (s₁ ++ s₂) = .ok ts) :
    ts.flatMap Token.marks =
      ts₁.flatMap Token.marks ++ (ts₂.flatMap Token.marks).map (Mark.move (endPosition s₁)) := by
  obtain ⟨us, p, hlexemes, happend⟩ := ht.lexemes_append
  have hinj : Function.Injective (List.map (.ok : Token → Lexeme)) :=
    List.map_injective_iff.2 fun _ _ => Except.ok.inj
  have hts₁ : ts₁ = us ++ [t] ++ [⟨.endOfInput, p⟩] := by
    apply hinj
    rw [← eq_map_of_mapM h₁, hlexemes]
    simp
  have hts : ts = us ++ [t] ++ ts₂.map (Token.move (endPosition s₁)) := by
    apply hinj
    rw [← eq_map_of_mapM h, happend, eq_map_of_mapM h₂]
    simp [Function.comp_def, Lexeme.move]
  have hmoved : (ts₂.map (Token.move (endPosition s₁))).flatMap Token.marks =
      (ts₂.flatMap Token.marks).map (Mark.move (endPosition s₁)) := by
    rw [List.flatMap_map, List.map_flatMap]
    exact List.flatMap_congr fun u _ => u.marks_move
  rw [hts, hts₁, List.flatMap_append, List.flatMap_append, hmoved]
  simp [Token.marks]

/-- Where a source ends in a token that is written to its end, parsing it together with another
one behind is parsing each of them. -/
theorem parse_append (ht : EndsIn s₁ t) (h₁ : parse s₁ = .ok d₁) (s₂ : String) :
    ((∃ d, parse (s₁ ++ s₂) = .ok d) ↔ ∃ d₂, parse s₂ = .ok d₂) ∧
    (∀ d d₂, parse (s₁ ++ s₂) = .ok d → parse s₂ = .ok d₂ →
      Joined (endPosition s₁) d₁ d₂ d) ∧
    ∀ f, parse s₂ = .error f → ∃ e, f = .malformed e ∧
      parse (s₁ ++ s₂) = .error (.malformed (e.move (endPosition s₁))) ∧
        (e.move (endPosition s₁)).message = e.message := by
  obtain ⟨b, s, hshows, hnames, hrun⟩ := exists_run ht h₁
  have halike : Alike (endPosition s₁) (parse s₂) (parse (s₁ ++ s₂)) :=
    hrun s₂ ▸ Builder.shows_empty.run_move hshows hnames (lexemes s₂)
  refine ⟨halike.ok_iff, ?_, ?_⟩
  · intro d d₂ hd h₂
    obtain ⟨g₁, ts₁, hstanding₁, htokens₁, hmarks₁⟩ := exists_standing h₁
    obtain ⟨g₂, ts₂, hstanding₂, htokens₂, hmarks₂⟩ := exists_standing h₂
    obtain ⟨g, ts, hstanding, htokens, hmarks⟩ := exists_standing hd
    refine joined_of_standing hstanding₁ hstanding₂ hstanding (grounded_of_parse h₁)
      (grounded_of_parse h₂) (grounded_of_parse hd) ?_
    rw [hmarks, hmarks₁, hmarks₂, marks_append ht htokens₁ htokens₂ htokens]
  · intro f hf
    cases ending s₂ with
    | complete ts tree g hparse =>
      rw [hparse] at hf
      cases hf
    | fault e i hparse =>
      rw [hparse] at hf
      cases hf
      exact ⟨e, rfl, halike.eq_error hparse, rfl⟩

theorem parse_append_paragraph :
    ∃ d₁ d₂ d, parse "<p>x</p>" = .ok d₁ ∧ EndsIn "<p>x</p>" ⟨.endTag "p", ⟨0, 5⟩⟩ ∧
      parse "\n<br>" = .ok d₂ ∧ parse ("<p>x</p>" ++ "\n<br>") = .ok d ∧
      Joined ⟨0, 8⟩ d₁ d₂ d := by
  have hends : EndsIn "<p>x</p>" ⟨.endTag "p", ⟨0, 5⟩⟩ := by
    refine ⟨⟨[⟨.startTag "p" [], ⟨0, 1⟩⟩, ⟨.text "x", ⟨0, 4⟩⟩], ⟨0, 8⟩, by decide +kernel⟩, ?_⟩
    exact ⟨"<p>x".toList, Scan.closingTag "p", by decide +kernel, by decide +kernel, .endTag "p"⟩
  have hfirst : (parse "<p>x</p>").isOk = true := by decide +kernel
  have hsecond : (parse "\n<br>").isOk = true := by decide +kernel
  cases h₁ : parse "<p>x</p>" with
  | error f =>
    rw [h₁] at hfirst
    cases hfirst
  | ok d₁ =>
    cases h₂ : parse "\n<br>" with
    | error f =>
      rw [h₂] at hsecond
      cases hsecond
    | ok d₂ =>
      obtain ⟨hsuccess, hjoined, -⟩ := parse_append hends h₁ "\n<br>"
      obtain ⟨d, h⟩ := hsuccess.2 ⟨d₂, h₂⟩
      have hbase : endPosition "<p>x</p>" = ⟨0, 8⟩ := by decide +kernel
      exact ⟨d₁, d₂, d, rfl, hends, rfl, h, hbase ▸ hjoined d d₂ h h₂⟩

end Joined

end Document

end Template
