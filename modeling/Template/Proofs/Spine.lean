import Mathlib.Data.List.Chain
import Mathlib.Data.List.Forall2
import Template.Proofs.Finding
import Template.Proofs.Safety

/-! The open elements of a document in the making.  Whenever the next token is asked for, they are
the right edge of the tree: one stands there for each start tag that has not been closed, and
nothing else is beside or below them.  So the input cannot end inside an element unnoticed. -/

namespace Template

/-- The start tags among `ts` that have not been closed, the innermost first: what follows each of
them up to the next is balanced. -/
inductive Unclosed : List Token → List Token → Prop
  | balanced {ts : List Token} : Bracket.Balanced (ts.flatMap Token.brackets) → Unclosed ts []
  | startTag {ts us tags : List Token} (name : String) (attributes : List Attribute)
      (position : Position) : Unclosed ts tags → Bracket.Balanced (us.flatMap Token.brackets) →
      Unclosed (ts ++ ⟨.startTag name attributes, position⟩ :: us)
        (⟨.startTag name attributes, position⟩ :: tags)

namespace Unclosed

variable {ts us tags : List Token} {name : String} {attributes : List Attribute}
  {position : Position}

theorem append (h : Unclosed ts tags) (hus : Bracket.Balanced (us.flatMap Token.brackets)) :
    Unclosed (ts ++ us) tags := by
  cases h with
  | balanced hts =>
    refine .balanced ?_
    rw [List.flatMap_append]
    exact hts.append hus
  | startTag name attributes position h hvs =>
    rw [List.append_assoc, List.cons_append]
    refine .startTag name attributes position h ?_
    rw [List.flatMap_append]
    exact hvs.append hus

theorem close (h : Unclosed ts (⟨.startTag name attributes, position⟩ :: tags))
    (position' : Position) : Unclosed (ts ++ [⟨.endTag name, position'⟩]) tags := by
  cases h with
  | startTag _ _ _ h hus =>
    rw [List.append_assoc, List.cons_append]
    refine h.append ?_
    rw [List.flatMap_cons, List.flatMap_append]
    exact .nest name hus .nil

theorem balanced_of_nil (h : Unclosed ts []) : Bracket.Balanced (ts.flatMap Token.brackets) := by
  cases h with
  | balanced h => exact h

theorem not_balanced_of_startTag (hus : Bracket.Balanced (us.flatMap Token.brackets)) :
    ¬ Bracket.Balanced ((ts ++ ⟨.startTag name attributes, position⟩ :: us).flatMap
      Token.brackets) := by
  intro hall
  rw [Bracket.balanced_iff, List.flatMap_append, Bracket.unclosed?_append,
    Option.bind_eq_some_iff] at hall
  obtain ⟨ns, -, hns⟩ := hall
  change Bracket.unclosed? (name :: ns) (us.flatMap Token.brackets) = some [] at hns
  rw [hus.unclosed?_eq] at hns
  cases hns

theorem unique {tags' : List Token} (h : Unclosed ts tags) (h' : Unclosed ts tags') :
    tags = tags' := by
  induction h generalizing tags' with
  | balanced hts =>
    cases h' with
    | balanced _ => rfl
    | startTag _ _ _ _ hus => exact absurd hts (not_balanced_of_startTag hus)
  | @startTag ts us tags name attributes position h hus ih =>
    generalize hall : ts ++ ⟨.startTag name attributes, position⟩ :: us = all at h'
    cases h' with
    | balanced hbalanced =>
      rw [← hall] at hbalanced
      exact absurd hbalanced (not_balanced_of_startTag hus)
    | @startTag ts' us' tags' name' attributes' position' h' hus' =>
      -- the later of two unclosed start tags would stand in the balanced word behind the other
      rcases List.append_eq_append_iff.1 hall with ⟨front, rfl, hrest⟩ | ⟨front, rfl, hrest⟩
      · cases front with
        | nil =>
          cases hrest
          rw [List.append_nil] at h'
          rw [ih h']
        | cons t front =>
          rw [(List.cons.inj hrest).2] at hus
          exact absurd hus (not_balanced_of_startTag hus')
      · cases front with
        | nil =>
          cases hrest
          rw [List.append_nil] at ih
          rw [ih h']
        | cons t front =>
          rw [(List.cons.inj hrest).2] at hus'
          exact absurd hus' (not_balanced_of_startTag hus)

end Unclosed

namespace Tree

variable {t : Tree} {p id : NodeId}

def OpenedBy (t : Tree) (id : NodeId) (tag : Token) : Prop :=
  ∃ name attributes, tag.kind = .startTag name attributes ∧
    t.node? id = some (.element name attributes tag.position)

theorem OpenedBy.name? {tag : Token} (h : t.OpenedBy id tag) :
    ∃ name attributes, tag.kind = .startTag name attributes ∧
      (t.node? id).bind Node.name? = some name := by
  obtain ⟨name, attributes, hkind, hnode⟩ := h
  refine ⟨name, attributes, hkind, ?_⟩
  rw [hnode]
  rfl

theorem OpenedBy.grow {tag : Token} (h : t.OpenedBy id tag) (n : Node) (p : NodeId) :
    (t.grow n p).OpenedBy id tag := by
  obtain ⟨name, attributes, hkind, hnode⟩ := h
  refine ⟨name, attributes, hkind, ?_⟩
  rw [node?_grow_of_lt n p (lt_size_of_node? hnode), hnode]

theorem parent?_grow (t : Tree) (n : Node) (p id : NodeId) :
    (t.grow n p).parent? id = if id = t.size then some p else t.parent? id := by
  rw [grow, parent?_attach (by simp), parent?_push]

theorem lastChild?_grow (n : Node) (hp : p < t.size) (id : NodeId) :
    (t.grow n p).lastChild? id = if id = p then some t.size else t.lastChild? id := by
  rw [grow, lastChild?_attach (lt_size_push n hp)]
  split
  · rfl
  · exact link_push rfl id

end Tree

namespace Document.Builder

variable {b b' : Builder} {t : Token} {ts tags : List Token}

/-- After the tokens `ts` the open elements are the right edge of the tree. -/
structure Spine (ts : List Token) (b : Builder) : Prop where
  range : b.InRange
  edge : (b.opened ++ [Tree.root]).IsChain fun id p => b.tree.lastChild? p = some id
  order : (b.opened ++ [Tree.root]).Pairwise (· > ·)
  entries : ∃ tags, Unclosed ts tags ∧ List.Forall₂ b.tree.OpenedBy b.opened tags
  attached : ∀ id < b.tree.size, id ≠ Tree.root → b.tree.isAttached id = true

theorem exists_cons_innermost (b : Builder) :
    ∃ rest, b.opened ++ [Tree.root] = b.innermost :: rest := by
  obtain ⟨tree, opened⟩ := b
  cases opened with
  | nil => exact ⟨[], rfl⟩
  | cons id ids => exact ⟨ids ++ [Tree.root], rfl⟩

namespace Spine

theorem empty : Spine [] {} where
  range := inRange_empty
  edge := .singleton _
  order := List.pairwise_singleton _ _
  entries := ⟨[], .balanced .nil, .nil⟩
  attached := by
    intro id hid hroot
    exact absurd (Nat.lt_one_iff.1 hid) hroot

variable (h : Spine ts b)
include h

theorem edge_grow (n : Node) :
    (b.opened ++ [Tree.root]).IsChain fun id p =>
      (b.tree.grow n b.innermost).lastChild? p = some id := by
  refine h.edge.imp_of_mem_tail_imp ?_
  intro id p _ hp hlast
  obtain ⟨rest, hrest⟩ := b.exists_cons_innermost
  have horder := h.order
  rw [hrest, List.pairwise_cons] at horder
  rw [hrest, List.tail_cons] at hp
  rw [Tree.lastChild?_grow n h.range.innermost_lt, if_neg (Nat.ne_of_lt (horder.1 p hp)), hlast]

theorem attached_grow (n : Node) :
    ∀ id < (b.tree.grow n b.innermost).size, id ≠ Tree.root →
      (b.tree.grow n b.innermost).isAttached id = true := by
  intro id hid hroot
  have hlinked := h.range.grounded.linked
  rw [(hlinked.grow n h.range.innermost_lt).isAttached_iff, Tree.parent?_grow]
  split
  · rfl
  · rename_i hne
    rw [Tree.size_grow] at hid
    rw [← hlinked.isAttached_iff]
    exact h.attached id (Nat.lt_of_le_of_ne (Nat.le_of_lt_succ hid) hne) hroot

theorem append {us : List Token} (hus : Bracket.Balanced (us.flatMap Token.brackets)) :
    Spine (ts ++ us) b := by
  obtain ⟨tags, hts, hentries⟩ := h.entries
  exact { h with entries := ⟨tags, hts.append hus, hentries⟩ }

theorem leaf {n : Node} (hadd : b.addLeaf n = .ok b') : Spine ts b' := by
  have hrange := h.range.addLeaf hadd
  obtain ⟨tags, hts, hentries⟩ := h.entries
  rw [addLeaf, h.range.add_eq] at hadd
  cases hadd
  exact {
    range := hrange
    edge := h.edge_grow n
    order := h.order
    entries := ⟨tags, hts, hentries.imp fun _ _ hid => hid.grow n _⟩
    attached := h.attached_grow n }

theorem push {name : String} {attributes : List Attribute} {position : Position}
    (hadd : b.addOpen (.element name attributes position) = .ok b') :
    Spine (ts ++ [⟨.startTag name attributes, position⟩]) b' := by
  have hrange := h.range.addOpen hadd
  obtain ⟨tags, hts, hentries⟩ := h.entries
  obtain ⟨rest, hrest⟩ := b.exists_cons_innermost
  have hedge := h.edge_grow (.element name attributes position)
  rw [addOpen, h.range.add_eq] at hadd
  cases hadd
  refine ⟨hrange, ?_, ?_, ?_, h.attached_grow _⟩
  · rw [hrest] at hedge
    rw [List.cons_append, hrest]
    refine .cons_cons ?_ hedge
    rw [Tree.lastChild?_grow _ h.range.innermost_lt, if_pos rfl]
  · refine List.pairwise_cons.2 ⟨?_, h.order⟩
    intro id hid
    have hid := (List.mem_append.1 hid).symm.imp_left List.mem_singleton.1
    exact h.range.opened id (List.mem_cons.2 hid)
  · refine ⟨_, .startTag name attributes position hts .nil, .cons ?_ ?_⟩
    · exact ⟨name, attributes, rfl, Tree.node?_grow_size _ _ _⟩
    · exact hentries.imp fun _ _ hid => hid.grow _ _

theorem openName?_eq_none_iff : b.openName? = none ↔ b.opened = [] := by
  obtain ⟨tree, opened⟩ := b
  obtain ⟨tags, -, hentries⟩ := h.entries
  rw [openName?]
  cases hentries with
  | nil => simp
  | cons hid _ =>
    obtain ⟨name, attributes, -, hname⟩ := hid.name?
    simp [hname]

theorem pop {name : String} {position : Position} (hclose : b.close name position = .ok b') :
    Spine (ts ++ [⟨.endTag name, position⟩]) b' := by
  have hrange := h.range.close hclose
  obtain ⟨tree, opened⟩ := b
  obtain ⟨tags, hts, hentries⟩ := h.entries
  rw [close] at hclose
  split at hclose
  · rename_i hname
    cases hclose
    rw [openName?] at hname
    cases hentries with
    | nil => cases hname
    | @cons id tag ids tags hid hentries =>
      obtain ⟨name', attributes, hkind, hname'⟩ := hid.name?
      obtain ⟨kind, position'⟩ := tag
      cases hkind
      obtain rfl : name' = name := Option.some.inj (hname'.symm.trans hname)
      exact {
        range := hrange
        edge := h.edge.tail
        order := h.order.tail
        entries := ⟨tags, hts.close position, hentries⟩
        attached := h.attached }
  · cases hclose

theorem take {t : Token} (htake : b.take t = .ok b') : Spine (ts ++ [t]) b' := by
  obtain ⟨kind, position⟩ := t
  cases kind with
  | endOfInput =>
    cases htake
    exact h.append .nil
  | comment data =>
    cases htake
    exact h.append .nil
  | text data => exact (h.leaf htake).append .nil
  | mustache expression => exact (h.leaf htake).append .nil
  | selfClosingTag name attributes => exact (h.leaf htake).append .nil
  | startTag name attributes => exact h.push htake
  | endTag name => exact h.pop htake

theorem finish_ok_iff (position : Position) :
    (∃ d, b.finish position = .ok d) ↔ b.opened = [] := by
  rw [← h.openName?_eq_none_iff, finish]
  cases b.openName? <;> simp

theorem balanced (hopened : b.opened = []) : Bracket.Balanced (ts.flatMap Token.brackets) := by
  obtain ⟨tags, hts, hentries⟩ := h.entries
  rw [hopened] at hentries
  cases hentries with
  | nil => exact hts.balanced_of_nil

end Spine

section Loop

variable {σ : Type} {step : σ → Except Violation (Lexeme × σ)} {start : σ} {p : Playback σ}

/-- Where the loop stands whenever it asks for the next lexeme: the tokens that it has taken in, the
builder, and what is left to scan. -/
inductive Loop (step : σ → Except Violation (Lexeme × σ)) (start : σ) :
    List Token → Builder → Playback σ → Prop
  | start : Loop step start [] {} { source := start }
  | turn {ts : List Token} {b b' : Builder} {p q : Playback σ} {t : Token} :
    Loop step start ts b p → p.next step = .ok (.ok t, q) → t.kind ≠ .endOfInput →
      b.take t = .ok b' → Loop step start (ts ++ [t]) b' q

theorem Loop.spine (h : Loop step start ts b p) : Spine ts b := by
  induction h with
  | start => exact .empty
  | turn _ _ _ htake ih => exact ih.take htake

theorem Loop.scan_eq (h : Loop step start ts b p) (fuel : Nat) :
    scan step (ts.length + fuel) {} { source := start } = b.scan step fuel p := by
  induction h generalizing fuel with
  | start => rw [List.length_nil, Nat.zero_add]
  | @turn ts b b' p q t _ hnext hkind htake ih =>
    rw [List.length_append, List.length_singleton, Nat.add_assoc, Nat.add_comm 1 fuel, ih,
      Builder.scan, hnext]
    refine (if_neg hkind).trans ?_
    rw [htake]

variable {source : String} {p : Playback (Feed (Lookahead lookahead))}

theorem Loop.reads (h : Loop Feed.next (.ofString lookahead source) ts b p) :
    ∃ s, p.Follows s ∧ lexemes source = ts.map .ok ++ s.lexemes ∧
      Document.parse source = b.run s.lexemes := by
  induction h with
  | start => exact ⟨_, Playback.follows_ofString source, rfl, rfl⟩
  | @turn ts b b' p q t _ hnext hkind htake ih =>
    obtain ⟨s, hfollows, hlexemes, hparse⟩ := ih
    obtain ⟨r, hr, hfollows', -, -⟩ := hfollows.next
    obtain ⟨htoken, rfl⟩ := Prod.mk.inj (Except.ok.inj (hnext.symm.trans hr))
    have hcons : s.lexemes = .ok t :: s.next.2.lexemes := by
      rw [Reading.lexemes_of_not_isEnd, ← htoken]
      rw [← htoken, Lexeme.isEnd_ok]
      exact hkind
    refine ⟨s.next.2, hfollows', ?_, ?_⟩
    · rw [hlexemes, hcons, List.map_append, List.append_assoc]
      rfl
    · rw [hparse, hcons, run, if_neg hkind, htake]

theorem exists_loop_iff :
    (∃ p, Loop Feed.next (.ofString lookahead source) ts b p) ↔
      ts.map .ok <+: lexemes source ∧ (∀ t ∈ ts, t.kind ≠ .endOfInput) ∧
        ts.foldlM take {} = .ok b := by
  constructor
  · rintro ⟨p, h⟩
    obtain ⟨s, -, hlexemes, -⟩ := h.reads
    refine ⟨⟨_, hlexemes.symm⟩, ?_⟩
    clear hlexemes
    induction h with
    | start => exact ⟨List.forall_mem_nil _, rfl⟩
    | @turn ts b b' _ _ t _ _ hkind htake ih =>
      refine ⟨List.forall_mem_append.2 ⟨ih.1, List.forall_mem_singleton.2 hkind⟩, ?_⟩
      rw [List.foldlM_append, ih.2]
      change (b.take t >>= pure) = .ok b'
      rw [bind_pure, htake]
  · rintro ⟨⟨rest, hlexemes⟩, hkinds, hfold⟩
    induction ts using List.reverseRecOn generalizing b rest with
    | nil =>
      cases hfold
      exact ⟨_, .start⟩
    | append_singleton ts t ih =>
      rw [List.forall_mem_append, List.forall_mem_singleton] at hkinds
      rw [List.foldlM_append] at hfold
      cases hfront : ts.foldlM take {} with
      | error f =>
        rw [hfront] at hfold
        cases hfold
      | ok b₁ =>
        rw [List.map_append, List.append_assoc] at hlexemes
        obtain ⟨p, hloop⟩ := ih _ hlexemes hkinds.1 hfront
        obtain ⟨s, hfollows, hs, -⟩ := hloop.reads
        obtain ⟨q, hq, -, -, -⟩ := hfollows.next
        rw [hs] at hlexemes
        rw [(Reading.lexemes_eq_cons (List.append_cancel_left hlexemes).symm).1] at hq
        refine ⟨q, hloop.turn hq hkinds.2 ?_⟩
        rw [hfront] at hfold
        change (b₁.take t >>= pure) = .ok b at hfold
        rwa [bind_pure] at hfold

theorem Loop.parse_ok_iff (h : Loop Feed.next (.ofString lookahead source) ts b p)
    {q : Playback (Feed (Lookahead lookahead))} {position : Position}
    (hnext : p.next Feed.next = .ok (.ok ⟨.endOfInput, position⟩, q)) :
    (∃ d, Document.parse source = .ok d) ↔ b.opened = [] := by
  obtain ⟨s, hfollows, -, hparse⟩ := h.reads
  obtain ⟨r, hr, -, -, -⟩ := hfollows.next
  obtain ⟨hend, -⟩ := Prod.mk.inj (Except.ok.inj (hnext.symm.trans hr))
  rw [hparse, Reading.lexemes_of_isEnd (by rw [← hend]; rfl), ← hend, run, if_pos rfl]
  exact h.spine.finish_ok_iff position

structure Head (source : String) (ts : List Token) (b : Builder)
    (p : Playback (Feed (Lookahead lookahead))) : Prop where
  spine : Spine ts b
  entries : ∀ tags, Unclosed ts tags → List.Forall₂ b.tree.OpenedBy b.opened tags
  openName? : b.openName? = none ↔ b.opened = []
  finish : ∀ position d, b.finish position = .ok d →
    b.opened = [] ∧ Bracket.Balanced (ts.flatMap Token.brackets)
  accepted : ∀ position q, p.next Feed.next = .ok (.ok ⟨.endOfInput, position⟩, q) →
    ((∃ d, Document.parse source = .ok d) ↔ b.opened = [])
  scan : ∀ fuel, Builder.scan Feed.next (ts.length + fuel) {}
    { source := .ofString lookahead source } = b.scan Feed.next fuel p
  rest : ∃ rest, lexemes source = ts.map .ok ++ rest ∧ Document.parse source = b.run rest

/-- Whenever the next token is asked for, the open elements are the right edge of the tree, and
those of the start tags that have not been closed.  Their names tell whether there are any, and the
input is only accepted where there are none. -/
theorem head_of_loop (h : Loop Feed.next (.ofString lookahead source) ts b p) :
    Head source ts b p where
  spine := h.spine
  entries := by
    intro tags htags
    obtain ⟨tags', htags', hentries⟩ := h.spine.entries
    rw [htags.unique htags']
    exact hentries
  openName? := h.spine.openName?_eq_none_iff
  finish := by
    intro position d hfinish
    have hopened := (h.spine.finish_ok_iff position).1 ⟨d, hfinish⟩
    exact ⟨hopened, h.spine.balanced hopened⟩
  accepted := fun _ _ => h.parse_ok_iff
  scan := h.scan_eq
  rest := by
    obtain ⟨s, -, hlexemes, hparse⟩ := h.reads
    exact ⟨s.lexemes, hlexemes, hparse⟩

theorem head_of_loop_nested : ∃ b p,
    let ts := [⟨.startTag "p" [], ⟨0, 1⟩⟩, ⟨.text "a", ⟨0, 4⟩⟩, ⟨.startTag "b" [], ⟨0, 5⟩⟩]
    Loop Feed.next (.ofString lookahead "<p>a<b>") ts b p ∧ b.opened = [3, 1] ∧
      b.tree.children 1 = [2, 3] ∧ Head "<p>a<b>" ts b p := by
  have hfront : [⟨.startTag "p" [], ⟨0, 1⟩⟩, ⟨.text "a", ⟨0, 4⟩⟩,
      ⟨.startTag "b" [], ⟨0, 5⟩⟩].map .ok <+: lexemes "<p>a<b>" :=
    ⟨[.ok ⟨.endOfInput, ⟨0, 7⟩⟩], by decide +kernel⟩
  obtain ⟨p, hloop⟩ := exists_loop_iff.2 ⟨hfront, by decide, rfl⟩
  exact ⟨_, p, hloop, rfl, rfl, head_of_loop hloop⟩

end Loop

end Document.Builder

end Template
