import Template.Proofs.Groves
import Template.Proofs.Order

namespace Template

def Attribute.expressions (a : Attribute) : List String :=
  match a.kind with
  | .string _ _ mustaches => mustaches
  | .mustache _ expression => [expression]
  | .bool _ => []
  | .variadic expression => [expression]

structure Attribute.Valid (a : Attribute) : Prop where
  key : ∀ key ∈ a.key?, IsName key
  expressions : ∀ e ∈ a.expressions, IsExpression e

section Attributes

namespace Scan

variable {P : List Char → Prop}

theorem gives_embedded (q : Char) : Gives P (embedded q) fun o => ∀ p ∈ o, IsExpression p.2 := by
  refine gives_get fun _ => gives_ite (gives_seq (forward_skip _) fun _ => ?_) (gives_pure nofun)
  refine gives_bind forward_mustacheBody gives_mustacheBody fun e he => gives_pure ?_
  rintro p ⟨⟩
  exact he

theorem gives_quotedValue (q : Char) :
    Gives P (quotedValue q) fun v => ∀ e ∈ v.2, IsExpression e :=
  gives_seq forward_position fun _ => gives_bind (forward_many (forward_embedded q))
    (gives_many (forward_embedded q) (gives_embedded q)) fun _ hpieces =>
      gives_seq (forward_takeBefore _) fun _ => gives_seq forward_read fun _ =>
        gives_seq (forward_require _ _ _) fun _ => gives_pure (List.forall_mem_map.2 hpieces)

theorem gives_expressions_keyed : Gives P keyed fun a => ∀ e ∈ a.expressions, IsExpression e := by
  refine gives_nextPosition fun _ => gives_seq forward_name fun _ => gives_seq forward_peek fun _ =>
    gives_ite (gives_pure (List.forall_mem_nil _)) ?_
  refine gives_seq (forward_skip 1) fun _ => gives_seq forward_read fun _ => ?_
  split
  · exact gives_seq (forward_expect _) fun _ => gives_bind forward_mustacheBody gives_mustacheBody
      fun _ he => gives_pure (List.forall_mem_singleton.2 he)
  · exact gives_bind (forward_quotedValue _) (gives_quotedValue _) fun _ hv => gives_pure hv
  · exact gives_bind (forward_quotedValue _) (gives_quotedValue _) fun _ hv => gives_pure hv
  · exact gives_seq forward_position fun _ => gives_fail _ _

theorem gives_expressions_variadic :
    Gives P variadic fun a => ∀ e ∈ a.expressions, IsExpression e :=
  gives_nextPosition fun _ => gives_seq (forward_skip 1) fun _ => gives_get fun _ =>
    gives_seq (forward_require _ _ _) fun _ => gives_seq (forward_skip 2) fun _ =>
      gives_seq (forward_expect _) fun _ => gives_seq (forward_expect _) fun _ =>
        gives_bind forward_mustacheBody gives_mustacheBody fun _ he =>
          gives_pure (List.forall_mem_singleton.2 he)

end Scan

variable {c d : Cursor}

theorem Attribute.FoundAt.valid {a : Attribute} (h : a.FoundAt c d) (hc : Text.Clean c.rest) :
    a.Valid where
  key := by
    intro key hkey
    have hopens := h.opens
    rw [Attribute.Opens, hkey] at hopens
    exact hopens.1
  expressions := by
    cases h with
    | keyed _ h => exact Scan.gives_expressions_keyed (P := Scan.Anywhere) c hc trivial a d h
    | variadic _ h => exact Scan.gives_expressions_variadic (P := Scan.Anywhere) c hc trivial a d h

theorem Scan.Finds.valid {as : List Attribute} (h : Finds c as d) (hc : Text.Clean c.rest) :
    ∀ a ∈ as, a.Valid := by
  induction h with
  | nil => exact List.forall_mem_nil _
  | @cons c d e f a as hd ha has ih =>
    have hclean := hd.clean hc
    have hbehind := ((d.reaches_skip 1).trans ha.reaches).clean hclean
    exact List.forall_mem_cons.2 ⟨ha.valid hclean, ih hbehind⟩

theorem valid_of_tokens {source : String} {ts : List Token} (h : tokens source = .ok ts) :
    ∀ t ∈ ts, ∀ a ∈ t.attributes, a.Valid := by
  intro t ht
  obtain ⟨us, vs, rfl⟩ := List.append_of_mem ht
  have hlexemes : lexemes source = us.map .ok ++ .ok t :: vs.map .ok := by
    rw [eq_map_of_mapM h, List.map_append, List.map_cons]
  by_cases hnone : t.attributes = []
  · rw [hnone]
    exact List.forall_mem_nil _
  · have hkind : t.kind ≠ .endOfInput := by
      intro hkind
      rw [Token.attributes, hkind] at hnone
      exact hnone rfl
    obtain ⟨s, u, j, k, hscans, -, hstands, -⟩ := exists_step hlexemes hkind
    obtain ⟨e, hfinds, -⟩ := hstands.finds hnone
    have hreaches := (s.cursor.reaches_skip k).trans ((s.cursor.skip k).reaches_skip 1)
    exact hfinds.valid ((hscans.reaches.trans hreaches).clean (Text.clean_normalize _))

end Attributes

namespace Grove

variable {t : Tree} {g g' : Grove} {id i j : NodeId} {as bs : List NodeId}

theorem eq_nil_of_roots (h : g.roots = []) : g = nil := by
  cases g with
  | nil => rfl
  | snoc before id node below => exact absurd h (List.append_ne_nil_of_right_ne_nil _ nofun)

theorem eq_nil_of_toForest (h : g.toForest = .nil) : g = nil := by
  cases g with
  | nil => rfl
  | snoc before id node below => exact absurd h (Forest.append_cons_ne_nil _ _ _ _)

theorem eq_of_toForest_singleton {n : Node} (h : g.toForest = .cons n .nil .nil) :
    ∃ id, g = nil.snoc id n nil := by
  cases g with
  | nil => cases h
  | snoc before id node below =>
    have hconcat : before.toForest ++ .cons node below.toForest .nil =
      .nil ++ .cons n .nil .nil := h
    obtain ⟨hbefore, rfl, hbelow⟩ := Forest.concat_inj hconcat
    rw [eq_nil_of_toForest hbefore, eq_nil_of_toForest hbelow]
    exact ⟨id, rfl⟩

theorem marks_append : (g.append g').marks = g.marks ++ g'.marks := by
  induction g' with
  | nil => simp [append, marks]
  | snoc before id node below ihb _ => simp [append, marks, ihb]

theorem exists_eq_append (h : g.roots = as ++ i :: bs) :
    ∃ before node below after, g = (snoc before i node below).append after ∧
      before.roots = as ∧ after.roots = bs := by
  induction g generalizing bs with
  | nil => exact absurd h.symm (List.append_ne_nil_of_right_ne_nil _ (List.cons_ne_nil _ _))
  | snoc before id node below ih _ =>
    rw [roots] at h
    rcases List.eq_nil_or_concat bs with rfl | ⟨bs, id', rfl⟩
    · obtain ⟨hbefore, hid⟩ := List.append_inj' h rfl
      cases hid
      exact ⟨before, node, below, nil, rfl, hbefore, rfl⟩
    · rw [List.concat_eq_append, ← List.cons_append, ← List.append_assoc] at h
      obtain ⟨hbefore, hid⟩ := List.append_inj' h rfl
      cases hid
      obtain ⟨front, node', below', after, rfl, hfront, hafter⟩ := ih hbefore
      refine ⟨front, node', below', after.snoc id node below, rfl, hfront, ?_⟩
      rw [roots, hafter, List.concat_eq_append]

theorem In.exists_infix (h : g.In t) (hid : id ∈ g.ids) :
    ∃ (node : Node) (below : Grove), t.node? id = some node ∧ t.children id = below.roots ∧
      below.In t ∧ node.entering ++ below.marks ++ node.leaving <:+: g.marks := by
  induction g with
  | nil => cases hid
  | snoc before id' node below ihb ihw =>
    obtain ⟨hbefore, hnode, hkids, hbelow⟩ := h
    have hmine :
        node.entering ++ below.marks ++ node.leaving <:+: (snoc before id' node below).marks :=
      (List.suffix_append _ _).isInfix
    rw [ids, List.mem_append, List.mem_cons] at hid
    rcases hid with hid | rfl | hid
    · obtain ⟨node', below', hnode', hkids', hin, hmarks⟩ := ihb hbefore hid
      exact ⟨node', below', hnode', hkids', hin, hmarks.trans (List.infix_append' [] _ _)⟩
    · exact ⟨node, below, hnode, hkids, hbelow, hmine⟩
    · obtain ⟨node', below', hnode', hkids', hin, hmarks⟩ := ihw hbelow hid
      exact ⟨node', below', hnode', hkids', hin,
        hmarks.trans ((List.infix_append _ _ _).trans hmine)⟩

theorem In.exists_texts (h : g.In t) (hroots : g.roots = as ++ i :: j :: bs) {m n : Node}
    {a b : String} (hm : t.node? i = some m) (hn : t.node? j = some n) (ha : m.kind = .text a)
    (hb : n.kind = .text b) (hleaf : t.children i = []) :
    ∃ us vs, g.marks = us ++ .text a m.position :: .text b n.position :: vs := by
  obtain ⟨before, m', below, after, rfl, -, hafter⟩ := exists_eq_append hroots
  rw [← List.nil_append (j :: bs)] at hafter
  obtain ⟨none, n', below', after, rfl, hnone, -⟩ := exists_eq_append hafter
  cases eq_nil_of_roots hnone
  obtain ⟨⟨-, hm', hkids, -⟩, hin⟩ := in_append.1 h
  obtain ⟨⟨-, hn', -⟩, -⟩ := in_append.1 hin
  rw [hm] at hm'
  rw [hn] at hn'
  cases hm'
  cases hn'
  cases eq_nil_of_roots (hkids.symm.trans hleaf)
  refine ⟨before.marks, below'.marks ++ n.leaving ++ after.marks, ?_⟩
  simp [marks_append, marks, Node.entering, Node.leaving, ha, hb]

end Grove

namespace Token

variable {ts : List Token} {us vs : List Mark} {data : String} {p : Position}

theorem eq_of_mem_marks {t : Token} (h : .text data p ∈ t.marks) : t = ⟨.text data, p⟩ := by
  obtain ⟨kind, q⟩ := t
  cases kind <;> simp [marks] at h
  obtain ⟨rfl, rfl⟩ := h
  rfl

theorem attributes_of_mem_marks {t : Token} {name : String} {attributes : List Attribute}
    (h : .opening name attributes p ∈ t.marks) : t.attributes = attributes := by
  obtain ⟨kind, q⟩ := t
  cases kind <;> simp [marks] at h
  · exact h.2.1.symm
  · exact h.2.1.symm

theorem exists_of_marks (h : ts.flatMap marks = us ++ .text data p :: vs) :
    ∃ front rest, ts = front ++ ⟨.text data, p⟩ :: rest ∧ front.flatMap marks = us ∧
      rest.flatMap marks = vs := by
  induction ts generalizing us with
  | nil => exact absurd h.symm (List.append_ne_nil_of_right_ne_nil _ (List.cons_ne_nil _ _))
  | cons t ts ih =>
    rw [List.flatMap_cons] at h
    have hbehind : ∀ {us'}, us = t.marks ++ us' → ∃ front rest,
        t :: ts = front ++ ⟨.text data, p⟩ :: rest ∧ front.flatMap marks = us ∧
          rest.flatMap marks = vs := by
      rintro us' rfl
      rw [List.append_assoc, List.append_cancel_left_eq] at h
      obtain ⟨front, rest, rfl, rfl, rfl⟩ := ih h
      exact ⟨t :: front, rest, rfl, List.flatMap_cons, rfl⟩
    rcases List.append_eq_append_iff.1 h with ⟨us', hus, -⟩ | ⟨ms, hms, htext⟩
    · exact hbehind hus
    · cases ms with
      | nil =>
        rw [List.append_nil] at hms
        exact hbehind (hms.symm.trans (List.append_nil _).symm)
      | cons m ms =>
        obtain ⟨rfl, hvs⟩ := List.cons.inj htext
        have ht := eq_of_mem_marks (hms ▸ List.mem_append_right us List.mem_cons_self)
        rw [ht] at hms
        cases us with
        | nil =>
          cases hms
          exact ⟨[], ts, by rw [ht]; rfl, rfl, hvs.symm⟩
        | cons u us =>
          exact absurd (List.cons.inj hms).2.symm
            (List.append_ne_nil_of_right_ne_nil _ (List.cons_ne_nil _ _))

theorem kind_of_marks_eq_nil {t : Token} (h : t.marks = []) :
    t.kind = .endOfInput ∨ ∃ data, t.kind = .comment data := by
  obtain ⟨kind, p⟩ := t
  cases kind with
  | endOfInput => exact .inl rfl
  | comment data => exact .inr ⟨data, rfl⟩
  | _ => cases h

theorem FoundAt.kind_ne_text {t : Token} {c d : Cursor} (h : t.FoundAt c d) (data : String) :
    t.kind ≠ .text data := by
  cases h with
  | @startTag name attributes =>
    cases hvoid : Element.isVoid name <;> simp [Scan.tagKind, hvoid]
  | _ => exact Token.Kind.noConfusion

end Token

namespace Reading

variable {s u : Reading} {ls : List Lexeme} {a b : String} {p q : Position}

theorem Scans.isEnd_of_mem (h : Scans s ls u) : ∀ l ∈ ls, l.isEnd = false := by
  induction h with
  | nil s => exact List.forall_mem_nil _
  | cons _ hend _ ih => exact List.forall_mem_cons.2 ⟨hend, ih⟩

theorem opens_of_markup {c d : Cursor} (h : Scan.markup c = .ok ⟨.text a, p⟩ d) :
    d.rest = [] ∨ Scan.opens d.rest = true := by
  cases Scan.markup_eq_ok h with
  | text htext => exact Text.drop_before Scan.opens c.rest
  | construct _ hfound => exact absurd rfl (hfound.kind_ne_text a)

theorem next_ne_text {c : Cursor} (h : c.rest = [] ∨ Scan.opens c.rest = true) :
    (next ⟨.markup, c⟩).1 ≠ .ok ⟨.text b, q⟩ := by
  intro hnext
  have hmarkup := (next_markup (Prod.ext hnext rfl)).1
  generalize (next ⟨.markup, c⟩).2.cursor = d at hmarkup
  cases Scan.markup_eq_ok hmarkup with
  | text htext =>
    rw [Scan.before_opens_eq_nil h] at htext
    cases htext
  | construct _ hfound => exact hfound.kind_ne_text b rfl

theorem next_ne_text_of_text (h : s.next = (.ok ⟨.text a, p⟩, u)) :
    u.next.1 ≠ .ok ⟨.text b, q⟩ := by
  obtain ⟨mode, c⟩ := s
  obtain ⟨mode', d⟩ := u
  cases mode with
  | markup =>
    obtain ⟨hmarkup, hmode⟩ := next_markup h
    cases hmode
    exact next_ne_text (opens_of_markup hmarkup)
  | rawText name =>
    rcases next_rawText h with ⟨hkind, -⟩ | ⟨b, -, -, hmode, hclose⟩
    · cases hkind
    · cases hmode
      rw [next_of_isPrefixOf hclose]
      intro hok
      cases hok

end Reading

/-- The token is a comment that stands in the text between the two positions. -/
structure Token.Separates (t : Token) (text : List Char) (p q : Position) : Prop where
  behind : p < t.position
  before : t.position < q
  comment : ∃ data k, t.kind = .comment data ∧ CharAt text k t.position ∧
    ['<', '!', '-', '-'] ++ data.toList <+: text.drop k

section Separation

variable {source : String} {us vs ws : List Token} {a b : String} {p q : Position}

theorem ne_nil_of_texts
    (h : tokens source = .ok (us ++ ⟨.text a, p⟩ :: (vs ++ ⟨.text b, q⟩ :: ws))) : vs ≠ [] := by
  rintro rfl
  have hlexemes := eq_map_of_mapM h
  rw [List.map_append, List.map_cons] at hlexemes
  obtain ⟨s, -, hs⟩ := Reading.exists_scans hlexemes (List.cons_ne_nil _ _)
  obtain ⟨hnext, hrest⟩ := Reading.lexemes_eq_cons hs
  exact Reading.next_ne_text_of_text (Prod.ext hnext rfl)
    (Reading.lexemes_eq_cons (hrest rfl)).1

theorem kind_ne_of_mem
    (h : tokens source = .ok (us ++ ⟨.text a, p⟩ :: (vs ++ ⟨.text b, q⟩ :: ws))) :
    ∀ t ∈ vs, t.kind ≠ .endOfInput := by
  have hlexemes : lexemes source =
      (us ++ ⟨.text a, p⟩ :: vs).map .ok ++ .ok ⟨.text b, q⟩ :: ws.map .ok := by
    rw [eq_map_of_mapM h]
    simp
  obtain ⟨s, hscans, -⟩ := Reading.exists_scans hlexemes (List.cons_ne_nil _ _)
  intro t ht hkind
  have hmem : (.ok t : Lexeme) ∈ (us ++ ⟨.text a, p⟩ :: vs).map .ok :=
    List.mem_map_of_mem (List.mem_append_right us (List.mem_cons_of_mem _ ht))
  have hend := hscans.isEnd_of_mem _ hmem
  obtain ⟨kind, r⟩ := t
  cases hkind
  cases hend

theorem between_of_comment
    (h : tokens source = .ok (us ++ ⟨.text a, p⟩ :: (vs ++ ⟨.text b, q⟩ :: ws))) {t : Token}
    (ht : t ∈ vs) {data : String} (hdata : t.kind = .comment data) :
    p < t.position ∧ t.position < q := by
  have hincreasing := ((Reading.ofString source).increasing_tokens).1
  rw [show (Reading.ofString source).lexemes = _ from eq_map_of_mapM h] at hincreasing
  have hsub : List.Sublist [⟨.text a, p⟩, t, ⟨.text b, q⟩]
      (us ++ ⟨.text a, p⟩ :: (vs ++ ⟨.text b, q⟩ :: ws)) := by
    refine (List.Sublist.cons_cons _ ?_).trans (List.sublist_append_right us _)
    exact (List.singleton_sublist.2 ht).append ((List.nil_sublist ws).cons_cons _)
  obtain ⟨kind, r⟩ := t
  cases hdata
  have hthree : ([⟨.text a, p⟩, ⟨.comment data, r⟩, ⟨.text b, q⟩] : List Token).Pairwise
      (fun t u => t.position < u.position) := by
    exact hincreasing.sublist ((hsub.map (Except.ok : Token → Lexeme)).filterMap Lexeme.token?)
  obtain ⟨hfirst, hsecond⟩ := List.pairwise_cons.1 hthree
  exact ⟨hfirst _ List.mem_cons_self, (List.pairwise_cons.1 hsecond).1 _ List.mem_cons_self⟩

theorem separates_of_marks
    (h : tokens source = .ok (us ++ ⟨.text a, p⟩ :: (vs ++ ⟨.text b, q⟩ :: ws))) {t : Token}
    (ht : t ∈ vs) (hmarks : t.marks = []) : t.Separates (Text.normalize source.toList) p q := by
  have hkind := kind_ne_of_mem h t ht
  obtain ⟨data, hdata⟩ := (Token.kind_of_marks_eq_nil hmarks).resolve_left hkind
  obtain ⟨hbehind, hbefore⟩ := between_of_comment h ht hdata
  obtain ⟨front, back, rfl⟩ := List.append_of_mem ht
  have hlexemes : lexemes source = (us ++ ⟨.text a, p⟩ :: front).map .ok ++
      .ok t :: (back ++ ⟨.text b, q⟩ :: ws).map .ok := by
    rw [eq_map_of_mapM h]
    simp
  obtain ⟨s, j, k, -, hs, hchar, hopens⟩ := opened_of_lexemes hlexemes hkind
  refine ⟨hbehind, hbefore, data, j + k, hdata, hchar, ?_⟩
  rwa [hdata, Token.Kind.OpensAt, hs, List.drop_drop] at hopens

end Separation

structure Document.Valid (source : String) (d : Document) : Prop where
  root : (d.tree.node? Tree.root).map Node.kind = some .unset
  unset : ∀ {id n}, d.tree.node? id = some n → n.kind = .unset → id = Tree.root
  text : ∀ {id n data}, d.tree.node? id = some n → n.kind = .text data →
    data ≠ "" ∧ d.tree.children id = []
  mustache : ∀ {id n expression}, d.tree.node? id = some n → n.kind = .mustache expression →
    IsExpression expression ∧ d.tree.children id = []
  element : ∀ {id n name attributes}, d.tree.node? id = some n →
    n.kind = .element name attributes → IsName name ∧ ∀ a ∈ attributes, a.Valid
  void : ∀ {id n name attributes}, d.tree.node? id = some n →
    n.kind = .element name attributes → Element.isVoid name = true → d.tree.children id = []
  rawText : ∀ {id n name attributes}, d.tree.node? id = some n →
    n.kind = .element name attributes → Element.isRawText name = true →
      d.tree.children id = [] ∨ ∃ child m body, d.tree.children id = [child] ∧
        d.tree.node? child = some m ∧ m.kind = .text body ∧ IsBody name body
  texts : ∀ {id i j m n a b before after}, d.tree.children id = before ++ i :: j :: after →
    d.tree.node? i = some m → d.tree.node? j = some n → m.kind = .text a → n.kind = .text b →
      ∃ us vs ws, tokens source =
          .ok (us ++ ⟨.text a, m.position⟩ :: (vs ++ ⟨.text b, n.position⟩ :: ws)) ∧ vs ≠ [] ∧
        ∀ t ∈ vs, t.Separates (Text.normalize source.toList) m.position n.position

theorem Tree.children_of_node?_eq_none {t : Tree} {id : NodeId} (h : t.node? id = none) :
    t.children id = [] := by
  have hfirst : t.firstChild? id = none := by
    rw [firstChild?, Option.map_eq_none_iff.1 h]
    rfl
  rw [children, hfirst]
  cases t.size <;> rfl

namespace Document

section

variable {source : String} {d : Document} {g : Grove} {id : NodeId} {n : Node}

theorem Standing.eq_root_or_mem (h : d.Standing g) (hn : d.tree.node? id = some n) :
    id = Tree.root ∨ id ∈ g.ids := by
  rw [← List.mem_cons, h.numbered, List.mem_range]
  exact Tree.lt_size_of_node? hn

theorem Standing.mem_ids_of_node? (h : d.Standing g) (hn : d.tree.node? id = some n)
    (hkind : n.kind ≠ .unset) : id ∈ g.ids := by
  refine (h.eq_root_or_mem hn).resolve_left ?_
  rintro rfl
  rw [h.rooted] at hn
  cases hn
  exact hkind rfl

theorem Standing.exists_below (h : d.Standing g) (hid : id ∈ g.ids)
    (hn : d.tree.node? id = some n) : ∃ below : Grove, d.tree.children id = below.roots ∧
      below.In d.tree ∧ (Forest.cons n below.toForest .nil).Sound := by
  obtain ⟨node, below, ⟨-, hnode, hkids, hin⟩, hsound, -⟩ := h.standing.exists_part h.sound hid
  rw [hn] at hnode
  cases hnode
  exact ⟨below, hkids, hin, hsound⟩

theorem Standing.sound_entering (h : d.Standing g) (hid : id ∈ g.ids)
    (hn : d.tree.node? id = some n) : ∀ m ∈ n.entering, m.Sound := by
  obtain ⟨below, -, -, -, hsound, -⟩ := h.exists_below hid hn
  exact hsound

theorem Standing.children_eq_nil (h : d.Standing g) (hid : id ∈ g.ids)
    (hn : d.tree.node? id = some n) (hbelow : ∀ below, n.Holds below → below = .nil) :
    d.tree.children id = [] := by
  obtain ⟨below, hkids, -, -, -, hholds, -⟩ := h.exists_below hid hn
  rw [hkids, Grove.eq_nil_of_toForest (hbelow _ hholds)]
  rfl

theorem Standing.leaf_of_text (h : d.Standing g) {data : String}
    (hn : d.tree.node? id = some n) (hkind : n.kind = .text data) : d.tree.children id = [] := by
  refine h.children_eq_nil (h.mem_ids_of_node? hn (by simp [hkind])) hn ?_
  intro below hholds
  rwa [Node.Holds, hkind] at hholds

theorem Standing.children_rawText (h : d.Standing g) (hid : id ∈ g.ids)
    (hn : d.tree.node? id = some n) {name : String} {attributes : List Attribute}
    (hkind : n.kind = .element name attributes) (hraw : Element.isRawText name = true) :
    d.tree.children id = [] ∨ ∃ child m body, d.tree.children id = [child] ∧
      d.tree.node? child = some m ∧ m.kind = .text body ∧ IsBody name body := by
  obtain ⟨below, hkids, hin, -, -, hholds, -⟩ := h.exists_below hid hn
  rw [Node.Holds, hkind] at hholds
  have hbody := hholds.2 hraw
  generalize hforest : below.toForest = f at hbody
  cases hbody with
  | nil =>
    rw [hkids, Grove.eq_nil_of_toForest hforest]
    exact .inl rfl
  | @text b p hb =>
    obtain ⟨child, rfl⟩ := Grove.eq_of_toForest_singleton hforest
    exact .inr ⟨child, _, b, hkids, hin.2.1, rfl, hb⟩

theorem Standing.attributes_valid (h : d.Standing g) {ts : List Token}
    (htokens : tokens source = .ok ts) (hmarks : g.marks = ts.flatMap Token.marks)
    (hid : id ∈ g.ids) (hn : d.tree.node? id = some n) {name : String}
    {attributes : List Attribute} (hkind : n.kind = .element name attributes) :
    ∀ a ∈ attributes, a.Valid := by
  obtain ⟨node, below, hnode, -, -, hinfix⟩ := h.standing.exists_infix hid
  rw [hn] at hnode
  cases hnode
  have hmem : Mark.opening name attributes n.position ∈ g.marks := by
    refine hinfix.subset (List.mem_append_left _ (List.mem_append_left _ ?_))
    rw [Node.entering, hkind]
    exact List.mem_cons_self
  rw [hmarks, List.mem_flatMap] at hmem
  obtain ⟨t, ht, hmem⟩ := hmem
  rw [← Token.attributes_of_mem_marks hmem]
  exact valid_of_tokens htokens t ht

theorem Standing.exists_kids (h : d.Standing g) (hkids : d.tree.children id ≠ []) :
    ∃ below : Grove, d.tree.children id = below.roots ∧ below.In d.tree ∧
      below.marks <:+: g.marks := by
  cases hn : d.tree.node? id with
  | none => exact absurd (Tree.children_of_node?_eq_none hn) hkids
  | some n =>
    rcases h.eq_root_or_mem hn with rfl | hid
    · exact ⟨g, h.roots, h.standing, List.infix_rfl⟩
    · obtain ⟨node, below, -, hkids, hin, hinfix⟩ := h.standing.exists_infix hid
      exact ⟨below, hkids, hin, (List.infix_append _ _ _).trans hinfix⟩

theorem Standing.separated (h : d.Standing g) {ts : List Token}
    (htokens : tokens source = .ok ts) (hmarks : g.marks = ts.flatMap Token.marks)
    {i j : NodeId} {m n : Node} {a b : String} {before after : List NodeId}
    (hkids : d.tree.children id = before ++ i :: j :: after) (hm : d.tree.node? i = some m)
    (hn : d.tree.node? j = some n) (ha : m.kind = .text a) (hb : n.kind = .text b) :
    ∃ us vs ws, tokens source =
        .ok (us ++ ⟨.text a, m.position⟩ :: (vs ++ ⟨.text b, n.position⟩ :: ws)) ∧ vs ≠ [] ∧
      ∀ t ∈ vs, t.Separates (Text.normalize source.toList) m.position n.position := by
  have hne : d.tree.children id ≠ [] := by
    rw [hkids]
    exact List.append_ne_nil_of_right_ne_nil _ (List.cons_ne_nil _ _)
  obtain ⟨below, hroots, hin, u, v, hinfix⟩ := h.exists_kids hne
  obtain ⟨us, vs, htexts⟩ :=
    hin.exists_texts (hroots.symm.trans hkids) hm hn ha hb (h.leaf_of_text hm ha)
  rw [hmarks, htexts, List.append_assoc, List.append_assoc, ← List.append_assoc u] at hinfix
  obtain ⟨front, rest, rfl, -, hrest⟩ := Token.exists_of_marks hinfix.symm
  change rest.flatMap Token.marks = [] ++ .text b n.position :: (vs ++ v) at hrest
  obtain ⟨mid, back, rfl, hmid, -⟩ := Token.exists_of_marks hrest
  refine ⟨front, mid, back, htokens, ne_nil_of_texts htokens, ?_⟩
  intro t ht
  exact separates_of_marks htokens ht (List.flatMap_eq_nil_iff.1 hmid t ht)

end

theorem valid_of_parse {source : String} {d : Document} (h : parse source = .ok d) :
    d.Valid source := by
  obtain ⟨g, ts, hstanding, htokens, hmarks⟩ := exists_standing h
  constructor
  case root =>
    rw [hstanding.rooted]
    rfl
  case unset =>
    intro id n hn hkind
    refine (hstanding.eq_root_or_mem hn).resolve_right fun hid => ?_
    obtain ⟨below, -, -, hproper, -⟩ := hstanding.exists_below hid hn
    rwa [Node.Proper, hkind] at hproper
  case text =>
    intro id n data hn hkind
    have hsound := hstanding.sound_entering (hstanding.mem_ids_of_node? hn (by simp [hkind])) hn
    rw [Node.entering, hkind, List.forall_mem_singleton] at hsound
    refine ⟨?_, hstanding.leaf_of_text hn hkind⟩
    rintro rfl
    exact hsound rfl
  case mustache =>
    intro id n e hn hkind
    have hid := hstanding.mem_ids_of_node? hn (by simp [hkind])
    have hsound := hstanding.sound_entering hid hn
    rw [Node.entering, hkind, List.forall_mem_singleton] at hsound
    refine ⟨hsound, hstanding.children_eq_nil hid hn fun below hholds => ?_⟩
    rwa [Node.Holds, hkind] at hholds
  case element =>
    intro id n name attributes hn hkind
    have hid := hstanding.mem_ids_of_node? hn (by simp [hkind])
    have hsound := hstanding.sound_entering hid hn
    rw [Node.entering, hkind, List.forall_mem_singleton] at hsound
    exact ⟨hsound.1, hstanding.attributes_valid htokens hmarks hid hn hkind⟩
  case void =>
    intro id n name attributes hn hkind hvoid
    have hid := hstanding.mem_ids_of_node? hn (by simp [hkind])
    refine hstanding.children_eq_nil hid hn fun below hholds => ?_
    rw [Node.Holds, hkind] at hholds
    exact hholds.1 hvoid
  case rawText =>
    intro id n name attributes hn hkind hraw
    have hid := hstanding.mem_ids_of_node? hn (by simp [hkind])
    exact hstanding.children_rawText hid hn hkind hraw
  case texts => exact hstanding.separated htokens hmarks

theorem valid_of_parse_comment :
    ∃ d, parse "<p a=\"\x7b\x7bx\x7d\x7d\">b<!-- -->c</p><title>\x7b\x7b</title><br>" = .ok d ∧
      d.Valid "<p a=\"\x7b\x7bx\x7d\x7d\">b<!-- -->c</p><title>\x7b\x7b</title><br>" := by
  have hok : (parse
      "<p a=\"\x7b\x7bx\x7d\x7d\">b<!-- -->c</p><title>\x7b\x7b</title><br>").isOk = true := by
    decide +kernel
  cases hd : parse "<p a=\"\x7b\x7bx\x7d\x7d\">b<!-- -->c</p><title>\x7b\x7b</title><br>" with
  | error f =>
    rw [hd] at hok
    cases hok
  | ok d => exact ⟨d, rfl, valid_of_parse hd⟩

end Document

end Template
