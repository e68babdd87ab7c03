import Template.Proofs.Finding
import Template.Proofs.Normal

namespace Template

namespace Position

instance : LE Position where
  le p q := p.line < q.line ∨ p.line = q.line ∧ p.column ≤ q.column

instance : LT Position where
  lt p q := p.line < q.line ∨ p.line = q.line ∧ p.column < q.column

variable {p q : Position}

theorem le_iff : p ≤ q ↔ p.line < q.line ∨ p.line = q.line ∧ p.column ≤ q.column := Iff.rfl

theorem lt_iff : p < q ↔ p.line < q.line ∨ p.line = q.line ∧ p.column < q.column := Iff.rfl

instance : Preorder Position where
  le_refl p := .inr ⟨rfl, Nat.le_refl _⟩
  le_trans p q r := by
    simp only [le_iff]
    omega
  lt_iff_le_not_ge p q := by
    simp only [le_iff, lt_iff]
    omega

theorem lt_advance (p : Position) (c : Char) : p < p.advance c := by
  rw [advance, lt_iff]
  split
  · exact .inl (Nat.lt_succ_self _)
  · exact .inr ⟨rfl, Nat.lt_succ_self _⟩

theorem le_after (p : Position) (cs : List Char) : p ≤ p.after cs := by
  induction cs generalizing p with
  | nil => exact le_refl p
  | cons c cs ih => exact (p.lt_advance c).le.trans (ih (p.advance c))

end Position

namespace Cursor

variable {c d : Cursor}

theorem Reaches.position_le (h : c.Reaches d) : c.position ≤ d.position := by
  obtain ⟨n, rfl⟩ := h
  exact Position.le_after _ _

theorem position_lt_nextPosition (h : c.rest ≠ []) : c.position < c.nextPosition := by
  obtain ⟨x, xs, hx⟩ := List.exists_cons_of_ne_nil h
  rw [nextPosition, skip, hx]
  exact Position.lt_advance c.position x

end Cursor

namespace Scan

variable {α β : Type} {low high : Position}

def Blames (low high : Position) (x : Scan α) : Prop :=
  ∀ c e d, high ≤ c.position → x c = .error e d → low ≤ e.position ∧ e.position ≤ d.position

theorem blames_total {x : Scan α} (h : ∀ c, ∃ a d, x c = .ok a d) : Blames low high x := by
  intro c e d _ he
  obtain ⟨a, d', ha⟩ := h c
  rw [ha] at he
  cases he

theorem blames_pure (a : α) : Blames low high (pure a) := blames_total fun _ => ⟨_, _, rfl⟩

theorem blames_fail {p : Position} (hlow : low ≤ p) (hhigh : p ≤ high)
    (cause : SyntaxError.Cause) : Blames low high (fail cause p : Scan α) := by
  intro c e d hc he
  cases he
  exact ⟨hlow, hhigh.trans hc⟩

theorem blames_bind {x : Scan α} {f : α → Scan β} (hforward : Forward x)
    (hx : Blames low high x) (hf : ∀ a, Blames low high (f a)) : Blames low high (x >>= f) := by
  intro c e d hc he
  rcases bind_eq_error.1 he with he | ⟨a, d', ha, he⟩
  · exact hx c e d hc he
  · exact hf a d' e d (hc.trans (hforward.ok ha).position_le) he

theorem blames_seq {x : Scan α} {f : α → Scan β} (hforward : Forward x)
    (hx : ∀ c, ∃ a d, x c = .ok a d) (hf : ∀ a, Blames low high (f a)) :
    Blames low high (x >>= f) :=
  blames_bind hforward (blames_total hx) hf

theorem blames_position {f : Position → Scan β} (hf : ∀ p, high ≤ p → Blames low p (f p)) :
    Blames low high (position >>= f) :=
  fun c e d hc he => hf c.position hc c e d (le_refl _) he

theorem blames_map {f : α → β} {x : Scan α} (hx : Blames low high x) :
    Blames low high (f <$> x) := by
  intro c e d hc he
  rw [map_apply] at he
  split at he
  · cases he
  · cases he
    exact hx c _ _ hc ‹_›

theorem blames_ite {p : Prop} [Decidable p] {x y : Scan α} (hx : Blames low high x)
    (hy : Blames low high y) : Blames low high (if p then x else y) := by
  split
  · exact hx
  · exact hy

theorem blames_get {f : Cursor → Scan α} (hf : ∀ c, Blames low high (f c)) :
    Blames low high (get >>= f) := fun c e d hc he => hf c c e d hc he

theorem blames_many {item : Scan (Option α)} (hforward : Forward item)
    (hitem : Blames low high item) : Blames low high (many item) := by
  intro c e d hc he
  fun_induction many item c with
  | case1 c e' d' hi =>
    cases he
    exact hitem c _ _ hc hi
  | case2 c d' hi => cases he
  | case3 c a d' hi hlt e' d'' hm ih =>
    cases he
    exact ih (hc.trans (hforward.ok hi).position_le) hm
  | case4 c a d' hi hlt as d'' hm ih => cases he
  | case5 c a d' hi hlt => cases he

theorem blames_require {p : Position} (hlow : low ≤ p) (hhigh : p ≤ high) (q : Prop)
    [Decidable q] (cause : SyntaxError.Cause) : Blames low high (require q cause p) :=
  blames_ite (blames_pure _) (blames_fail hlow hhigh cause)

section

variable (h : low ≤ high)
include h

theorem blames_expect (c : Char) : Blames low high (expect c) :=
  blames_seq forward_read (fun _ => ⟨_, _, rfl⟩) fun _ => blames_position fun _ hp =>
    blames_require (h.trans hp) (le_refl _) _ _

theorem blames_mustacheBody : Blames low high mustacheBody := by
  refine blames_position fun opened hopened =>
    blames_seq (forward_takeBefore _) (fun _ => ⟨_, _, rfl⟩) fun body =>
      blames_seq forward_read (fun _ => ⟨_, _, rfl⟩) fun found => ?_
  split
  · exact blames_seq (forward_skip 1) (fun _ => ⟨_, _, rfl⟩) fun _ =>
      blames_position fun p hp => blames_bind (forward_require _ _ _)
        (blames_require ((h.trans hopened).trans hp) (le_refl _) _ _) fun _ => blames_pure _
  · exact blames_fail (h.trans hopened) (le_refl _) _

theorem blames_embedded (q : Char) : Blames low high (embedded q) :=
  blames_get fun _ => blames_ite
    (blames_seq (forward_skip _) (fun _ => ⟨_, _, rfl⟩) fun _ =>
      blames_bind forward_mustacheBody (blames_mustacheBody h) fun _ => blames_pure _)
    (blames_pure _)

theorem blames_quotedValue (q : Char) : Blames low high (quotedValue q) :=
  blames_position fun _ hopened => blames_bind (forward_many (forward_embedded q))
    (blames_many (forward_embedded q) (blames_embedded (h.trans hopened) q)) fun _ =>
      blames_seq (forward_takeBefore _) (fun _ => ⟨_, _, rfl⟩) fun _ =>
        blames_seq forward_read (fun _ => ⟨_, _, rfl⟩) fun _ =>
          blames_bind (forward_require _ _ _)
            (blames_require (h.trans hopened) (le_refl _) _ _) fun _ => blames_pure _

theorem blames_keyed : Blames low high keyed := by
  refine blames_seq forward_nextPosition (fun _ => ⟨_, _, rfl⟩) fun start =>
    blames_seq forward_name (fun _ => ⟨_, _, rfl⟩) fun key =>
      blames_seq forward_peek (fun _ => ⟨_, _, rfl⟩) fun found =>
        blames_ite (blames_pure _) ?_
  refine blames_seq (forward_skip 1) (fun _ => ⟨_, _, rfl⟩) fun _ =>
    blames_seq forward_read (fun _ => ⟨_, _, rfl⟩) fun found => ?_
  split
  · exact blames_bind (forward_expect _) (blames_expect h _) fun _ =>
      blames_bind forward_mustacheBody (blames_mustacheBody h) fun _ => blames_pure _
  · exact blames_bind (forward_quotedValue _) (blames_quotedValue h _) fun _ => blames_pure _
  · exact blames_bind (forward_quotedValue _) (blames_quotedValue h _) fun _ => blames_pure _
  · exact blames_position fun p hp => blames_fail (h.trans hp) (le_refl _) _

theorem blames_variadic : Blames low high variadic := by
  intro c e d hc he
  have hnext : c.position ≤ c.nextPosition := (c.reaches_skip 1).position_le
  have hlow := h.trans (hc.trans hnext)
  have hblames : Blames low c.nextPosition (do
      require (['.', '.'].isPrefixOf (← get).rest) (.unexpected (some '.')) c.nextPosition
      skip 2
      expect '{'
      expect '{'
      return (⟨.variadic (← mustacheBody), c.nextPosition⟩ : Attribute)) :=
    blames_get fun _ => blames_bind (forward_require _ _ _)
      (blames_require hlow (le_refl _) _ _) fun _ =>
        blames_seq (forward_skip 2) (fun _ => ⟨_, _, rfl⟩) fun _ =>
          blames_bind (forward_expect _) (blames_expect hlow _) fun _ =>
            blames_bind (forward_expect _) (blames_expect hlow _) fun _ =>
              blames_bind forward_mustacheBody (blames_mustacheBody hlow) fun _ => blames_pure _
  rw [variadic, bind_of_ok (nextPosition_apply c), bind_of_ok (skip_apply 1 c)] at he
  exact hblames _ e d (le_refl _) he

theorem blames_attribute? : Blames low high attribute? := by
  refine blames_seq (forward_takeWhile _) (fun _ => ⟨_, _, rfl⟩) fun _ =>
    blames_seq forward_peek (fun _ => ⟨_, _, rfl⟩) fun found => ?_
  split
  · exact blames_pure _
  · exact blames_pure _
  · exact blames_pure _
  · exact blames_map (blames_variadic h)
  · exact blames_ite (blames_map (blames_keyed h))
      (blames_seq (forward_skip 1) (fun _ => ⟨_, _, rfl⟩) fun _ =>
        blames_position fun p hp => blames_fail (h.trans hp) (le_refl _) _)

theorem blames_attributes : Blames low high attributes :=
  blames_seq forward_peek (fun _ => ⟨_, _, rfl⟩) fun _ =>
    blames_ite (blames_many forward_attribute? (blames_attribute? h)) (blames_pure _)

theorem blames_startTag (start : Position) : Blames low high (startTag start) := by
  refine blames_seq forward_name (fun _ => ⟨_, _, rfl⟩) fun name =>
    blames_bind forward_attributes (blames_attributes h) fun attributes =>
      blames_seq forward_read (fun _ => ⟨_, _, rfl⟩) fun found => ?_
  split
  · exact blames_pure _
  · exact blames_position fun slash hslash =>
      blames_seq forward_peek (fun _ => ⟨_, _, rfl⟩) fun found =>
        blames_bind (forward_require _ _ _) (blames_require (h.trans hslash) (le_refl _) _ _)
          fun _ => blames_seq (forward_skip 1) (fun _ => ⟨_, _, rfl⟩) fun _ => blames_pure _
  · exact blames_position fun p hp => blames_fail (h.trans hp) (le_refl _) _

end

theorem blames_body (opening : Opening) {start : Position} (h : low ≤ start) :
    Blames low start (body opening start) := by
  cases opening with
  | endTag =>
    exact blames_seq forward_name (fun _ => ⟨_, _, rfl⟩) fun _ =>
      blames_bind (forward_expect _) (blames_expect h _) fun _ =>
        blames_bind (forward_require _ _ _) (blames_require h (le_refl _) _ _)
          fun _ => blames_pure _
  | comment => exact blames_total fun _ => ⟨_, _, rfl⟩
  | startTag => exact blames_startTag h start
  | mustache => exact blames_bind forward_mustacheBody (blames_mustacheBody h) fun _ => blames_pure _

theorem blames_markup (c : Cursor) {e : SyntaxError} {d : Cursor} (h : markup c = .error e d) :
    c.position ≤ e.position ∧ e.position ≤ d.position := by
  rw [markup_apply] at h
  split at h
  · cases h
  · rw [construct_apply] at h
    have hrun := (c.reaches_skip (Text.before opens c.rest).length).position_le
    generalize c.skip (Text.before opens c.rest).length = c' at h hrun
    split at h
    · cases h
    · rename_i opening _
      have hstart := hrun.trans (c'.reaches_skip 1).position_le
      exact blames_body opening hstart _ e d
        (c'.reaches_skip_skip opening.width_pos).position_le h

theorem blames_rawText {name : String} (c : Cursor) {e : SyntaxError} {d : Cursor}
    (h : rawText name c = .error e d) : c.position ≤ e.position ∧ e.position ≤ d.position := by
  rw [rawText_apply] at h
  simp only at h
  split at h
  · split at h <;> cases h
  · cases h
    exact ⟨(c.reaches_skip _).position_le, le_refl _⟩

end Scan

namespace Scan.Finds

variable {c d : Cursor} {as : List Attribute}

theorem between (h : Finds c as d) :
    (as.map Attribute.position).Pairwise (· < ·) ∧
      ∀ a ∈ as, c.position < a.position ∧ a.position ≤ d.position := by
  induction h with
  | nil => exact ⟨.nil, List.forall_mem_nil _⟩
  | @cons c d e f a as hd ha has ih =>
    obtain ⟨hincreasing, hbetween⟩ := ih
    have hstart : c.position < a.position := by
      rw [ha.position_eq]
      exact hd.position_le.trans_lt (Cursor.position_lt_nextPosition ha.rest_ne_nil)
    have hstop : a.position ≤ e.position := by
      rw [ha.position_eq]
      exact ha.reaches.position_le
    rw [List.map_cons, List.pairwise_cons, List.forall_mem_map, List.forall_mem_cons]
    refine ⟨⟨?_, hincreasing⟩, ⟨hstart, hstop.trans has.reaches.position_le⟩, ?_⟩
    · intro b hb
      exact hstop.trans_lt (hbetween b hb).1
    · intro b hb
      exact ⟨(hstart.trans_le hstop).trans (hbetween b hb).1, (hbetween b hb).2⟩

theorem exists_foundAt (h : Finds c as d) : ∀ a ∈ as, ∃ n e, a.FoundAt (c.skip n) e := by
  induction h with
  | nil => exact List.forall_mem_nil _
  | @cons c d e f a as hd ha has ih =>
    rw [List.forall_mem_cons]
    have he := hd.trans ((d.reaches_skip 1).trans ha.reaches)
    constructor
    · obtain ⟨n, rfl⟩ := hd
      exact ⟨n, e, ha⟩
    · intro b hb
      obtain ⟨n, e', hb⟩ := ih b hb
      obtain ⟨m, rfl⟩ := he
      rw [Cursor.skip_skip] at hb
      exact ⟨m + n, e', hb⟩

theorem exists_skip (h : Finds c as d) : ∀ a ∈ as, ∃ n, (c.skip n).rest ≠ [] ∧
    a.position = (c.skip n).nextPosition ∧ a.Opens (c.skip n).rest := by
  intro a ha
  obtain ⟨n, e, hfound⟩ := h.exists_foundAt a ha
  exact ⟨n, hfound.rest_ne_nil, hfound.position_eq, hfound.opens⟩

end Scan.Finds

def Lexeme.token? : Lexeme → Option Token
  | .ok t => if t.kind = .endOfInput then none else some t
  | .error _ => none

theorem Lexeme.token?_eq_some {l : Lexeme} {t : Token} :
    l.token? = some t ↔ l = .ok t ∧ t.kind ≠ .endOfInput := by
  cases l with
  | error e => simp [token?]
  | ok u =>
    by_cases hu : u.kind = .endOfInput
    · simp only [token?, if_pos hu, Except.ok.injEq]
      constructor
      · intro h
        cases h
      · rintro ⟨rfl, hkind⟩
        exact absurd hu hkind
    · simp only [token?, if_neg hu, Option.some.injEq, Except.ok.injEq]
      constructor
      · rintro rfl
        exact ⟨rfl, hu⟩
      · exact And.left

namespace Reading

variable {s u : Reading} {t : Token} {e : SyntaxError} {k : Nat}

theorem stands_between (h : t.Stands s u k) :
    s.cursor.position < t.position ∧ t.position ≤ u.cursor.position := by
  rw [h.position]
  constructor
  · exact (s.cursor.reaches_skip k).position_le.trans_lt
      (Cursor.position_lt_nextPosition h.rest_ne_nil)
  · exact h.reaches.position_le

theorem error_between (h : s.next = (.error e, u)) :
    s.cursor.position ≤ e.position ∧ e.position ≤ u.cursor.position := by
  obtain ⟨mode, c⟩ := s
  cases hc : mode.token c with
  | ok t d =>
    rw [next, hc] at h
    cases h
  | error e' d =>
    rw [next, hc] at h
    cases h
    cases mode with
    | markup => exact Scan.blames_markup c hc
    | rawText name => exact Scan.blames_rawText c hc

theorem end_of_next {p : Position} (h : s.next = (.ok ⟨.endOfInput, p⟩, u)) :
    u.cursor.rest = [] ∧ u.cursor.position = p := by
  obtain ⟨mode, c⟩ := s
  cases mode with
  | markup => exact Scan.end_of_markup (next_markup h).1
  | rawText name =>
    rcases next_rawText h with ⟨hkind, -⟩ | ⟨b, hkind, -⟩ <;> cases hkind

theorem position_between (s : Reading) : s.cursor.position ≤ s.next.1.position ∧
    s.next.1.position ≤ s.next.2.cursor.position := by
  generalize hnext : s.next = step
  obtain ⟨l, u⟩ := step
  cases l with
  | error e => exact error_between hnext
  | ok t =>
    by_cases hkind : t.kind = .endOfInput
    · obtain ⟨kind, p⟩ := t
      cases hkind
      have hreaches := (reaches_next s).position_le
      rw [hnext, (end_of_next hnext).2] at hreaches
      exact ⟨hreaches, (end_of_next hnext).2.ge⟩
    · obtain ⟨k, hstands⟩ := exists_stands hnext hkind
      exact (stands_between hstands).imp le_of_lt id

theorem sorted_lexemes (s : Reading) :
    (s.lexemes.map Lexeme.position).Pairwise (· ≤ ·) ∧
      ∀ l ∈ s.lexemes, s.cursor.position ≤ l.position := by
  induction s using Reading.lexemes.induct with
  | case1 s step hend =>
    rw [lexemes_of_isEnd hend]
    exact ⟨List.pairwise_singleton _ _, List.forall_mem_singleton.2 (position_between s).1⟩
  | case2 s step hend ih =>
    obtain ⟨hsorted, hle⟩ := ih
    obtain ⟨hstart, hstop⟩ := position_between s
    rw [lexemes_of_not_isEnd hend, List.map_cons, List.pairwise_cons, List.forall_mem_map,
      List.forall_mem_cons]
    refine ⟨⟨?_, hsorted⟩, hstart, ?_⟩
    · intro l hl
      exact hstop.trans (hle l hl)
    · intro l hl
      exact (hstart.trans hstop).trans (hle l hl)

theorem increasing_tokens (s : Reading) :
    (s.lexemes.filterMap Lexeme.token?).Pairwise (fun t u => t.position < u.position) ∧
      ∀ t ∈ s.lexemes.filterMap Lexeme.token?, s.cursor.position < t.position := by
  induction s using Reading.lexemes.induct with
  | case1 s step hend =>
    obtain ⟨p, hp⟩ := Lexeme.isEnd_iff.1 hend
    rw [lexemes_of_isEnd hend, show s.next.1 = _ from hp]
    exact ⟨.nil, List.forall_mem_nil _⟩
  | case2 s step hend ih =>
    obtain ⟨hincreasing, hlt⟩ := ih
    obtain ⟨hstart, hstop⟩ := position_between s
    have hall : ∀ t ∈ s.next.2.lexemes.filterMap Lexeme.token?, s.cursor.position < t.position :=
      fun t ht => (hstart.trans hstop).trans_lt (hlt t ht)
    rw [lexemes_of_not_isEnd hend]
    cases htoken : s.next.1.token? with
    | none =>
      rw [List.filterMap_cons_none htoken]
      exact ⟨hincreasing, hall⟩
    | some t =>
      obtain ⟨hok, hkind⟩ := Lexeme.token?_eq_some.1 htoken
      obtain ⟨k, hstands⟩ := exists_stands (Prod.ext hok rfl) hkind
      obtain ⟨hstart, hstop⟩ := stands_between hstands
      rw [List.filterMap_cons_some htoken, List.pairwise_cons, List.forall_mem_cons]
      exact ⟨⟨fun u hu => hstop.trans_lt (hlt u hu), hincreasing⟩, hstart, hall⟩

end Reading

structure CharAt (text : List Char) (k : Nat) (p : Position) : Prop where
  lt_length : k < text.length
  position_eq : p = .ofRead (text.take (k + 1))

theorem charAt_cursor {text : List Char} {k : Nat}
    (h : (Lookahead.Plain.cursor text k).rest ≠ []) :
    CharAt text k (Lookahead.Plain.cursor text k).nextPosition where
  lt_length := by
    rw [Lookahead.Plain.cursor, ne_eq, List.drop_eq_nil_iff] at h
    omega
  position_eq := by
    rw [Cursor.nextPosition, Lookahead.Plain.cursor_skip]
    rfl

def Mark.position? : Mark → Option Position
  | .opening _ _ p => some p
  | .closing _ => none
  | .text _ p => some p
  | .mustache _ p => some p

theorem Node.Proper.position?_entering {n : Node} (h : n.Proper) :
    n.entering.filterMap Mark.position? = [n.position] := by
  obtain ⟨kind, p, ns?⟩ := n
  cases kind with
  | unset => cases h
  | text data => rfl
  | mustache expression => rfl
  | element name attributes => rfl

theorem Node.position?_leaving (n : Node) : n.leaving.filterMap Mark.position? = [] := by
  obtain ⟨kind, p, ns?⟩ := n
  cases kind <;> rfl

theorem Grove.In.positions {t : Tree} {g : Grove} (h : g.In t) (hg : g.toForest.Proper) :
    g.ids.map (fun id => (t.node? id).map Node.position) =
      (g.marks.filterMap Mark.position?).map some := by
  induction g with
  | nil => rfl
  | snoc before id node below ihb ihw =>
    obtain ⟨hbefore, hnode, -, hbelow⟩ := h
    rw [Grove.toForest, Forest.proper_append] at hg
    obtain ⟨hproper, -, hpbelow, -⟩ := hg.2
    simp only [Grove.ids, Grove.marks, List.map_append, List.map_cons, List.filterMap_append,
      ihb hbefore hg.1, ihw hbelow hpbelow, hnode, hproper.position?_entering,
      Node.position?_leaving, Option.map_some, List.append_nil, List.singleton_append]

theorem Token.position?_marks (t : Token) :
    (t.marks.filterMap Mark.position?).Sublist
      ((Lexeme.token? (.ok t)).toList.map Token.position) := by
  obtain ⟨kind, p⟩ := t
  cases kind with
  | endOfInput => exact .slnil
  | comment data => exact List.nil_sublist _
  | endTag name => exact List.nil_sublist _
  | text data => exact List.Sublist.refl _
  | mustache expression => exact List.Sublist.refl _
  | startTag name attributes => exact List.Sublist.refl _
  | selfClosingTag name attributes => exact List.Sublist.refl _

theorem Token.position?_flatMap_marks (ts : List Token) :
    ((ts.flatMap Token.marks).filterMap Mark.position?).Sublist
      (((ts.map .ok : List Lexeme).filterMap Lexeme.token?).map Token.position) := by
  induction ts with
  | nil => exact .slnil
  | cons t ts ih =>
    have hhead : (List.map Except.ok (t :: ts) : List Lexeme).filterMap Lexeme.token? =
        (Lexeme.token? (.ok t)).toList ++ (ts.map .ok : List Lexeme).filterMap Lexeme.token? := by
      rw [List.map_cons, List.filterMap_cons]
      cases Lexeme.token? (.ok t) <;> rfl
    rw [List.flatMap_cons, List.filterMap_append, hhead, List.map_append]
    exact t.position?_marks.append ih

namespace Document

theorem increasing_nodes {source : String} {d : Document} (h : parse source = .ok d)
    {i j : NodeId} {m n : Node} (hij : i < j) (hm : d.tree.node? i = some m)
    (hn : d.tree.node? j = some n) : m.position < n.position := by
  obtain ⟨g, ts, hstanding, htokens, hmarks⟩ := exists_standing h
  obtain ⟨hincreasing, hstart⟩ := (Reading.ofString source).increasing_tokens
  rw [show (Reading.ofString source).lexemes = _ from eq_map_of_mapM htokens] at hincreasing hstart
  have hsub := Token.position?_flatMap_marks ts
  rw [← hmarks] at hsub
  -- the list of all positions, that of the root first
  have hall : (({} : Position) :: g.marks.filterMap Mark.position?).Pairwise (· < ·) := by
    rw [List.pairwise_cons]
    refine ⟨?_, List.Pairwise.sublist hsub (List.pairwise_map.2 hincreasing)⟩
    intro p hp
    obtain ⟨t, ht, rfl⟩ := List.mem_map.1 (hsub.subset hp)
    exact hstart t ht
  have hlist : (List.range d.tree.size).map (fun id => (d.tree.node? id).map Node.position) =
      (({} : Position) :: g.marks.filterMap Mark.position?).map some := by
    rw [← hstanding.numbered, List.map_cons, List.map_cons, hstanding.rooted,
      hstanding.standing.positions hstanding.sound.proper]
    rfl
  have hget : ∀ {k : NodeId} {p : Node}, d.tree.node? k = some p →
      (({} : Position) :: g.marks.filterMap Mark.position?)[k]? = some p.position := by
    intro k p hp
    have hk := Tree.lt_size_of_node? hp
    have hentry := congrArg (·[k]?) hlist
    simp only [List.getElem?_map, List.getElem?_range hk, Option.map_some, hp] at hentry
    cases hq : (({} : Position) :: g.marks.filterMap Mark.position?)[k]? with
    | none =>
      rw [hq] at hentry
      cases hentry
    | some q =>
      rw [hq] at hentry
      cases hentry
      rfl
  obtain ⟨hi, hi'⟩ := List.getElem?_eq_some_iff.1 (hget hm)
  obtain ⟨hj, hj'⟩ := List.getElem?_eq_some_iff.1 (hget hn)
  rw [← hi', ← hj']
  exact List.pairwise_iff_getElem.1 hall i j hi hj hij

end Document

/-- Where the lexemes of a source and the nodes of its document stand.  Every lexeme is followed by
another one, but for the end of the input, which is the last. -/
structure PositionsInOrder (source : String) : Prop where
  sorted : ((lexemes source).map Lexeme.position).Pairwise (· ≤ ·)
  increasing : ((lexemes source).filterMap Lexeme.token?).Pairwise
    fun t u => t.position < u.position
  /-- Asked for with the characters from the `j`th on left to read, the token starts `k` further. -/
  opened : ∀ {ls t rest}, lexemes source = ls ++ .ok t :: rest → t.kind ≠ .endOfInput →
    ∃ s j k, Reading.Scans (.ofString source) ls s ∧
      s.cursor.rest = (Text.normalize source.toList).drop j ∧
      CharAt (Text.normalize source.toList) (j + k) t.position ∧
      t.kind.OpensAt s.mode s.cursor.rest k
  last : ∃ ls, lexemes source =
    ls ++ [.ok ⟨.endOfInput, .ofRead (Text.normalize source.toList)⟩] ∧ ∀ l ∈ ls, l.isEnd = false
  attributes : ∀ {ls t l rest}, lexemes source = ls ++ .ok t :: l :: rest →
    (t.attributes.map Attribute.position).Pairwise (· < ·) ∧
      ∀ a ∈ t.attributes, t.position < a.position ∧ a.position < l.position ∧
        ∃ k, CharAt (Text.normalize source.toList) k a.position ∧
          a.Opens ((Text.normalize source.toList).drop k)
  nodes : ∀ {d}, Document.parse source = .ok d → ∀ {i j m n}, i < j →
    d.tree.node? i = some m → d.tree.node? j = some n → m.position < n.position

section

variable {source : String} {ls rest : List Lexeme} {t : Token}

open Lookahead (Plain)

theorem Reading.Scans.exists_cursor {s : Reading} (h : Scans (.ofString source) ls s) :
    ∃ j, s.cursor = Plain.cursor (Text.normalize source.toList) j := by
  obtain ⟨j, hj⟩ := h.reaches
  have hskip := Plain.cursor_skip (Text.normalize source.toList) 0 j
  rw [Nat.zero_add] at hskip
  exact ⟨j, hj.trans hskip⟩

theorem exists_step (h : lexemes source = ls ++ .ok t :: rest) (hkind : t.kind ≠ .endOfInput) :
    ∃ s u j k, Reading.Scans (.ofString source) ls s ∧
      s.cursor = Plain.cursor (Text.normalize source.toList) j ∧ t.Stands s u k ∧
      u.lexemes = rest := by
  obtain ⟨s, hscans, hs⟩ := Reading.exists_scans h (List.cons_ne_nil _ _)
  obtain ⟨hnext, hrest⟩ := Reading.lexemes_eq_cons hs
  obtain ⟨j, hj⟩ := hscans.exists_cursor
  obtain ⟨k, hstands⟩ := Reading.exists_stands (Prod.ext hnext rfl) hkind
  refine ⟨s, _, j, k, hscans, hj, hstands, hrest ?_⟩
  rw [← Bool.not_eq_true, Lexeme.isEnd_iff]
  rintro ⟨p, hp⟩
  cases hp
  exact hkind rfl

theorem opened_of_lexemes (h : lexemes source = ls ++ .ok t :: rest)
    (hkind : t.kind ≠ .endOfInput) : ∃ s j k, Reading.Scans (.ofString source) ls s ∧
      s.cursor.rest = (Text.normalize source.toList).drop j ∧
      CharAt (Text.normalize source.toList) (j + k) t.position ∧
      t.kind.OpensAt s.mode s.cursor.rest k := by
  obtain ⟨s, u, j, k, hscans, hj, hstands, -⟩ := exists_step h hkind
  have hne := hstands.rest_ne_nil
  refine ⟨s, j, k, hscans, by rw [hj]; rfl, ?_, hstands.opensAt⟩
  rw [hstands.position]
  rw [hj, Plain.cursor_skip] at hne ⊢
  exact charAt_cursor hne

theorem attributes_of_lexemes {l : Lexeme} (h : lexemes source = ls ++ .ok t :: l :: rest) :
    (t.attributes.map Attribute.position).Pairwise (· < ·) ∧
      ∀ a ∈ t.attributes, t.position < a.position ∧ a.position < l.position ∧
        ∃ k, CharAt (Text.normalize source.toList) k a.position ∧
          a.Opens ((Text.normalize source.toList).drop k) := by
  by_cases hnone : t.attributes = []
  · rw [hnone]
    exact ⟨.nil, List.forall_mem_nil _⟩
  have hkind : t.kind ≠ .endOfInput := by
    intro hkind
    rw [Token.attributes, hkind] at hnone
    exact hnone rfl
  obtain ⟨s, u, j, k, -, hj, hstands, hu⟩ := exists_step h hkind
  obtain ⟨e, hfinds, hne, hreaches⟩ := hstands.finds hnone
  obtain ⟨hincreasing, hbetween⟩ := hfinds.between
  have hnext : e.position < l.position := by
    have hl := (u.sorted_lexemes).2 l (by rw [hu]; exact List.mem_cons_self)
    exact (Cursor.position_lt_nextPosition hne).trans_le (hreaches.position_le.trans hl)
  refine ⟨hincreasing, fun a ha => ⟨?_, (hbetween a ha).2.trans_lt hnext, ?_⟩⟩
  · rw [hstands.position]
    exact (hbetween a ha).1
  · obtain ⟨n, hrest, hposition, hopens⟩ := hfinds.exists_skip a ha
    rw [hj, Plain.cursor_skip, Plain.cursor_skip, Plain.cursor_skip] at hrest hposition hopens
    refine ⟨_, ?_, hopens⟩
    rw [hposition]
    exact charAt_cursor hrest

theorem last_of_lexemes (source : String) : ∃ ls, lexemes source =
    ls ++ [.ok ⟨.endOfInput, .ofRead (Text.normalize source.toList)⟩] ∧
      ∀ l ∈ ls, l.isEnd = false := by
  obtain ⟨ls, p, hls, hnotEnd⟩ := (Reading.ofString source).exists_lexemes_eq
  obtain ⟨s, hscans, hs⟩ := Reading.exists_scans hls (List.cons_ne_nil _ _)
  obtain ⟨hnil, hposition⟩ :=
    Reading.end_of_next (Prod.ext (Reading.lexemes_eq_cons hs).1 rfl)
  have hreaches := hscans.reaches.trans (Reading.reaches_next s)
  obtain ⟨n, hn⟩ := hreaches
  -- nothing is left to read, so that all of the text was read
  have hall : (Text.normalize source.toList).length ≤ n := by
    rw [hn, Cursor.rest_skip] at hnil
    exact List.drop_eq_nil_iff.1 hnil
  refine ⟨ls, ?_, hnotEnd⟩
  have hp : p = .ofRead (Text.normalize source.toList) := by
    rw [← hposition, hn, Cursor.skip]
    change Position.after {} ((Text.normalize source.toList).take n) = _
    rw [List.take_of_length_le hall, ← Position.ofRead_nil, ← Position.ofRead_append,
      List.nil_append]
  rw [← hp]
  exact hls

end

/-- Positions never go back, those of tokens and of nodes go on, and each is that of the character
with which its token or attribute starts. -/
theorem positions_in_order (source : String) : PositionsInOrder source where
  sorted := ((Reading.ofString source).sorted_lexemes).1
  increasing := ((Reading.ofString source).increasing_tokens).1
  opened := opened_of_lexemes
  last := last_of_lexemes source
  attributes := attributes_of_lexemes
  nodes h := Document.increasing_nodes h

end Template
