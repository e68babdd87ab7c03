import Template.Proofs.Rendering

namespace Template

section Clean

theorem Text.clean_append {as bs : List Char} :
    Text.Clean (as ++ bs) ↔ Text.Clean as ∧ Text.Clean bs := by
  simp only [Text.Clean, List.mem_append, not_or]
  tauto

theorem IsName.clean {name : String} (h : IsName name) : Text.Clean name.toList := by
  constructor
  · intro hr
    cases h.chars _ hr
  · intro hf
    cases h.chars _ hf

theorem CharRef.clean_encode (ctx : CharRef.Context) (cs : List Char) :
    Text.Clean (CharRef.encode ctx cs) := by
  constructor
  · apply CharRef.not_mem_encode
    cases ctx <;> decide
  · apply CharRef.not_mem_encode
    cases ctx <;> decide

theorem clean_line {content : List Char} (h : Text.Clean content) (depth : Nat) :
    Text.Clean (Indented.line depth content) := by
  have hindent : Text.Clean (List.replicate (2 * depth) ' ') := by
    simp [Text.Clean, List.mem_replicate]
  rw [Indented.line, Text.clean_append, Text.clean_append]
  exact ⟨⟨hindent, h⟩, by decide⟩

theorem IsExpression.clean_mustache {e : String} (h : IsExpression e) :
    Text.Clean (Indented.mustache e) := by
  rw [Indented.mustache, Text.clean_append, Text.clean_append]
  exact ⟨⟨by decide, h.clean⟩, by decide⟩

theorem Attribute.Sound.clean {a : Attribute} (h : a.Sound) : Text.Clean (Indented.attr a) := by
  obtain ⟨kind, p⟩ := a
  cases kind with
  | string key value mustaches =>
    simp only [Indented.attr, Text.clean_append]
    exact ⟨⟨⟨IsName.clean h, by decide⟩, CharRef.clean_encode _ _⟩, by decide⟩
  | mustache key e =>
    simp only [Indented.attr, Text.clean_append]
    exact ⟨⟨h.1.clean, by decide⟩, h.2.clean_mustache⟩
  | bool key => exact IsName.clean h
  | variadic e =>
    simp only [Indented.attr, Text.clean_append]
    exact ⟨by decide, IsExpression.clean_mustache h⟩

theorem clean_openingTag {name : String} (hname : IsName name) {as : List Attribute}
    (has : ∀ a ∈ as, a.Sound) : Text.Clean (Indented.openingTag name as) := by
  have hattributes : Text.Clean (as.flatMap fun a => ' ' :: Indented.attr a) := by
    induction as with
    | nil => exact ⟨List.not_mem_nil, List.not_mem_nil⟩
    | cons a as ih =>
      rw [List.forall_mem_cons] at has
      rw [List.flatMap_cons, ← List.singleton_append, Text.clean_append, Text.clean_append]
      exact ⟨⟨by decide, has.1.clean⟩, ih has.2⟩
  rw [Indented.openingTag, Text.clean_append, Text.clean_append, Text.clean_append]
  exact ⟨⟨⟨by decide, hname.clean⟩, hattributes⟩, by decide⟩

theorem clean_closingTag {name : String} (hname : IsName name) :
    Text.Clean (Scan.closingTag name) := by
  rw [Scan.closingTag, Text.clean_append, Text.clean_append]
  exact ⟨⟨by decide, hname.clean⟩, by decide⟩

theorem Forest.Sound.clean_indented {f : Forest} (h : f.Sound) (depth : Nat) :
    Text.Clean (f.indented depth false) := by
  induction f generalizing depth with
  | nil => exact ⟨List.not_mem_nil, List.not_mem_nil⟩
  | cons node below beside ihw ihb =>
    obtain ⟨hproper, hmarks, hholds, hbelow, hbeside⟩ := h
    obtain ⟨kind, p, ns?⟩ := node
    rw [Forest.indented, Text.clean_append]
    refine ⟨?_, ihb hbeside depth⟩
    cases kind with
    | unset => cases hproper
    | text data => exact clean_line (CharRef.clean_encode _ _) depth
    | mustache e =>
      have he : IsExpression e := hmarks _ List.mem_cons_self
      exact clean_line he.clean_mustache depth
    | element name attributes =>
      obtain ⟨hname, hattributes⟩ : (Mark.opening name attributes p).Sound :=
        hmarks _ List.mem_cons_self
      rw [Text.clean_append]
      refine ⟨clean_line (clean_openingTag hname hattributes) depth, ?_⟩
      cases hvoid : Element.isVoid name with
      | true =>
        rw [if_pos rfl]
        exact ⟨List.not_mem_nil, List.not_mem_nil⟩
      | false =>
        rw [if_neg Bool.false_ne_true, Text.clean_append]
        refine ⟨?_, clean_line (clean_closingTag hname) depth⟩
        cases hraw : Element.isRawText name with
        | false => exact ihw hbelow (depth + 1)
        | true =>
          cases hholds.2 hraw with
          | nil => exact ⟨List.not_mem_nil, List.not_mem_nil⟩
          | text q hb =>
            rw [Forest.indented, Forest.indented_nil, List.append_nil]
            exact clean_line hb.clean (depth + 1)

end Clean

section Proper

theorem Forest.Proper.prependText {f : Forest} (h : f.Proper) (data : String) :
    (f.prependText data).Proper := by
  have hnode : (Node.mk (.text data) {} none).Proper := rfl
  cases f with
  | nil => exact ⟨hnode, fun _ => rfl, trivial, trivial⟩
  | cons node below beside =>
    obtain ⟨kind, p, ns?⟩ := node
    cases kind with
    | text data' => exact h
    | _ => exact ⟨hnode, fun _ => rfl, trivial, h⟩

theorem Forest.Sound.proper_normal {f : Forest} (h : f.Sound) (depth : Nat) :
    (f.normal depth).Proper := by
  induction f generalizing depth with
  | nil => trivial
  | cons node below beside ihw ihb =>
    obtain ⟨hproper, -, -, hbelow, hbeside⟩ := h
    have hnext := ihb hbeside depth
    obtain ⟨kind, p, ns?⟩ := node
    cases kind with
    | unset => cases hproper
    | text data => exact hnext.prependText data
    | mustache e => exact ⟨hproper, fun _ => rfl, trivial, hnext⟩
    | element name attributes =>
      refine ⟨hproper, ?_, ?_, hnext⟩
      · intro hname
        cases hname
      split
      · exact ⟨rfl, fun _ => rfl, trivial, trivial⟩
      · exact ihw hbelow (depth + 1)

end Proper

section Brackets

def Mark.brackets : Mark → List Bracket
  | .opening name _ _ => [.opening name]
  | .closing name => [.closing name]
  | _ => []

@[simp] theorem Mark.brackets_unplaced (m : Mark) : m.unplaced.brackets = m.brackets := by
  cases m <;> rfl

theorem Token.unclosed?_marks (t : Token) (ns : List String) :
    Bracket.unclosed? ns (t.marks.flatMap Mark.brackets) = Bracket.unclosed? ns t.brackets := by
  obtain ⟨kind, p⟩ := t
  cases kind with
  | selfClosingTag name attributes =>
    simp [Token.marks, Mark.brackets, Token.brackets, Bracket.unclosed?, Bracket.push?]
  | _ => rfl

theorem unclosed?_flatMap_marks (ts : List Token) (ns : List String) :
    Bracket.unclosed? ns ((ts.flatMap Token.marks).flatMap Mark.brackets) =
      Bracket.unclosed? ns (ts.flatMap Token.brackets) := by
  induction ts generalizing ns with
  | nil => rfl
  | cons t ts ih =>
    rw [List.flatMap_cons, List.flatMap_append, Bracket.unclosed?_append, t.unclosed?_marks,
      List.flatMap_cons, Bracket.unclosed?_append]
    congr 1
    funext ms
    exact ih ms

theorem Forest.Proper.balanced {f : Forest} (h : f.Proper) :
    Bracket.Balanced (f.marks.flatMap Mark.brackets) := by
  induction f with
  | nil => exact .nil
  | cons node below beside ihw ihb =>
    obtain ⟨hproper, hleaf, hbelow, hbeside⟩ := h
    have hnext := ihb hbeside
    obtain ⟨kind, p, ns?⟩ := node
    simp only [Forest.marks, List.flatMap_append]
    cases kind with
    | unset => cases hproper
    | text data =>
      rw [hleaf rfl]
      exact hnext
    | mustache e =>
      rw [hleaf rfl]
      exact hnext
    | element name attributes =>
      rw [List.append_assoc, List.append_assoc]
      exact .nest name (ihw hbelow) hnext

end Brackets

theorem Forest.Sound.reads_render {f : Forest} (h : f.Sound) :
    Reads .markup (f.indented 0 false) ((f.normal 0).marks.map Mark.unplaced) := by
  have htail : ∀ run d, Lead 0 run d → Reads .markup (run ++ []) (textMarks d ++ []) := by
    intro run d hlead
    exact hlead.reads (.inl rfl) reads_nil
  have hreads := reads_indented h .start htail
  simpa only [List.nil_append, List.append_nil, Forest.withText_empty] using hreads

namespace Document

theorem exists_parse_of_marks {source : String} {ts : List Token} {f : Forest}
    (hts : tokens source = .ok ts) (hf : f.Proper)
    (hmarks : (ts.flatMap Token.marks).map Mark.unplaced = f.marks.map Mark.unplaced) :
    ∃ d, parse source = .ok d ∧ d.forest.unplaced = f.unplaced := by
  have hbalanced : Bracket.Balanced (ts.flatMap Token.brackets) := by
    rw [Bracket.balanced_iff, ← unclosed?_flatMap_marks]
    have hflat := congrArg (List.flatMap Mark.brackets) hmarks
    simp only [List.flatMap_map, Mark.brackets_unplaced] at hflat
    rw [hflat]
    exact Bracket.balanced_iff.1 hf.balanced
  -- a fault would leave the tags unbalanced, but the marks of a proper forest are balanced
  cases ending source with
  | fault e i _ _ _ _ hunbalanced => exact absurd hbalanced (hunbalanced ts hts)
  | complete us t g hparse =>
    obtain ⟨g, us, hstanding, hus, hgmarks⟩ := exists_standing hparse
    rw [hts] at hus
    cases hus
    refine ⟨⟨t⟩, hparse, ?_⟩
    apply Forest.Proper.eq_of_marks
    · rw [hstanding.forest_eq]
      exact hstanding.sound.proper.unplaced
    · exact hf.unplaced
    · rw [Forest.marks_unplaced, Forest.marks_unplaced, hstanding.forest_eq, Grove.marks_toForest,
        hgmarks, hmarks]

/-- What is rendered at a node of a document parses, and gives the normal form of what stands
there.  A text gives itself, wherever it stands. -/
theorem parse_render {source : String} {d : Document} (h : parse source = .ok d) {id : NodeId}
    (hid : id < d.tree.size) :
    ∃ text d', d.tree.render id = .ok text ∧ parse text = .ok d' ∧
      d'.forest.unplaced = ((d.tree.topLevel id).normal 0).unplaced ∧
      ∀ n data, d.tree.node? id = some n → n.kind = .text data →
        d'.forest.unplaced = .cons { kind := .text data } .nil .nil := by
  obtain ⟨g, ts, hstanding, -, -⟩ := exists_standing h
  obtain ⟨hsound, hrender⟩ := hstanding.sound_topLevel hid
  obtain ⟨us, hus, hmarks⟩ := hsound.reads_render {}
  have hclean := hsound.clean_indented 0
  have htokens : tokens (String.ofList (d.tree.subtree id).render) = .ok us := by
    rw [tokens, lexemes, Reading.ofString, String.toList_ofList, hrender,
      Text.normalize_eq_self hclean.1 hclean.2, hus, mapM_ok]
  obtain ⟨d', hparse, hforest⟩ := exists_parse_of_marks htokens (hsound.proper_normal 0) hmarks
  refine ⟨_, d', ?_, hparse, hforest, ?_⟩
  · rw [Tree.render, if_pos hid]
  · intro n data hnode hn
    obtain ⟨kind, p, ns?⟩ := n
    cases hn
    rw [hforest, hstanding.topLevel_text hid hnode rfl]
    rfl

theorem parse_render_comment :
    ∃ d, parse "a<!---->b" = .ok d ∧ Tree.root < d.tree.size ∧
      ∃ text d', d.tree.render Tree.root = .ok text ∧ parse text = .ok d' ∧
        d'.forest.unplaced = ((d.tree.topLevel Tree.root).normal 0).unplaced ∧
        ∀ n data, d.tree.node? Tree.root = some n → n.kind = .text data →
          d'.forest.unplaced = .cons { kind := .text data } .nil .nil := by
  have hok : (parse "a<!---->b").toOption.any (fun d => Tree.root < d.tree.size) = true := by
    decide +kernel
  cases hd : parse "a<!---->b" with
  | error f =>
    rw [hd] at hok
    cases hok
  | ok d =>
    rw [hd] at hok
    have hsize : Tree.root < d.tree.size := of_decide_eq_true hok
    exact ⟨d, rfl, hsize, parse_render hd hsize⟩

end Document

end Template
