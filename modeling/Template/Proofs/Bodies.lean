import Template.Proofs.RoundTrip

namespace Template

/-- A raw-text element: how deep it stands, and what stands directly below it. -/
structure RawText where
  name : String
  depth : Nat
  children : List Node.Kind
  deriving DecidableEq

def RawText.bodyLines (depth : Nat) : List Node.Kind → List Char
  | .text body :: _ => '\n' :: indent (depth + 1) ++ body.toList ++ '\n' :: indent depth
  | _ => '\n' :: indent depth

def RawText.reread (r : RawText) : RawText :=
  { r with children := [.text (String.ofList (bodyLines r.depth r.children))] }

theorem RawText.children_reread_ne (r : RawText) : r.reread.children ≠ r.children := by
  intro h
  rw [reread, bodyLines.eq_def] at h
  split at h
  · rename_i body rest hchildren
    rw [hchildren, List.cons.injEq, Node.Kind.text.injEq] at h
    have hlength := congrArg (fun s => s.toList.length) h.1
    simp only [String.toList_ofList, List.length_append, List.length_cons] at hlength
    omega
  · rename_i hnone
    exact hnone _ _ h.symm

namespace Forest

def kinds : Forest → List Node.Kind
  | .nil => []
  | .cons node _ beside => node.kind :: beside.kinds

/-- The raw-text elements of a forest that stands at `depth`, in the order in which they are
opened. -/
def rawTexts (depth : Nat) : Forest → List RawText
  | .nil => []
  | .cons node below beside =>
    (match node.kind with
      | .element name _ => if Element.isRawText name then [⟨name, depth, below.kinds⟩] else []
      | _ => []) ++ below.rawTexts (depth + 1) ++ beside.rawTexts depth

variable {f below : Forest} {name : String} {depth : Nat}

@[simp] theorem rawTexts_prependText (data : String) (f : Forest) (depth : Nat) :
    (f.prependText data).rawTexts depth = f.rawTexts depth := by
  cases f with
  | nil => rfl
  | cons node below beside =>
    obtain ⟨kind, p, ns?⟩ := node
    cases kind with
    | text data' => rfl
    | _ => simp [prependText, rawTexts]

theorem BodyOf.rawTexts_eq_nil (h : below.BodyOf name) (depth : Nat) :
    below.rawTexts depth = [] := by
  cases h <;> rfl

theorem BodyOf.kinds_unplaced (h : below.BodyOf name) : below.unplaced.kinds = below.kinds := by
  cases h <;> rfl

theorem BodyOf.bodyLines_eq (h : below.BodyOf name) (depth : Nat) :
    RawText.bodyLines depth below.kinds = below.bodyText depth := by
  cases h <;> rfl

theorem BodyOf.kinds_eq (h : below.BodyOf name) :
    below.kinds = [] ∨ ∃ body, below.kinds = [.text body] := by
  cases h with
  | nil => exact .inl rfl
  | text p hb => exact .inr ⟨_, rfl⟩

theorem Sound.rawTexts_unplaced (h : f.Sound) (depth : Nat) :
    f.unplaced.rawTexts depth = f.rawTexts depth := by
  induction f generalizing depth with
  | nil => rfl
  | cons node below beside ihw ihb =>
    obtain ⟨-, -, hholds, hbelow, hbeside⟩ := h
    have hw := ihw hbelow (depth + 1)
    have hb := ihb hbeside depth
    obtain ⟨kind, p, ns?⟩ := node
    cases kind with
    | element name attributes =>
      cases hraw : Element.isRawText name with
      | false => simp [unplaced, rawTexts, Node.unplaced, hraw, hw, hb]
      | true =>
        simp [unplaced, rawTexts, Node.unplaced, hraw, hw, hb, (hholds.2 hraw).kinds_unplaced]
    | _ => simp [unplaced, rawTexts, Node.unplaced, hw, hb]

theorem Sound.rawTexts_normal (h : f.Sound) (depth : Nat) :
    (f.normal depth).rawTexts depth = (f.rawTexts depth).map RawText.reread := by
  induction f generalizing depth with
  | nil => rfl
  | cons node below beside ihw ihb =>
    obtain ⟨hproper, -, hholds, hbelow, hbeside⟩ := h
    have hw := ihw hbelow (depth + 1)
    have hb := ihb hbeside depth
    obtain ⟨kind, p, ns?⟩ := node
    cases kind with
    | unset => cases hproper
    | text data =>
      have hnil : below = .nil := hholds
      simp [normal, rawTexts, hb, hnil]
    | mustache e =>
      have hnil : below = .nil := hholds
      simp [normal, rawTexts, hb, hnil]
    | element name attributes =>
      cases hraw : Element.isRawText name with
      | false => simp [normal, rawTexts, hraw, hw, hb]
      | true =>
        have hbody := hholds.2 hraw
        simp [normal, rawTexts, hraw, hb, hbody.rawTexts_eq_nil, RawText.reread, kinds,
          hbody.bodyLines_eq]

theorem Sound.kinds_of_mem_rawTexts (h : f.Sound) {depth : Nat} {r : RawText}
    (hr : r ∈ f.rawTexts depth) : r.children = [] ∨ ∃ body, r.children = [.text body] := by
  induction f generalizing depth with
  | nil => cases hr
  | cons node below beside ihw ihb =>
    obtain ⟨-, -, hholds, hbelow, hbeside⟩ := h
    rw [rawTexts, List.mem_append, List.mem_append] at hr
    rcases hr with (hr | hr) | hr
    · obtain ⟨kind, p, ns?⟩ := node
      cases kind with
      | element name attributes =>
        simp only at hr
        split at hr
        · rename_i hraw
          rw [List.mem_singleton] at hr
          subst hr
          exact (hholds.2 hraw).kinds_eq
        · cases hr
      | _ => cases hr
    · exact ihw hbelow hr
    · exact ihb hbeside hr

end Forest

section Normal

variable {name : String} {below f : Forest}

theorem clean_break (depth : Nat) : Text.Clean ('\n' :: indent depth) := by
  simp [Text.Clean, indent, List.mem_replicate]

theorem Forest.BodyOf.clean_bodyText (h : below.BodyOf name) (depth : Nat) :
    Text.Clean (below.bodyText depth) := by
  cases h with
  | nil => exact clean_break depth
  | text p hb =>
    rw [bodyText, Text.clean_append, Text.clean_append]
    exact ⟨⟨clean_break (depth + 1), hb.clean⟩, clean_break depth⟩

theorem Forest.BodyOf.isBody_bodyText (h : below.BodyOf name) (hname : IsName name) (depth : Nat) :
    IsBody name (String.ofList (below.bodyText depth)) := by
  have hbefore := before_bodyText hname h depth []
  have hne : below.bodyText depth ≠ [] := by
    cases h <;> exact List.cons_ne_nil _ _
  have hclean := Text.clean_append.2 ⟨h.clean_bodyText depth,
    Text.clean_append.2 ⟨clean_closingTag hname, Text.clean_normalize []⟩⟩
  rw [← hbefore] at hne ⊢
  exact Reading.isBody_before hclean hne

theorem Attribute.sound_plain {a : Attribute} (h : a.Sound) : a.plain.Sound := by
  obtain ⟨kind, p⟩ := a
  cases kind <;> exact h

theorem Forest.sound_prependText (h : f.Sound) {data : String} (hdata : data.toList ≠ []) :
    (f.prependText data).Sound := by
  have hmarks : ∀ {p ns? d}, d.toList ≠ [] →
      ∀ m ∈ (Node.mk (.text d) p ns?).entering, m.Sound := by
    intro p ns? d hd m hm
    rw [Node.entering, List.mem_singleton] at hm
    subst hm
    exact hd
  cases f with
  | nil => exact ⟨rfl, hmarks hdata, rfl, trivial, trivial⟩
  | cons node below beside =>
    obtain ⟨kind, p, ns?⟩ := node
    cases kind with
    | text data' =>
      obtain ⟨hproper, -, hrest⟩ := h
      refine ⟨hproper, hmarks ?_, hrest⟩
      simp [String.toList_append, hdata]
    | _ => exact ⟨rfl, hmarks hdata, rfl, trivial, h⟩

theorem Forest.sound_normal (h : f.Sound) (depth : Nat) : (f.normal depth).Sound := by
  induction f generalizing depth with
  | nil => trivial
  | cons node below beside ihw ihb =>
    obtain ⟨hproper, hmarks, hholds, hbelow, hbeside⟩ := h
    have hnext := ihb hbeside depth
    obtain ⟨kind, p, ns?⟩ := node
    cases kind with
    | unset => cases hproper
    | text data => exact sound_prependText hnext (hmarks _ List.mem_cons_self)
    | mustache e => exact ⟨hproper, hmarks, rfl, trivial, hnext⟩
    | element name attributes =>
      obtain ⟨hname, hattributes⟩ : (Mark.opening name attributes p).Sound :=
        hmarks _ List.mem_cons_self
      refine ⟨hproper, ?_, ⟨?_, ?_⟩, ?_, hnext⟩
      · rw [Node.entering, List.forall_mem_singleton]
        refine ⟨hname, List.forall_mem_map.2 fun a ha => Attribute.sound_plain (hattributes a ha)⟩
      · intro hvoid
        have hraw : ¬ Element.isRawText name = true := by
          intro hraw
          rw [Element.isVoid_eq_false_of_isRawText hraw] at hvoid
          cases hvoid
        rw [if_neg hraw, hholds.1 hvoid]
        rfl
      · intro hraw
        rw [if_pos hraw]
        exact .text {} ((hholds.2 hraw).isBody_bodyText hname depth)
      · split
        · rename_i hraw
          refine ⟨rfl, ?_, rfl, trivial, trivial⟩
          rw [Node.entering, List.forall_mem_singleton]
          exact ((hholds.2 hraw).isBody_bodyText hname depth).ne_nil
        · exact ihw hbelow (depth + 1)

end Normal

theorem Tree.indented_forestTo_eq_flatMap (t : Tree) (levels : Nat) (ids : List NodeId) :
    (t.forestTo (levels + 1) ids).indented 0 false =
      ids.flatMap fun id => (t.forestTo (levels + 1) [id]).render := by
  induction ids with
  | nil => rfl
  | cons id ids ih =>
    have hcons : t.forestTo (levels + 1) (id :: ids) =
        t.forestTo (levels + 1) [id] ++ t.forestTo (levels + 1) ids := by
      simp only [forestTo, List.foldr_cons, List.foldr_nil]
      cases t.node? id <;> rfl
    rw [hcons, Forest.indented_append, ih, List.flatMap_cons, Forest.render_eq]

namespace Document

theorem render_eq {d : Document} (hsize : 0 < d.tree.size) :
    d.render = String.ofList (d.forest.indented 0 false) := by
  obtain ⟨levels, hlevels⟩ := Nat.exists_eq_add_of_lt hsize
  rw [Nat.zero_add] at hlevels
  rw [forest, Tree.topLevel, if_pos rfl, hlevels, Tree.indented_forestTo_eq_flatMap, render, nodes]
  simp only [Tree.subtree, hlevels]

theorem exists_parse_indented {f : Forest} (hf : f.Sound) :
    ∃ d, parse (String.ofList (f.indented 0 false)) = .ok d ∧
      d.forest.unplaced = (f.normal 0).unplaced := by
  obtain ⟨ts, hts, hmarks⟩ := hf.reads_render {}
  exact exists_parse_of_marks (tokens_ofList (hf.clean_indented 0) hts) (hf.proper_normal 0) hmarks

theorem sound_of_parse {source : String} {d : Document} (h : parse source = .ok d) :
    d.forest.Sound ∧ d.render = String.ofList (d.forest.indented 0 false) := by
  obtain ⟨g, ts, hstanding, -, -⟩ := exists_standing h
  have hlength := hstanding.length_ids
  refine ⟨?_, render_eq (by omega)⟩
  rw [hstanding.forest_eq]
  exact hstanding.sound

theorem parse_of_toOption {source : String} {d : Document}
    (h : (parse source).toOption = some d) : parse source = .ok d := by
  cases hparse : parse source with
  | ok d' =>
    rw [hparse] at h
    cases h
    rfl
  | error f =>
    rw [hparse] at h
    cases h

theorem exists_parse_of_isOk {source : String} (h : (parse source).isOk = true) :
    ∃ d, parse source = .ok d := by
  cases hparse : parse source with
  | ok d => exact ⟨d, rfl⟩
  | error f =>
    rw [hparse] at h
    cases h

/-- Of two documents, one is what the other one reads as once it is rendered. -/
structure Reread (d d' : Document) : Prop where
  sound : d.forest.Sound
  sound' : d'.forest.Sound
  parse : parse d.render = .ok d'
  forest : d'.forest.unplaced = (d.forest.normal 0).unplaced

theorem exists_reread {source : String} {d : Document} (h : Document.parse source = .ok d) :
    ∃ d', d.Reread d' := by
  obtain ⟨hsound, hrender⟩ := sound_of_parse h
  obtain ⟨d', hparse, hforest⟩ := exists_parse_indented hsound
  rw [← hrender] at hparse
  exact ⟨d', hsound, (sound_of_parse hparse).1, hparse, hforest⟩

theorem Reread.rawTexts_eq {d d' : Document} (h : d.Reread d') :
    d'.forest.rawTexts 0 = (d.forest.rawTexts 0).map RawText.reread := by
  rw [← h.sound'.rawTexts_unplaced, h.forest, (Forest.sound_normal h.sound 0).rawTexts_unplaced,
    h.sound.rawTexts_normal]

/-- Read back from its rendering, a document has the same raw-text elements in the same places.
Each of them has one text below it, its body between two line breaks with their indentation, and so
never what it had before. -/
theorem rawTexts_of_render {source : String} {d : Document} (h : Document.parse source = .ok d) :
    ∃ d', Document.parse d.render = .ok d' ∧
      d'.forest.rawTexts 0 = (d.forest.rawTexts 0).map RawText.reread ∧
      ∀ r ∈ d.forest.rawTexts 0, (r.children = [] ∨ ∃ body, r.children = [.text body]) ∧
        r.reread.children ≠ r.children := by
  obtain ⟨d', hreread⟩ := exists_reread h
  refine ⟨d', hreread.parse, hreread.rawTexts_eq, ?_⟩
  intro r hr
  exact ⟨hreread.sound.kinds_of_mem_rawTexts hr, r.children_reread_ne⟩

theorem rawTexts_of_render_nested :
    ∃ d, Document.parse "<p><title>x</title><style></style></p>" = .ok d ∧
      ∃ d', Document.parse d.render = .ok d' ∧
        d'.forest.rawTexts 0 = (d.forest.rawTexts 0).map RawText.reread ∧
        ∀ r ∈ d.forest.rawTexts 0, (r.children = [] ∨ ∃ body, r.children = [.text body]) ∧
          r.reread.children ≠ r.children := by
  have hok : (Document.parse "<p><title>x</title><style></style></p>").isOk = true := by
    decide +kernel
  obtain ⟨d, hd⟩ := exists_parse_of_isOk hok
  exact ⟨d, hd, rawTexts_of_render hd⟩

theorem body_of_title_changes :
    ∃ d d', Document.parse "<title>x</title>" = .ok d ∧ Document.parse d.render = .ok d' ∧
      d.forest.rawTexts 0 = [⟨"title", 0, [.text "x"]⟩] ∧
      d'.forest.rawTexts 0 = [⟨"title", 0, [.text "\n  x\n"]⟩] := by
  have hall : (Document.parse "<title>x</title>").toOption.any (fun d =>
      (Document.parse d.render).toOption.any fun d' =>
        d.forest.rawTexts 0 = [⟨"title", 0, [.text "x"]⟩] &&
          d'.forest.rawTexts 0 = [⟨"title", 0, [.text "\n  x\n"]⟩]) = true := by
    decide +kernel
  simp only [Option.any_eq_true, Bool.and_eq_true, decide_eq_true_eq] at hall
  obtain ⟨d, hd, d', hd', hbefore, hafter⟩ := hall
  exact ⟨d, d', parse_of_toOption hd, parse_of_toOption hd', hbefore, hafter⟩

end Document

end Template
