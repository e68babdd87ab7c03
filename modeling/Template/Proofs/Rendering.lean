import Template.Proofs.Respelling

namespace Template

section Constructs

variable {name e : String} {as : List Attribute} {rest : List Char} {ms : List Mark}

theorem reads_mustache (he : IsExpression e) (h : Reads .markup rest ms) :
    Reads .markup (Indented.mustache e ++ rest) (.mustache e {} :: ms) := by
  have htext : Indented.mustache e ++ rest = '{' :: '{' :: (e.toList ++ '}' :: '}' :: rest) := by
    simp [Indented.mustache]
  have hall : Reads .markup ('{' :: '{' :: (e.toList ++ '}' :: '}' :: rest))
      ([.mustache e {}] ++ ms) := by
    have hopening : Opening.of? ('{' :: '{' :: (e.toList ++ '}' :: '}' :: rest)) =
        some .mustache := rfl
    refine reads_construct hopening ?_ h
    intro start
    refine (Scan.yields_mustache he start rest).mono ?_
    rintro t rfl
    exact ⟨by simp, rfl, rfl⟩
  rw [htext]
  exact hall

theorem IsName.opens (hname : IsName name) (cs : List Char) :
    Opening.of? ('<' :: (name.toList ++ cs)) = some .startTag := by
  obtain ⟨x, xs, hx, hstart⟩ := hname.start
  have hne : x ≠ '/' ∧ x ≠ '!' := by
    constructor
    · rintro rfl
      cases hstart
    · rintro rfl
      cases hstart
  rw [hx, List.cons_append, Opening.of?, if_pos hstart]
  · exact hne.1
  · intro _ heq
    exact absurd heq hne.2

theorem reads_closingTag (hname : IsName name) (hvoid : Element.isVoid name = false)
    (h : Reads .markup rest ms) :
    Reads .markup (Scan.closingTag name ++ rest) (.closing name :: ms) := by
  have htext : Scan.closingTag name ++ rest = '<' :: '/' :: (name.toList ++ '>' :: rest) := by
    simp [Scan.closingTag]
  have hall : Reads .markup ('<' :: '/' :: (name.toList ++ '>' :: rest))
      ([.closing name] ++ ms) := by
    have hopening : Opening.of? ('<' :: '/' :: (name.toList ++ '>' :: rest)) = some .endTag := rfl
    refine reads_construct hopening ?_ h
    intro start
    refine (Scan.yields_endTag hname hvoid start rest).mono ?_
    rintro t rfl
    exact ⟨by simp, rfl, rfl⟩
  rw [htext]
  exact hall

def tagMarks (name : String) (as : List Attribute) : List Mark :=
  .opening name (as.map fun a => a.plain.unplaced) {} ::
    if Element.isVoid name then [.closing name] else []

theorem marks_tagKind {bs : List Attribute}
    (hbs : bs.map Attribute.unplaced = as.map fun a => a.plain.unplaced) (start : Position) :
    (Token.marks ⟨Scan.tagKind name bs, start⟩).map Mark.unplaced = tagMarks name as := by
  cases hvoid : Element.isVoid name with
  | true => simp [Scan.tagKind, hvoid, Token.marks, Mark.unplaced, tagMarks, hbs]
  | false => simp [Scan.tagKind, hvoid, Token.marks, Mark.unplaced, tagMarks, hbs]

theorem Reading.Mode.after_tagKind (name : String) (as : List Attribute) :
    Mode.after .markup (Scan.tagKind name as) =
      if Element.isVoid name then .markup
      else if Element.isRawText name then .rawText name else .markup := by
  cases hvoid : Element.isVoid name with
  | true => simp [Scan.tagKind, hvoid, Mode.after]
  | false => simp [Scan.tagKind, hvoid, Mode.after]

theorem openingTag_append (name : String) (as : List Attribute) (rest : List Char) :
    Indented.openingTag name as ++ rest =
      '<' :: (name.toList ++ (Scan.attributeText as ++ '>' :: rest)) := by
  simp [Indented.openingTag, Scan.attributeText]

theorem opens_openingTag (hname : IsName name) (as : List Attribute) (rest : List Char) :
    Scan.opens (Indented.openingTag name as ++ rest) = true := by
  rw [openingTag_append]
  exact Opening.opens_of_of? (hname.opens _)

theorem Reading.next_openingTag (hname : IsName name) (has : ∀ a ∈ as, a.Sound)
    (rest : List Char) (p : Position) :
    ∃ bs start q, next ⟨.markup, ⟨p, Indented.openingTag name as ++ rest⟩⟩ =
        (.ok ⟨Scan.tagKind name bs, start⟩,
          ⟨Mode.after .markup (Scan.tagKind name as), ⟨q, rest⟩⟩) ∧
      bs.map Attribute.unplaced = as.map fun a => a.plain.unplaced := by
  rw [openingTag_append]
  have hbody : ∀ start, Scan.Yields (Scan.body .startTag start)
      (name.toList ++ (Scan.attributeText as ++ '>' :: rest)) rest fun t =>
        ∃ start bs, t = ⟨Scan.tagKind name bs, start⟩ ∧
          bs.map Attribute.unplaced = as.map fun a => a.plain.unplaced := by
    intro start
    refine (Scan.yields_startTag hname has start rest).mono ?_
    intro t ht
    exact ⟨start, ht⟩
  obtain ⟨t, q, hnext, start, bs, rfl, hbs⟩ := next_construct (hname.opens _) hbody p
  refine ⟨bs, start, q, ?_, hbs⟩
  rw [hnext, Mode.after_tagKind, Mode.after_tagKind]

theorem reads_openingTag (hname : IsName name) (has : ∀ a ∈ as, a.Sound)
    (h : Reads (Reading.Mode.after .markup (Scan.tagKind name as)) rest ms) :
    Reads .markup (Indented.openingTag name as ++ rest) (tagMarks name as ++ ms) := by
  refine reads_step ?_ h
  intro p
  obtain ⟨bs, start, q, hnext, hbs⟩ := Reading.next_openingTag hname has rest p
  refine ⟨_, q, hnext, ?_, marks_tagKind hbs start⟩
  simp only [Scan.tagKind]
  split <;> simp

end Constructs

section Bodies

variable {name : String} {cs : List Char}

theorem prefix_of_prefix_append {as bs : List Char} {c : Char} (hc : c ∉ as)
    (h : as <+: bs ++ c :: cs) : as <+: bs := by
  obtain ⟨t, ht⟩ := h
  rw [List.append_eq_append_iff] at ht
  rcases ht with ⟨u, rfl, -⟩ | ⟨u, rfl, hu⟩
  · exact List.prefix_append _ _
  · cases u with
    | nil => simp
    | cons x xs =>
      cases hu
      exact absurd (List.mem_append_right _ List.mem_cons_self) hc

theorem before_closingTag_body {b : List Char} (hb : ¬ Scan.closingTag name <:+: b)
    (hbreak : '\n' ∉ Scan.closingTag name) (cs : List Char) :
    Text.before (Scan.closingTag name).isPrefixOf (b ++ '\n' :: cs) =
      b ++ Text.before (Scan.closingTag name).isPrefixOf ('\n' :: cs) := by
  induction b with
  | nil => rfl
  | cons x xs ih =>
    have hx : (Scan.closingTag name).isPrefixOf (x :: (xs ++ '\n' :: cs)) = false := by
      rw [← Bool.not_eq_true, List.isPrefixOf_iff_prefix]
      intro hprefix
      exact hb (prefix_of_prefix_append hbreak hprefix).isInfix
    have hxs : ¬ Scan.closingTag name <:+: xs := fun h => hb (List.infix_cons h)
    rw [List.cons_append, Text.before_of_neg hx, ih hxs, List.cons_append]

theorem IsName.lineFeed_notMem (hname : IsName name) : '\n' ∉ Scan.closingTag name := by
  intro hmem
  simp only [Scan.closingTag, List.mem_append, List.mem_cons, List.not_mem_nil, or_false] at hmem
  rcases hmem with ((hmem | hmem) | hmem) | hmem
  · cases hmem
  · cases hmem
  · have hchar := hname.chars _ hmem
    cases hchar
  · cases hmem

theorem before_bodyText (hname : IsName name) {below : Forest} (hbelow : below.BodyOf name)
    (depth : Nat) (cs : List Char) :
    Text.before (Scan.closingTag name).isPrefixOf
      (below.bodyText depth ++ (Scan.closingTag name ++ cs)) = below.bodyText depth := by
  have hclose : Text.before (Scan.closingTag name).isPrefixOf (Scan.closingTag name ++ cs) = [] :=
    Text.before_of_pos (List.isPrefixOf_iff_prefix.2 (List.prefix_append _ _))
  have hlead : ∀ k, ∀ x ∈ '\n' :: indent k, x ≠ '<' := by
    intro k x hx
    rcases List.mem_cons.1 hx with rfl | hx
    · decide
    · rw [List.eq_of_mem_replicate hx]
      decide
  cases hbelow with
  | nil =>
    have htext : Forest.nil.bodyText depth = '\n' :: indent depth := rfl
    rw [htext, Scan.before_closingTag_append (hlead depth), hclose, List.append_nil]
  | @text b p hb =>
    have htext : ∀ ds, Forest.bodyText depth (.cons ⟨.text b, p, none⟩ .nil .nil) ++ ds =
        ('\n' :: indent (depth + 1)) ++ (b.toList ++ (('\n' :: indent depth) ++ ds)) := by
      intro ds
      simp [Forest.bodyText, indent]
    have hnil := htext []
    rw [List.append_nil, List.append_nil] at hnil
    have hbody := before_closingTag_body hb.no_close hname.lineFeed_notMem
      (indent depth ++ (Scan.closingTag name ++ cs))
    rw [← List.cons_append] at hbody
    rw [htext, Scan.before_closingTag_append (hlead _), hbody,
      Scan.before_closingTag_append (hlead depth),
      hclose, List.append_nil, hnil]

end Bodies

section Texts

variable {d data : String}

def Forest.withText (d : String) (f : Forest) : Forest := if d = "" then f else f.prependText d

theorem Forest.withText_prependText (hdata : data ≠ "") (d : String) (f : Forest) :
    (f.prependText data).withText d = f.withText (d ++ data) := by
  have hne : d ++ data ≠ "" := by
    intro h
    rw [String.append_eq_empty_iff] at h
    exact hdata h.2
  rw [Forest.withText, Forest.withText, if_neg hne]
  by_cases hd : d = ""
  · rw [if_pos hd, hd, String.empty_append]
  · rw [if_neg hd]
    cases f with
    | nil => rfl
    | cons node below beside =>
      obtain ⟨kind, p, ns?⟩ := node
      cases kind with
      | text data' =>
        simp only [Forest.prependText, String.append_assoc]
      | _ => rfl

theorem Forest.marks_withText_nil (d : String) :
    (Forest.nil.withText d).marks.map Mark.unplaced = textMarks d := by
  by_cases hd : d = ""
  · simp [Forest.withText, textMarks, hd]
  · rw [Forest.withText, textMarks, if_neg hd, if_neg hd]
    rfl

theorem Forest.marks_withText_cons {node : Node} (hnode : ∀ data, node.kind ≠ .text data)
    (below beside : Forest) (d : String) :
    ((Forest.cons node below beside).withText d).marks.map Mark.unplaced =
      textMarks d ++ (Forest.cons node below beside).marks.map Mark.unplaced := by
  by_cases hd : d = ""
  · simp [Forest.withText, textMarks, hd]
  · rw [Forest.withText, textMarks, if_neg hd, if_neg hd]
    obtain ⟨kind, p, ns?⟩ := node
    cases kind with
    | text data => exact absurd rfl (hnode data)
    | _ => rfl

end Texts

section Nodes

variable {depth : Nat} {rest : List Char} {name : String} {ms : List Mark}

@[simp] theorem Forest.withText_empty (f : Forest) : f.withText "" = f := if_pos rfl

def belowText (depth : Nat) (name : String) (below : Forest) : List Char :=
  if Element.isVoid name then []
  else below.indented (depth + 1) (Element.isRawText name) ++
    Indented.line depth (Scan.closingTag name)

def belowMarks (depth : Nat) (name : String) (below : Forest) : List Mark :=
  if Element.isVoid name then []
  else
    (if Element.isRawText name then [.text (String.ofList (below.bodyText depth)) {}]
    else (below.normal (depth + 1)).marks.map Mark.unplaced) ++ [.closing name]

theorem belowText_raw {below : Forest} (hraw : Element.isRawText name = true)
    (hbelow : below.BodyOf name) :
    '\n' :: belowText depth name below =
      below.bodyText depth ++ (Scan.closingTag name ++ ['\n']) := by
  rw [belowText, if_neg (by simp [Element.isVoid_eq_false_of_isRawText hraw]), hraw]
  cases hbelow with
  | nil => simp [Forest.indented, Forest.bodyText, Indented.line]
  | text p hb => simp [Forest.indented, Forest.bodyText, Indented.line, Indented.text]

theorem reads_below (as : List Attribute) {below : Forest} (hname : IsName name)
    (hvoid : Element.isVoid name = true → below = .nil)
    (hraw : Element.isRawText name = true → below.BodyOf name)
    (hbelow : ∀ tail ms,
      (∀ run d, Lead (depth + 1) run d → Reads .markup (run ++ tail) (textMarks d ++ ms)) →
        Reads .markup ('\n' :: (below.indented (depth + 1) false ++ tail))
          ((below.normal (depth + 1)).marks.map Mark.unplaced ++ ms))
    (h : Reads .markup ('\n' :: rest) ms) :
    Reads (Reading.Mode.after .markup (Scan.tagKind name as))
      ('\n' :: (belowText depth name below ++ rest)) (belowMarks depth name below ++ ms) := by
  rw [Reading.Mode.after_tagKind]
  cases hv : Element.isVoid name with
  | true =>
    simp only [belowText, belowMarks, hv, if_true, List.nil_append]
    exact h
  | false =>
    have hclosing := reads_closingTag hname hv h
    cases hr : Element.isRawText name with
    | true =>
      have htext : '\n' :: (belowText depth name below ++ rest) =
          below.bodyText depth ++ (Scan.closingTag name ++ '\n' :: rest) := by
        rw [← List.cons_append, belowText_raw hr (hraw hr)]
        simp
      rw [htext]
      simp only [belowMarks, hv, hr, if_true, Bool.false_eq_true, if_false]
      refine reads_rawText ?_ (before_bodyText hname (hraw hr) depth _) h
      cases hraw hr <;> exact List.cons_ne_nil _ _
    | false =>
      have htext : belowText depth name below ++ rest =
          below.indented (depth + 1) false ++
            (indent depth ++ (Scan.closingTag name ++ '\n' :: rest)) := by
        simp [belowText, hv, hr, Indented.line, indent]
      rw [htext]
      simp only [belowMarks, hv, hr, Bool.false_eq_true, if_false, List.append_assoc]
      apply hbelow
      intro run d hlead
      cases hlead with
      | lines hlines => exact (Lead.lines hlines).reads (.inr rfl) hclosing

theorem marks_normal_element {below : Forest} (hvoid : Element.isVoid name = true → below = .nil)
    (depth : Nat) (as : List Attribute) (p : Position) (ns? : Option String) (beside : Forest)
    (d : String) :
    (((Forest.cons ⟨.element name as, p, ns?⟩ below beside).normal depth).withText d).marks.map
        Mark.unplaced =
      textMarks d ++ (tagMarks name as ++ (belowMarks depth name below ++
        (beside.normal depth).marks.map Mark.unplaced)) := by
  rw [Forest.normal, Forest.marks_withText_cons (by simp)]
  cases hv : Element.isVoid name with
  | true =>
    have hr : Element.isRawText name = false := by
      rw [← Bool.not_eq_true]
      intro hr
      rw [Element.isVoid_eq_false_of_isRawText hr] at hv
      cases hv
    simp [hvoid hv, Forest.normal, Forest.marks, Node.entering, Node.leaving, tagMarks, belowMarks,
      hv, hr, Mark.unplaced]
  | false =>
    cases hr : Element.isRawText name with
    | true =>
      simp [Forest.marks, Node.entering, Node.leaving, tagMarks, belowMarks, hv, hr, Mark.unplaced]
    | false =>
      simp [Forest.marks, Node.entering, Node.leaving, tagMarks, belowMarks, hv, hr, Mark.unplaced]

end Nodes

section Lines

variable {depth : Nat} {p : Position} {ns? : Option String} {below beside : Forest}
  {tail : List Char}

theorem indented_text (data : String) :
    (Forest.cons ⟨.text data, p, ns?⟩ below beside).indented depth false ++ tail =
      textLine depth data ++ (beside.indented depth false ++ tail) := by
  simp [Forest.indented, Indented.line, Indented.text, textLine, indent]

theorem indented_mustache (e : String) :
    (Forest.cons ⟨.mustache e, p, ns?⟩ below beside).indented depth false ++ tail =
      indent depth ++
        (Indented.mustache e ++ '\n' :: (beside.indented depth false ++ tail)) := by
  simp [Forest.indented, Indented.line, indent]

theorem indented_element (name : String) (as : List Attribute) :
    (Forest.cons ⟨.element name as, p, ns?⟩ below beside).indented depth false ++ tail =
      indent depth ++ (Indented.openingTag name as ++
        '\n' :: (belowText depth name below ++ (beside.indented depth false ++ tail))) := by
  simp [Forest.indented, Indented.line, indent, belowText]

end Lines

theorem reads_indented {f : Forest} (hf : f.Sound) {depth : Nat} {run tail : List Char}
    {d : String} {ms : List Mark} (hlead : Lead depth run d)
    (htail : ∀ run' d', Lead depth run' d' → Reads .markup (run' ++ tail) (textMarks d' ++ ms)) :
    Reads .markup (run ++ (f.indented depth false ++ tail))
      (((f.normal depth).withText d).marks.map Mark.unplaced ++ ms) := by
  -- the lines of text that wait in front are carried along, since the next text joins them
  induction f generalizing depth run tail d ms with
  | nil =>
    rw [Forest.normal, Forest.marks_withText_nil, Forest.indented_nil, List.nil_append]
    exact htail run d hlead
  | cons node below beside ihw ihb =>
    obtain ⟨hproper, hmarks, hholds, hbelow, hbeside⟩ := hf
    have hnext := ihb hbeside (Lead.lines lines_break) htail
    rw [Forest.withText_empty, List.singleton_append] at hnext
    obtain ⟨kind, p, ns?⟩ := node
    cases kind with
    | unset => cases hproper
    | text data =>
      have hdata : data ≠ "" := by
        rintro rfl
        exact hmarks _ List.mem_cons_self rfl
      rw [indented_text, ← List.append_assoc, Forest.normal, Forest.withText_prependText hdata]
      exact ihb hbeside (Lead.lines (hlead.textLine hdata)) htail
    | mustache e =>
      have he : IsExpression e := hmarks _ List.mem_cons_self
      rw [indented_mustache, Forest.normal, Forest.marks_withText_cons (by simp), List.append_assoc]
      exact hlead.reads (.inr rfl) (reads_mustache he hnext)
    | element name attributes =>
      obtain ⟨hname, hattributes⟩ : (Mark.opening name attributes p).Sound :=
        hmarks _ List.mem_cons_self
      have hin : ∀ tail ms, (∀ run d, Lead (depth + 1) run d →
          Reads .markup (run ++ tail) (textMarks d ++ ms)) →
          Reads .markup ('\n' :: (below.indented (depth + 1) false ++ tail))
            ((below.normal (depth + 1)).marks.map Mark.unplaced ++ ms) := by
        intro tail ms htail
        have hreads := ihw hbelow (Lead.lines lines_break) htail
        rwa [Forest.withText_empty, List.singleton_append] at hreads
      have hafter := reads_below attributes hname hholds.1 hholds.2 hin hnext
      have hopening := reads_openingTag hname hattributes hafter
      have hall := hlead.reads (.inr (opens_openingTag hname _ _)) hopening
      rw [indented_element, marks_normal_element hholds.1]
      simpa only [List.append_assoc] using hall

end Template
