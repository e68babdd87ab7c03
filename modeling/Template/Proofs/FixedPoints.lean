import Template.Proofs.Bodies

/-! Rendering what was rendered.  Texts beside each other are joined when they are read back, which
costs a line for each of their seams, and the bodies of raw-text elements grow.  Where there are
neither, a rendering is read back as what renders the same. -/

namespace Template

namespace Forest

/-- The lines of the rendering, the bodies of raw-text elements aside. -/
def lines : Forest → Nat
  | .nil => 0
  | .cons node below beside =>
    (match node.kind with
      | .unset => below.lines
      | .element name _ => if Element.isVoid name then 1 else below.lines + 2
      | _ => 1) + beside.lines

def startsWithText : Forest → Bool
  | .cons ⟨.text _, _, _⟩ _ _ => true
  | _ => false

/-- The places where two texts stand side by side. -/
def seams : Forest → Nat
  | .nil => 0
  | .cons node below beside =>
    (match node.kind with
      | .text _ => if beside.startsWithText then 1 else 0
      | _ => 0) + below.seams + beside.seams

end Forest

section Indented

theorem Indented.attr_unplaced (a : Attribute) : attr a.unplaced = attr a := rfl

theorem Indented.attr_plain (a : Attribute) : attr a.plain = attr a := by
  obtain ⟨kind, p⟩ := a
  cases kind <;> rfl

theorem Indented.openingTag_map {f : Attribute → Attribute} (hf : ∀ a, attr (f a) = attr a)
    (name : String) (as : List Attribute) : openingTag name (as.map f) = openingTag name as := by
  simp only [openingTag, List.flatMap_map, hf]

theorem Forest.indented_unplaced (f : Forest) (depth : Nat) (raw : Bool) :
    f.unplaced.indented depth raw = f.indented depth raw := by
  induction f generalizing depth raw with
  | nil => rfl
  | cons node below beside ihw ihb =>
    obtain ⟨kind, p, ns?⟩ := node
    cases kind with
    | element name attributes =>
      simp only [unplaced, Node.unplaced, indented, ihw, ihb,
        Indented.openingTag_map Indented.attr_unplaced]
    | _ => simp only [unplaced, Node.unplaced, indented, ihw, ihb]

end Indented

namespace Forest

variable {f : Forest} {depth : Nat}

theorem lines_unplaced (f : Forest) : f.unplaced.lines = f.lines := by
  induction f with
  | nil => rfl
  | cons node below beside ihw ihb =>
    obtain ⟨kind, p, ns?⟩ := node
    cases kind <;> simp only [unplaced, Node.unplaced, lines, ihw, ihb]

theorem lines_prependText (data : String) (f : Forest) :
    (f.prependText data).lines + (if f.startsWithText then 1 else 0) = f.lines + 1 := by
  cases f with
  | nil => rfl
  | cons node below beside =>
    obtain ⟨kind, p, ns?⟩ := node
    cases kind <;> simp [prependText, startsWithText, lines] <;> omega

theorem startsWithText_prependText (data : String) (f : Forest) :
    (f.prependText data).startsWithText = true := by
  cases f with
  | nil => rfl
  | cons node below beside =>
    obtain ⟨kind, p, ns?⟩ := node
    cases kind <;> rfl

theorem startsWithText_normal (f : Forest) (depth : Nat) :
    (f.normal depth).startsWithText = f.startsWithText := by
  cases f with
  | nil => rfl
  | cons node below beside =>
    obtain ⟨kind, p, ns?⟩ := node
    cases kind with
    | text data => exact startsWithText_prependText data _
    | _ => rfl

theorem rawTexts_cons_eq_nil {node : Node} {below beside : Forest}
    (h : (Forest.cons node below beside).rawTexts depth = []) :
    (∀ name as, node.kind = .element name as → Element.isRawText name = false) ∧
      below.rawTexts (depth + 1) = [] ∧ beside.rawTexts depth = [] := by
  rw [rawTexts, List.append_eq_nil_iff, List.append_eq_nil_iff] at h
  obtain ⟨⟨hnode, hbelow⟩, hbeside⟩ := h
  refine ⟨?_, hbelow, hbeside⟩
  intro name as hkind
  rw [← Bool.not_eq_true]
  intro hraw
  rw [hkind] at hnode
  simp only [hraw, if_true] at hnode
  cases hnode

theorem Sound.lines_normal (h : f.Sound) (hraw : f.rawTexts depth = []) :
    (f.normal depth).lines + f.seams = f.lines := by
  induction f generalizing depth with
  | nil => rfl
  | cons node below beside ihw ihb =>
    obtain ⟨hproper, -, hholds, hbelow, hbeside⟩ := h
    obtain ⟨hnode, hrawBelow, hrawBeside⟩ := rawTexts_cons_eq_nil hraw
    have hw := ihw hbelow hrawBelow
    have hb := ihb hbeside hrawBeside
    obtain ⟨kind, p, ns?⟩ := node
    cases kind with
    | unset => cases hproper
    | text data =>
      have hnil : below = .nil := hholds
      have hjoin := lines_prependText data (beside.normal depth)
      rw [startsWithText_normal] at hjoin
      simp only [normal, seams, lines, hnil]
      omega
    | mustache e =>
      have hnil : below = .nil := hholds
      simp only [normal, seams, lines, hnil]
      omega
    | element name attributes =>
      simp only [normal, seams, lines, hnode name attributes rfl, Bool.false_eq_true, if_false]
      split
      · rename_i hvoid
        rw [hholds.1 hvoid, seams]
        omega
      · omega

end Forest

section LineFeeds

variable {name : String} {as : List Attribute} {f : Forest} {depth : Nat}

theorem IsName.lineFeed_notMem_toList (h : IsName name) : '\n' ∉ name.toList := by
  intro hmem
  cases h.chars _ hmem

theorem IsExpression.lineFeed_notMem_mustache {e : String} (h : IsExpression e) :
    '\n' ∉ Indented.mustache e := by
  have := h.no_break
  simp [Indented.mustache, this]

theorem Attribute.Sound.lineFeed_notMem {a : Attribute} (h : a.Sound) :
    '\n' ∉ Indented.attr a := by
  obtain ⟨kind, p⟩ := a
  cases kind with
  | string key value mustaches =>
    have hkey : '\n' ∉ key.toList := IsName.lineFeed_notMem_toList h
    have hvalue : '\n' ∉ CharRef.encode .attribute value.toList :=
      CharRef.not_mem_encode (by decide) _
    simp [Indented.attr, hkey, hvalue]
  | mustache key e => simp [Indented.attr, h.1.lineFeed_notMem_toList, h.2.lineFeed_notMem_mustache]
  | bool key => exact IsName.lineFeed_notMem_toList h
  | variadic e => simp [Indented.attr, IsExpression.lineFeed_notMem_mustache h]

theorem lineFeed_notMem_openingTag (hname : IsName name) (has : ∀ a ∈ as, a.Sound) :
    '\n' ∉ Indented.openingTag name as := by
  have hattributes : ∀ a ∈ as, '\n' ∉ Indented.attr a := fun a ha => (has a ha).lineFeed_notMem
  simpa [Indented.openingTag, hname.lineFeed_notMem_toList] using hattributes

theorem count_lineFeed_line {content : List Char} (h : '\n' ∉ content) (depth : Nat) :
    (Indented.line depth content).count '\n' = 1 := by
  simp [Indented.line, List.count_eq_zero_of_not_mem h, List.count_replicate]

theorem Forest.Sound.count_lineFeed_indented (h : f.Sound) (hraw : f.rawTexts depth = []) :
    (f.indented depth false).count '\n' = f.lines := by
  induction f generalizing depth with
  | nil => rfl
  | cons node below beside ihw ihb =>
    obtain ⟨hproper, hmarks, hholds, hbelow, hbeside⟩ := h
    obtain ⟨hnode, hrawBelow, hrawBeside⟩ := rawTexts_cons_eq_nil hraw
    have hw := ihw hbelow hrawBelow
    have hb := ihb hbeside hrawBeside
    obtain ⟨kind, p, ns?⟩ := node
    rw [indented, List.count_append, hb, lines]
    congr 1
    cases kind with
    | unset => cases hproper
    | text data => exact count_lineFeed_line (CharRef.not_mem_encode (by decide) _) depth
    | mustache e =>
      have he : IsExpression e := hmarks _ List.mem_cons_self
      exact count_lineFeed_line he.lineFeed_notMem_mustache depth
    | element name attributes =>
      obtain ⟨hname, hattributes⟩ : (Mark.opening name attributes p).Sound :=
        hmarks _ List.mem_cons_self
      have hopening := count_lineFeed_line (lineFeed_notMem_openingTag hname hattributes) depth
      have hclosing := count_lineFeed_line hname.lineFeed_notMem depth
      simp only [hnode name attributes rfl, List.count_append, hopening]
      split
      · rfl
      · rw [List.count_append, hw, hclosing]
        omega

end LineFeeds

section Fixed

variable {f : Forest} {depth : Nat}

theorem Forest.indented_prependText (data : String) (h : f.startsWithText = false) :
    (f.prependText data).indented depth false =
      Indented.line depth (Indented.text false data) ++ f.indented depth false := by
  cases f with
  | nil => rfl
  | cons node below beside =>
    obtain ⟨kind, p, ns?⟩ := node
    cases kind with
    | text data' => cases h
    | _ => rfl

theorem Forest.Sound.indented_normal (h : f.Sound) (hraw : f.rawTexts depth = [])
    (hseams : f.seams = 0) : (f.normal depth).indented depth false = f.indented depth false := by
  induction f generalizing depth with
  | nil => rfl
  | cons node below beside ihw ihb =>
    obtain ⟨hproper, -, hholds, hbelow, hbeside⟩ := h
    obtain ⟨hnode, hrawBelow, hrawBeside⟩ := rawTexts_cons_eq_nil hraw
    rw [seams, Nat.add_eq_zero_iff, Nat.add_eq_zero_iff] at hseams
    obtain ⟨⟨hseam, hseamsBelow⟩, hseamsBeside⟩ := hseams
    have hw := ihw hbelow hrawBelow hseamsBelow
    have hb := ihb hbeside hrawBeside hseamsBeside
    obtain ⟨kind, p, ns?⟩ := node
    cases kind with
    | unset => cases hproper
    | text data =>
      have hstart : beside.startsWithText = false := by
        cases hstart : beside.startsWithText with
        | false => rfl
        | true =>
          rw [hstart] at hseam
          cases hseam
      rw [normal, indented_prependText data (by rw [startsWithText_normal, hstart]), hb, indented]
    | mustache e => simp only [normal, indented, hb]
    | element name attributes =>
      have hopening := Indented.openingTag_map Indented.attr_plain name attributes
      simp only [normal, indented, hnode name attributes rfl, hopening, hb, hw, Bool.false_eq_true,
        if_false]

end Fixed

namespace Document

variable {d d' : Document}

theorem Reread.render_eq (h : d.Reread d') :
    d'.render = String.ofList ((d.forest.normal 0).indented 0 false) := by
  rw [(sound_of_parse h.parse).2, ← d'.forest.indented_unplaced, h.forest,
    Forest.indented_unplaced]

theorem Reread.rawTexts_eq_nil (h : d.Reread d') (hrender : d'.render = d.render) :
    d.forest.rawTexts 0 = [] := by
  obtain ⟨d'', hreread⟩ := exists_reread h.parse
  have hsame := hreread.parse
  rw [hrender, h.parse, Except.ok.injEq] at hsame
  subst hsame
  -- read back once more `d'` is itself, but every body grows when it is read back
  have hgrown := hreread.rawTexts_eq
  have hnone : d'.forest.rawTexts 0 = [] := by
    rw [List.eq_nil_iff_forall_not_mem]
    intro r hr
    have hfixed := List.map_inj_left.1 (hgrown.symm.trans (List.map_id _).symm) r hr
    exact r.children_reread_ne (congrArg RawText.children hfixed)
  rw [h.rawTexts_eq, List.map_eq_nil_iff] at hnone
  exact hnone

/-- A document that is rendered can be read back and rendered again.  This gives the same rendering
exactly if it has no raw-text element and no two texts side by side. -/
theorem render_eq_iff {source : String} (h : Document.parse source = .ok d) :
    ∃ d', Document.parse d.render = .ok d' ∧
      (d'.render = d.render ↔ d.forest.rawTexts 0 = [] ∧ d.forest.seams = 0) := by
  obtain ⟨d', hreread⟩ := exists_reread h
  refine ⟨d', hreread.parse, ?_, ?_⟩
  · intro hrender
    have hraw := hreread.rawTexts_eq_nil hrender
    have hraw' : d'.forest.rawTexts 0 = [] := by rw [hreread.rawTexts_eq, hraw, List.map_nil]
    have hcount := congrArg (fun s => s.toList.count '\n') hrender
    simp only [(sound_of_parse h).2, (sound_of_parse hreread.parse).2, String.toList_ofList,
      hreread.sound.count_lineFeed_indented hraw,
      hreread.sound'.count_lineFeed_indented hraw'] at hcount
    have hlines := hreread.sound.lines_normal hraw
    rw [← Forest.lines_unplaced, ← hreread.forest, Forest.lines_unplaced] at hlines
    exact ⟨hraw, by omega⟩
  · rintro ⟨hraw, hseams⟩
    rw [hreread.render_eq, hreread.sound.indented_normal hraw hseams, (sound_of_parse h).2]

theorem render_eq_iff_nested :
    ∃ d, Document.parse "<p>a<br>b</p><p>c<!-- -->d</p>" = .ok d ∧
      ∃ d', Document.parse d.render = .ok d' ∧
        (d'.render = d.render ↔ d.forest.rawTexts 0 = [] ∧ d.forest.seams = 0) := by
  have hok : (Document.parse "<p>a<br>b</p><p>c<!-- -->d</p>").isOk = true := by decide +kernel
  obtain ⟨d, hd⟩ := exists_parse_of_isOk hok
  exact ⟨d, hd, render_eq_iff hd⟩

theorem render_changes_behind_comment :
    ∃ d d', Document.parse "a<!---->b" = .ok d ∧ d.forest.rawTexts 0 = [] ∧
      Document.parse d.render = .ok d' ∧ d.render = "a\nb\n" ∧ d'.render = "ab\n" := by
  have hall : (Document.parse "a<!---->b").toOption.any (fun d =>
      (Document.parse d.render).toOption.any fun d' =>
        d.forest.rawTexts 0 = [] && d.render = "a\nb\n" && d'.render = "ab\n") = true := by
    decide +kernel
  simp only [Option.any_eq_true, Bool.and_eq_true, decide_eq_true_eq] at hall
  obtain ⟨d, hd, d', hd', ⟨hraw, hfirst⟩, hsecond⟩ := hall
  exact ⟨d, d', parse_of_toOption hd, hraw, parse_of_toOption hd', hfirst, hsecond⟩

end Document

end Template
