import Template.Proofs.RoundTrip

namespace Template

namespace Text

/-- Nothing, or a line break with the blanks after it. -/
def IsLayout (cs : List Char) : Prop := cs = [] ∨ ∃ ws, cs = '\n' :: ws ∧ ∀ c ∈ ws, isBlank c = true

variable {cs : List Char}

theorem IsLayout.isBlank (h : IsLayout cs) : ∀ c ∈ cs, isBlank c = true := by
  rcases h with rfl | ⟨ws, rfl, hws⟩
  · exact List.forall_mem_nil _
  · exact List.forall_mem_cons.2 ⟨isBlank_lineFeed, hws⟩

theorem not_mem_of_isBlank (h : ∀ c ∈ cs, isBlank c = true) {x : Char} (hx : isBlank x = false) :
    x ∉ cs := by
  intro hmem
  rw [h x hmem] at hx
  cases hx

theorem IsLayout.clean (h : IsLayout cs) : Clean cs :=
  ⟨not_mem_of_isBlank h.isBlank rfl, not_mem_of_isBlank h.isBlank rfl⟩

theorem IsLayout.quiet (h : IsLayout cs) : Quiet cs := by
  refine quiet_of_forall ?_
  intro x hx
  constructor
  · rintro rfl
    exact not_mem_of_isBlank h.isBlank rfl hx
  · rintro rfl
    exact not_mem_of_isBlank h.isBlank rfl hx

theorem IsLayout.stripLayout_append (h : IsLayout cs) (rest : List Char) :
    ∃ inBreak, stripLayout (cs ++ rest) = stripLayoutFrom inBreak rest := by
  rcases h with rfl | ⟨ws, rfl, hws⟩
  · exact ⟨false, rfl⟩
  · exact ⟨true, stripLayoutFrom_blanks ws rest hws⟩

theorem IsLayout.stripLayout_eq_nil (h : IsLayout cs) : stripLayout cs = [] := by
  obtain ⟨inBreak, hstrip⟩ := h.stripLayout_append []
  rwa [List.append_nil] at hstrip

end Text

namespace CharRef

theorem decode_encode_nil (ctx : Context) (cs : List Char) : decode ctx (encode ctx cs) = cs := by
  have hdecode := decode_encode ctx cs []
  rwa [List.append_nil, decode_nil, List.append_nil] at hdecode

theorem decodeString_encodeString (ctx : Context) (s : String) :
    decodeString ctx (encodeString ctx s) = s := by
  rw [decodeString, encodeString, String.toList_ofList, decode_encode_nil, String.ofList_toList]

end CharRef

section Texts

variable {lead tail : List Char}

theorem before_opens_encoded (hlead : Text.IsLayout lead) (htail : Text.IsLayout tail)
    (cs : List Char) :
    Text.before Scan.opens (lead ++ (CharRef.encode .text cs ++ tail)) =
      lead ++ (CharRef.encode .text cs ++ tail) := by
  have hbrace : tail.head? ≠ some '{' := by
    intro h
    exact Text.not_mem_of_isBlank htail.isBlank rfl (List.mem_of_head? h)
  have hend := htail.quiet []
  rw [Text.before_nil, List.append_nil] at hend
  rw [hlead.quiet, before_opens_encode hbrace, hend]

theorem stripLayout_encoded (hlead : Text.IsLayout lead) (htail : Text.IsLayout tail)
    {cs : List Char} (hcs : cs ≠ []) :
    Text.stripLayout (lead ++ (CharRef.encode .text cs ++ tail)) = CharRef.encode .text cs := by
  obtain ⟨inBreak, hstrip⟩ := hlead.stripLayout_append (CharRef.encode .text cs ++ tail)
  have hend : Text.stripLayoutFrom false tail = [] := htail.stripLayout_eq_nil
  rw [hstrip, Text.stripLayoutFrom_encode_append hcs, hend, List.append_nil]

theorem Reading.lexemes_run {run : List Char} {d : String} (hne : d ≠ "")
    (hrun : Text.before Scan.opens run = run)
    (hd : CharRef.decode .text (Text.stripLayout run) = d.toList) (p : Position) :
    ∃ q r, lexemes ⟨.markup, ⟨p, run⟩⟩ = [.ok ⟨.text d, q⟩, .ok ⟨.endOfInput, r⟩] := by
  have hall : Text.before Scan.opens (run ++ []) = run := by rwa [List.append_nil]
  obtain ⟨q, hnext⟩ := next_run hne hall hd p
  rw [List.append_nil] at hnext
  refine ⟨q, p.after run, ?_⟩
  rw [lexemes_cons hnext (by simp), lexemes_nil]

theorem tokens_encoded_text {t lead tail : String} (ht : t ≠ "")
    (hlead : Text.IsLayout lead.toList) (htail : Text.IsLayout tail.toList) :
    ∃ p q, tokens (lead ++ CharRef.encodeString .text t ++ tail) =
      .ok [⟨.text t, p⟩, ⟨.endOfInput, q⟩] := by
  have hne : t.toList ≠ [] := fun h => ht (String.toList_eq_nil_iff.1 h)
  have hsource : lead ++ CharRef.encodeString .text t ++ tail =
      String.ofList (lead.toList ++ (CharRef.encode .text t.toList ++ tail.toList)) := by
    simp [CharRef.encodeString, String.append_assoc]
  have hclean : Text.Clean (lead.toList ++ (CharRef.encode .text t.toList ++ tail.toList)) := by
    rw [Text.clean_append, Text.clean_append]
    exact ⟨hlead.clean, CharRef.clean_encode _ _, htail.clean⟩
  have hdecode : CharRef.decode .text (Text.stripLayout
      (lead.toList ++ (CharRef.encode .text t.toList ++ tail.toList))) = t.toList := by
    rw [stripLayout_encoded hlead htail hne, CharRef.decode_encode_nil]
  obtain ⟨p, q, hlexemes⟩ :=
    Reading.lexemes_run ht (before_opens_encoded hlead htail t.toList) hdecode {}
  refine ⟨p, q, ?_⟩
  rw [hsource]
  exact tokens_ofList hclean hlexemes

end Texts

section Values

theorem Reading.lexemes_openingTag {name : String} {as : List Attribute} (hname : IsName name)
    (hopen : Element.isVoid name = false) (hraw : Element.isRawText name = false)
    (has : ∀ a ∈ as, a.Sound) (p : Position) :
    ∃ bs q r, lexemes ⟨.markup, ⟨p, Indented.openingTag name as⟩⟩ =
        [.ok ⟨.startTag name bs, q⟩, .ok ⟨.endOfInput, r⟩] ∧
      bs.map Attribute.unplaced = as.map fun a => a.plain.unplaced := by
  obtain ⟨bs, q, r, hnext, hbs⟩ := next_openingTag hname has [] p
  have hkind : Scan.tagKind name bs = .startTag name bs := by
    rw [Scan.tagKind, if_neg (by simp [hopen])]
  rw [List.append_nil, Mode.after_tagKind, hopen, hraw, hkind] at hnext
  refine ⟨bs, q, r, ?_, hbs⟩
  rw [lexemes_cons hnext (by simp)]
  exact congrArg _ (lexemes_nil r)

theorem tokens_encoded_value {key : String} (hkey : IsName key) (v : String) :
    ∃ p q r, tokens ("<a " ++ key ++ "=\"" ++ CharRef.encodeString .attribute v ++ "\">") =
      .ok [⟨.startTag "a" [⟨.string key v [], p⟩], q⟩, ⟨.endOfInput, r⟩] := by
  have hname : IsName "a" := ⟨⟨'a', [], rfl, rfl⟩, List.forall_mem_singleton.2 rfl⟩
  have hattributes : ∀ a ∈ [Attribute.mk (.string key v []) {}], a.Sound := by
    simpa [Attribute.Sound] using hkey
  have hsource : "<a " ++ key ++ "=\"" ++ CharRef.encodeString .attribute v ++ "\">" =
      String.ofList (Indented.openingTag "a" [⟨.string key v [], {}⟩]) := by
    rw [← String.toList_inj]
    simp [Indented.openingTag, Indented.attr, CharRef.encodeString]
  obtain ⟨bs, q, r, hlexemes, hbs⟩ :=
    Reading.lexemes_openingTag hname rfl rfl hattributes {}
  obtain ⟨b, rfl, hb⟩ := List.map_eq_singleton_iff.1 hbs
  obtain ⟨kind, p⟩ := b
  cases hb
  refine ⟨p, q, r, ?_⟩
  rw [hsource]
  exact tokens_ofList (clean_openingTag hname hattributes) hlexemes

end Values

/-- What is encoded decodes to what it was.  In a line of text it is one text, and between quotes
it is one value without mustaches. -/
theorem encoded_reads_back :
    (∀ (ctx : CharRef.Context) (s : String),
      CharRef.decodeString ctx (CharRef.encodeString ctx s) = s) ∧
    (∀ t lead tail : String, t ≠ "" → Text.IsLayout lead.toList → Text.IsLayout tail.toList →
      ∃ p q, tokens (lead ++ CharRef.encodeString .text t ++ tail) =
        .ok [⟨.text t, p⟩, ⟨.endOfInput, q⟩]) ∧
    ∀ key v : String, IsName key →
      ∃ p q r, tokens ("<a " ++ key ++ "=\"" ++ CharRef.encodeString .attribute v ++ "\">") =
        .ok [⟨.startTag "a" [⟨.string key v [], p⟩], q⟩, ⟨.endOfInput, r⟩] := by
  refine ⟨CharRef.decodeString_encodeString, ?_, ?_⟩
  · intro t lead tail ht hlead htail
    exact tokens_encoded_text ht hlead htail
  · intro key v hkey
    exact tokens_encoded_value hkey v

theorem encoded_markup_reads_back :
    CharRef.decodeString .attribute (CharRef.encodeString .attribute "&#32;\n") = "&#32;\n" ∧
    (∃ p q, tokens ("\n \t" ++ CharRef.encodeString .text " <b>\x7b\x7b&lt;\r\n" ++ "\n") =
      .ok [⟨.text " <b>\x7b\x7b&lt;\r\n", p⟩, ⟨.endOfInput, q⟩]) ∧
    ∃ p q r, tokens ("<a " ++ "k" ++ "=\"" ++
        CharRef.encodeString .attribute "\"\x7b\x7bb\x7d\x7d&" ++ "\">") =
      .ok [⟨.startTag "a" [⟨.string "k" "\"\x7b\x7bb\x7d\x7d&" [], p⟩], q⟩, ⟨.endOfInput, r⟩] := by
  refine ⟨encoded_reads_back.1 _ _, encoded_reads_back.2.1 _ _ _ ?_ ?_ ?_,
    encoded_reads_back.2.2 _ _ ⟨⟨'k', [], rfl, rfl⟩, List.forall_mem_singleton.2 rfl⟩⟩
  · decide
  · exact .inr ⟨[' ', '\t'], rfl, List.forall_mem_cons.2 ⟨rfl, List.forall_mem_singleton.2 rfl⟩⟩
  · exact .inr ⟨[], rfl, List.forall_mem_nil _⟩

end Template
