import Template.Proofs.Parsing
import Template.Proofs.Vocabulary

namespace Template

structure IsBody (name b : String) : Prop where
  ne_nil : b.toList ≠ []
  clean : Text.Clean b.toList
  no_close : ¬ Scan.closingTag name <:+: b.toList

def Mark.Sound : Mark → Prop
  | .opening name attributes _ => IsName name ∧ ∀ a ∈ attributes, a.Sound
  | .closing _ => True
  | .text data _ => data.toList ≠ []
  | .mustache expression _ => IsExpression expression

def ClosesBody (name : String) (ms : List Mark) : Prop :=
  ms.head? = some (.closing name) ∨
    ∃ b p v, ms = .text b p :: .closing name :: v ∧ IsBody name b

def Mark.Leads (m : Mark) (ms : List Mark) : Prop :=
  match m with
  | .opening name _ _ =>
    (Element.isVoid name = true → ms.head? = some (.closing name)) ∧
      (Element.isRawText name = true → ClosesBody name ms)
  | _ => True

def Regular : List Mark → Prop
  | [] => True
  | m :: ms => m.Sound ∧ m.Leads ms ∧ Regular ms

theorem Regular.of_append {as bs : List Mark} (h : Regular (as ++ bs)) : Regular bs := by
  induction as with
  | nil => exact h
  | cons a as ih => exact ih h.2.2

namespace Reading

variable {c : Cursor} {name : String} {t : Token} {s : Reading}

theorem isBody_before {cs : List Char} (hc : Text.Clean cs)
    (hne : Text.before (Scan.closingTag name).isPrefixOf cs ≠ []) :
    IsBody name (String.ofList (Text.before (Scan.closingTag name).isPrefixOf cs)) := by
  have hsplit := Text.before_append_drop (Scan.closingTag name).isPrefixOf cs
  constructor
  · rwa [String.toList_ofList]
  · rw [String.toList_ofList]
    refine hc.of_subset ?_
    conv => rhs; rw [← hsplit]
    exact List.subset_append_left _ _
  · rw [String.toList_ofList]
    rintro ⟨u, v, huv⟩
    have hlt : u.length < (Text.before (Scan.closingTag name).isPrefixOf cs).length := by
      rw [← huv]
      simp [Scan.closingTag]
    have hminimal := Text.before_minimal _ cs hlt
    rw [← hsplit, ← huv, List.append_assoc, List.append_assoc, List.drop_left,
      List.isPrefixOf_iff_prefix.2 (List.prefix_append _ _)] at hminimal
    cases hminimal

theorem next_rawText (h : next ⟨.rawText name, c⟩ = (.ok t, s)) :
    (t.kind = .endTag name ∧ s.mode = .markup) ∨
      ∃ b, t.kind = .text b ∧ (Text.Clean c.rest → IsBody name b) ∧ s.mode = .rawText name ∧
        (Scan.closingTag name).isPrefixOf s.cursor.rest = true := by
  simp only [next, Mode.token, Scan.rawText_apply] at h
  by_cases hclose : (Scan.closingTag name).isPrefixOf
      (c.skip (Text.before (Scan.closingTag name).isPrefixOf c.rest).length).rest = true
  · by_cases hbody : Text.before (Scan.closingTag name).isPrefixOf c.rest = []
    · rw [if_pos hclose, if_pos hbody] at h
      cases h
      exact .inl ⟨rfl, rfl⟩
    · rw [if_pos hclose, if_neg hbody] at h
      cases h
      exact .inr ⟨_, rfl, fun hc => isBody_before hc hbody, rfl, hclose⟩
  · rw [if_neg hclose] at h
    cases h

theorem next_of_isPrefixOf (h : (Scan.closingTag name).isPrefixOf c.rest = true) :
    (next ⟨.rawText name, c⟩).1 = .ok ⟨.endTag name, c.nextPosition⟩ := by
  have hbefore := Text.before_of_pos (p := (Scan.closingTag name).isPrefixOf) h
  simp only [next, Mode.token, Scan.rawText_apply, hbefore, List.length_nil, Cursor.skip_zero,
    if_pos h, if_true]

theorem reaches_next (s : Reading) : s.cursor.Reaches s.next.2.cursor := by
  have hforward : Scan.Forward s.mode.token := by
    cases s.mode with
    | markup => exact Scan.forward_markup
    | rawText name => exact Scan.forward_rawText name
  rw [next]
  cases h : s.mode.token s.cursor with
  | ok t d => exact hforward.ok h
  | error e d => exact hforward.error h

theorem regular_marks {ms : List Mark} (ht : t.Sound) (hms : Regular ms)
    (hbody : ∀ name, Mode.after .markup t.kind = .rawText name → ClosesBody name ms) :
    Regular (t.marks ++ ms) := by
  obtain ⟨kind, p⟩ := t
  cases kind with
  | endOfInput => exact hms
  | comment data => exact hms
  | text data => exact ⟨ht, trivial, hms⟩
  | mustache expression => exact ⟨ht, trivial, hms⟩
  | endTag name => exact ⟨trivial, trivial, hms⟩
  | selfClosingTag name attributes =>
    exact ⟨ht, ⟨fun _ => rfl, fun _ => .inl rfl⟩, trivial, trivial, hms⟩
  | startTag name attributes =>
    obtain ⟨hname, hvoid, hattributes⟩ := ht
    refine ⟨⟨hname, hattributes⟩, ⟨?_, ?_⟩, hms⟩
    · intro hvoid'
      rw [hvoid] at hvoid'
      cases hvoid'
    · intro hraw
      exact hbody name (if_pos hraw)

theorem next_markup (h : next ⟨.markup, c⟩ = (.ok t, s)) :
    Scan.markup c = .ok t s.cursor ∧ s.mode = Mode.after .markup t.kind := by
  simp only [next, Mode.token] at h
  cases hm : Scan.markup c with
  | ok t' d =>
    rw [hm] at h
    cases h
    exact ⟨rfl, rfl⟩
  | error e d =>
    rw [hm] at h
    cases h

theorem lexemes_of_isPrefixOf {ts : List Token}
    (hclose : (Scan.closingTag name).isPrefixOf c.rest = true)
    (h : lexemes ⟨.rawText name, c⟩ = ts.map .ok) :
    ∃ p us, ts = ⟨.endTag name, p⟩ :: us := by
  have hnext := next_of_isPrefixOf hclose
  rw [lexemes_of_not_isEnd (by simp [hnext, Lexeme.isEnd]), hnext] at h
  cases ts with
  | nil => cases h
  | cons t us =>
    rw [List.map_cons, List.cons.injEq, Except.ok.injEq] at h
    exact ⟨_, us, by rw [h.1]⟩

structure Mode.Meets (mode : Mode) (ms : List Mark) : Prop where
  regular : Regular ms
  body : ∀ name, mode = .rawText name → ClosesBody name ms

theorem meets_end {p : Position} (h : s.next.1 = .ok ⟨.endOfInput, p⟩) : s.mode.Meets [] where
  regular := trivial
  body := by
    intro name hmode
    obtain ⟨mode, c⟩ := s
    cases hmode
    -- no step in raw text meets the end of the input
    rcases next_rawText (Prod.ext h rfl) with ⟨hkind, -⟩ | ⟨b, hkind, -⟩ <;> cases hkind

theorem meets_markup {ms : List Mark} (h : next ⟨.markup, c⟩ = (.ok t, s))
    (hc : Text.Clean c.rest) (hms : s.mode.Meets ms) : Mode.markup.Meets (t.marks ++ ms) where
  regular := by
    obtain ⟨hmarkup, hmode⟩ := next_markup h
    have hsound : t.Sound := Scan.gives_markup (P := Scan.Anywhere) c hc trivial t _ hmarkup
    refine regular_marks hsound hms.regular ?_
    intro name hname
    exact hms.body name (hmode.trans hname)
  body := by
    intro name hmode
    cases hmode

theorem meets_rawText {ts : List Token} (h : next ⟨.rawText name, c⟩ = (.ok t, s))
    (hc : Text.Clean c.rest) (hts : s.lexemes = ts.map .ok)
    (hms : s.mode.Meets (ts.flatMap Token.marks)) :
    (Mode.rawText name).Meets (t.marks ++ ts.flatMap Token.marks) := by
  obtain ⟨kind, p⟩ := t
  rcases next_rawText h with ⟨rfl, -⟩ | ⟨b, rfl, hb, hmode, hclose⟩
  · refine ⟨⟨trivial, trivial, hms.regular⟩, ?_⟩
    rintro name' ⟨⟩
    exact .inl rfl
  · -- the text ends where its closing tag stands, which is the next token
    have hstate : s = ⟨.rawText name, s.cursor⟩ := by rw [← hmode]
    rw [hstate] at hts
    obtain ⟨q, us, rfl⟩ := lexemes_of_isPrefixOf hclose hts
    have hbody := hb hc
    refine ⟨⟨hbody.ne_nil, trivial, hms.regular⟩, ?_⟩
    rintro name' ⟨⟩
    exact .inr ⟨b, p, _, rfl, hbody⟩

theorem meets_lexemes (s : Reading) (hc : Text.Clean s.cursor.rest) {ts : List Token}
    (h : s.lexemes = ts.map .ok) : s.mode.Meets (ts.flatMap Token.marks) := by
  induction s using Reading.lexemes.induct generalizing ts with
  | case1 s step hend =>
    obtain ⟨p, hp⟩ := Lexeme.isEnd_iff.1 hend
    rw [lexemes_of_isEnd hend, show s.next.1 = _ from hp] at h
    have hts : ts = [⟨.endOfInput, p⟩] := by
      cases ts with
      | nil => cases h
      | cons t ts => simpa [eq_comm] using h
    rw [hts]
    exact meets_end hp
  | case2 s step hend ih =>
    rw [lexemes_of_not_isEnd hend] at h
    cases ts with
    | nil => cases h
    | cons t ts =>
      rw [List.map_cons, List.cons.injEq] at h
      obtain ⟨hfirst, hrest⟩ := h
      have hms := ih ((reaches_next s).clean hc) hrest
      have hnext : s.next = (.ok t, step.2) := Prod.ext hfirst rfl
      obtain ⟨mode, c⟩ := s
      cases mode with
      | markup => exact meets_markup hnext hc hms
      | rawText name => exact meets_rawText hnext hc hrest hms

end Reading

theorem regular_of_tokens {source : String} {ts : List Token} (h : tokens source = .ok ts) :
    Regular (ts.flatMap Token.marks) :=
  ((Reading.ofString source).meets_lexemes (Text.clean_normalize _) (eq_map_of_mapM h)).regular

end Template
