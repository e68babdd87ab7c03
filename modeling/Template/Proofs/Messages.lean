import Template.Proofs.Breaks
import Template.Proofs.Causes

namespace Template

section Digits

theorem exists_digitChar_of_mem {base : Nat} (hone : 1 < base) (hbase : base ≤ 16) {n : Nat}
    {c : Char} (h : c ∈ Nat.toDigits base n) : ∃ d < 16, c = Nat.digitChar d := by
  induction n using Nat.strongRecOn with
  | ind n ih =>
    rw [Nat.toDigits_eq_if hone] at h
    split at h
    · rename_i hlt
      exact ⟨n, by omega, List.mem_singleton.1 h⟩
    · rename_i hge
      have hmod := Nat.mod_lt n (Nat.zero_lt_of_lt hone)
      have hdiv : n / base < n := Nat.div_lt_self (by omega) hone
      rcases List.mem_append.1 h with h | h
      · exact ih _ hdiv h
      · exact ⟨n % base, by omega, List.mem_singleton.1 h⟩

theorem lineFeed_ne_digitChar : ∀ n < 16, '\n' ≠ Nat.digitChar n := by decide

theorem lineFeed_notMem_toDigits {base : Nat} (hone : 1 < base) (hbase : base ≤ 16) (n : Nat) :
    '\n' ∉ Nat.toDigits base n := by
  intro hmem
  obtain ⟨d, hd, heq⟩ := exists_digitChar_of_mem hone hbase hmem
  exact lineFeed_ne_digitChar d hd heq

theorem Position.lineFeed_notMem_display (p : Position) : '\n' ∉ p.display.toList := by
  simp [display, lineFeed_notMem_toDigits (show 1 < 10 by decide) (show 10 ≤ 16 by decide)]

end Digits

namespace Text.Quoted

theorem lineFeed_notMem_hexEscape (c : Char) : '\n' ∉ hexEscape c := by
  simp [hexEscape, lineFeed_notMem_toDigits (show 1 < 16 by decide) (Nat.le_refl 16)]

theorem lineFeed_notMem_encodeChar {q : Char} (plain : Char → Bool) (hq : q ≠ '\n') (c : Char) :
    '\n' ∉ encodeChar plain q c := by
  unfold encodeChar
  split
  · decide
  · decide
  · decide
  · decide
  · decide
  · rename_i hlf _
    split
    · simp [Ne.symm hq]
    · split
      · simpa using Ne.symm hlf
      · exact lineFeed_notMem_hexEscape c

theorem lineFeed_notMem_char (c : Char) : '\n' ∉ (char c).toList := by
  have hchar := lineFeed_notMem_encodeChar (q := '\'') isPlain (by decide) c
  simp [char, encode, hchar]

end Text.Quoted

namespace SyntaxError.Cause

theorem lineFeed_notMem_around {front name back : String} (hfront : '\n' ∉ front.toList)
    (hname : '\n' ∉ name.toList) (hback : '\n' ∉ back.toList) :
    '\n' ∉ (front ++ name ++ back).toList := by
  rw [String.toList_append, String.toList_append, List.mem_append, List.mem_append, not_or, not_or]
  exact ⟨⟨hfront, hname⟩, hback⟩

theorem lineFeed_notMem_void {name : String} (h : Element.isVoid name = true) :
    '\n' ∉ name.toList := by
  have hall : ∀ name ∈ Element.voidNames, '\n' ∉ name.toList := by decide
  exact hall name (List.contains_iff_mem.1 h)

theorem Lexical.lineFeed_notMem {cause : Cause} (h : cause.Lexical) :
    '\n' ∉ cause.message.toList := by
  cases h with
  | unexpected found =>
    unfold message
    split
    · decide
    · decide
    · simp [Text.Quoted.lineFeed_notMem_char]
    all_goals contradiction
  | unclosedSlash found =>
    unfold message
    split
    · contradiction
    · contradiction
    · contradiction
    · decide
    · exact lineFeed_notMem_around (by decide) (Text.Quoted.lineFeed_notMem_char _) (by decide)
    all_goals contradiction
  | emptyMustache => decide
  | voidClosingTag hvoid =>
    exact lineFeed_notMem_around (by decide) (lineFeed_notMem_void hvoid) (by decide)

end SyntaxError.Cause

section Names

def Bracket.name : Bracket → String
  | .opening name => name
  | .closing name => name

def Token.Unbroken (t : Token) : Prop := ∀ b ∈ t.brackets, '\n' ∉ b.name.toList

namespace Scan

variable {P : List Char → Prop}

theorem gives_unbroken_name : Gives P name fun n => '\n' ∉ n.toList := by
  intro c _ _ n d h
  cases h
  rw [String.toList_ofList]
  intro hmem
  cases List.all_eq_true.1 List.all_takeWhile '\n' hmem

theorem unbroken_tagKind {name : String} (hname : '\n' ∉ name.toList) (attributes : List Attribute)
    (p : Position) : Token.Unbroken ⟨tagKind name attributes, p⟩ := by
  unfold tagKind
  split
  · exact List.forall_mem_nil _
  · exact List.forall_mem_singleton.2 hname

theorem gives_unbroken_startTag (start : Position) :
    Gives P (startTag start) Token.Unbroken := by
  refine gives_bind forward_name gives_unbroken_name fun name hname =>
    gives_seq forward_attributes fun attributes => gives_seq forward_read fun _ => ?_
  split
  · exact gives_pure (unbroken_tagKind hname attributes start)
  · exact gives_seq forward_position fun _ => gives_seq forward_peek fun _ =>
      gives_seq (forward_require _ _ _) fun _ => gives_seq (forward_skip 1) fun _ =>
        gives_pure (List.forall_mem_nil _)
  · exact gives_seq forward_position fun _ => gives_fail _ _

theorem gives_unbroken_body (opening : Opening) (start : Position) :
    Gives P (body opening start) Token.Unbroken := by
  cases opening with
  | endTag =>
    exact gives_bind forward_name gives_unbroken_name fun name hname =>
      gives_seq (forward_expect _) fun _ => gives_seq (forward_require _ _ _) fun _ =>
        gives_pure (List.forall_mem_singleton.2 hname)
  | comment =>
    exact gives_seq (forward_takeBefore _) fun _ => gives_seq (forward_skip 3) fun _ =>
      gives_pure (List.forall_mem_nil _)
  | startTag => exact gives_unbroken_startTag start
  | mustache =>
    exact gives_seq forward_mustacheBody fun _ => gives_pure (List.forall_mem_nil _)

theorem gives_unbroken_construct : Gives P construct Token.Unbroken := by
  refine gives_nextPosition fun start => gives_get fun c => ?_
  split
  · exact gives_pure (List.forall_mem_nil _)
  · exact gives_seq (forward_skip _) fun _ => gives_unbroken_body _ start

theorem unbroken_of_textToken? {c : Cursor} {run : List Char} {t : Token}
    (h : textToken? c run = some t) : t.Unbroken := by
  obtain ⟨data, hdata⟩ := kind_of_textToken? h
  rw [Token.Unbroken, Token.brackets, hdata]
  exact List.forall_mem_nil _

theorem gives_unbroken_markup : Gives P markup Token.Unbroken := by
  have htext : Gives P text? fun o => ∀ t ∈ o, t.Unbroken := by
    intro c _ _ o d h t ht
    rw [text?_apply] at h
    cases h
    exact unbroken_of_textToken? ht
  refine gives_bind forward_text? htext fun o ho => ?_
  cases o with
  | some t => exact gives_pure (ho t rfl)
  | none => exact gives_unbroken_construct

theorem gives_unbroken_rawText {name : String} (hname : '\n' ∉ closingTag name) :
    Gives P (rawText name) Token.Unbroken := by
  intro c _ _ t d h
  cases rawText_eq_ok h with
  | text => exact List.forall_mem_nil _
  | endTag =>
    refine List.forall_mem_singleton.2 ?_
    intro hmem
    exact hname (List.mem_append_left _ (List.mem_append_right _ hmem))

end Scan

namespace Reading

variable {s u : Reading} {t : Token}

theorem unbroken_of_next (h : s.next = (.ok t, u)) (hclean : Text.Clean s.cursor.rest)
    (hmode : s.mode.Unbroken) : t.Unbroken := by
  have hgives : Scan.Gives Scan.Anywhere s.mode.token Token.Unbroken := by
    cases hs : s.mode with
    | markup => exact Scan.gives_unbroken_markup
    | rawText name => exact Scan.gives_unbroken_rawText (hmode name hs)
  rw [next] at h
  cases hs : s.mode.token s.cursor with
  | error e d =>
    rw [hs] at h
    cases h
  | ok t' d =>
    rw [hs] at h
    cases h
    exact hgives s.cursor hclean trivial t d hs

theorem Mode.Unbroken.next (h : s.mode.Unbroken) : s.next.2.mode.Unbroken := by
  rw [Reading.next]
  cases s.mode.token s.cursor with
  | error e d => exact unbroken_markup
  | ok t d => exact h.after t.kind

theorem Scans.unbroken {ls : List Lexeme} (h : Scans s ls u) (hmode : s.mode.Unbroken) :
    u.mode.Unbroken := by
  induction h with
  | nil s => exact hmode
  | cons hnext _ _ ih =>
    have hafter := hmode.next
    rw [hnext] at hafter
    exact ih hafter

end Reading

theorem Token.unbroken_of_mem {source : String} {t : Token} (h : .ok t ∈ lexemes source) :
    t.Unbroken := by
  obtain ⟨ls, rest, hls⟩ := List.append_of_mem h
  obtain ⟨s, hscans, hs⟩ := Reading.exists_scans hls (List.cons_ne_nil _ _)
  obtain ⟨hnext, -⟩ := Reading.lexemes_eq_cons hs
  exact Reading.unbroken_of_next (Prod.ext hnext rfl)
    (hscans.reaches.clean (Text.clean_normalize _)) (hscans.unbroken Reading.Mode.unbroken_markup)

end Names

namespace SyntaxError

theorem lineFeed_notMem_display {e : SyntaxError} (h : '\n' ∉ e.message.toList) :
    '\n' ∉ e.display.toList := by
  rw [display, String.toList_append, String.toList_append, List.mem_append, List.mem_append,
    not_or, not_or]
  exact ⟨⟨e.position.lineFeed_notMem_display, by decide⟩, h⟩

end SyntaxError

theorem Reading.lineFeed_notMem_display {s : Reading} {e : SyntaxError} (h : .error e ∈ s.lexemes) :
    '\n' ∉ e.display.toList :=
  SyntaxError.lineFeed_notMem_display (lexical_of_mem h).lineFeed_notMem

theorem Document.lineFeed_notMem_display {source : String} {e : SyntaxError}
    (h : parse source = .error (.malformed e)) : '\n' ∉ e.display.toList := by
  cases blame_of_parse h with
  | lexeme he => exact Reading.lineFeed_notMem_display he
  | closing ht =>
    have hname := Token.unbroken_of_mem ht _ List.mem_cons_self
    exact SyntaxError.lineFeed_notMem_display
      (SyntaxError.Cause.lineFeed_notMem_around (by decide) hname (by decide))
  | opening ht hbracket =>
    have hname := Token.unbroken_of_mem ht _ hbracket
    exact SyntaxError.lineFeed_notMem_display
      (SyntaxError.Cause.lineFeed_notMem_around (by decide) hname (by decide))

end Template
