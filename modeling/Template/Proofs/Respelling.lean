import Template.Proofs.Rescan

/-! Reading what is rendered.  Lines of text gather in a run until a construct follows them; there
they become one text, and the construct is read back.  So a rendered forest is read as its normal
form. -/

namespace Template

/-- Wherever `cs` stands, it is read to the end of the input, and its marks are `ms`. -/
def Reads (mode : Reading.Mode) (cs : List Char) (ms : List Mark) : Prop :=
  ∀ p, ∃ ts : List Token, Reading.lexemes ⟨mode, ⟨p, cs⟩⟩ = ts.map .ok ∧
    (ts.flatMap Token.marks).map Mark.unplaced = ms

def textMarks (d : String) : List Mark := if d = "" then [] else [.text d {}]

section Steps

variable {mode mode' : Reading.Mode} {cs rest : List Char} {ms us : List Mark}

theorem Reading.lexemes_congr {s s' : Reading} (h : s.next = s'.next) : s.lexemes = s'.lexemes := by
  rw [Reading.lexemes, h, ← Reading.lexemes]

theorem Reading.lexemes_cons {s s' : Reading} {t : Token} (h : s.next = (.ok t, s'))
    (ht : t.kind ≠ .endOfInput) : s.lexemes = .ok t :: s'.lexemes := by
  have hnot : ¬ s.next.1.isEnd = true := by
    rw [h, Lexeme.isEnd_iff]
    rintro ⟨p, hp⟩
    exact ht (congrArg Token.kind (Except.ok.inj hp))
  rw [Reading.lexemes_of_not_isEnd hnot, h]

theorem reads_step
    (h : ∀ p, ∃ t q, Reading.next ⟨mode, ⟨p, cs⟩⟩ = (.ok t, ⟨mode', ⟨q, rest⟩⟩) ∧
      t.kind ≠ .endOfInput ∧ t.marks.map Mark.unplaced = us)
    (hrest : Reads mode' rest ms) : Reads mode cs (us ++ ms) := by
  intro p
  obtain ⟨t, q, hnext, hend, hmarks⟩ := h p
  obtain ⟨ts, hts, hms⟩ := hrest q
  refine ⟨t :: ts, ?_, ?_⟩
  · rw [Reading.lexemes_cons hnext hend, hts]
    rfl
  · rw [List.flatMap_cons, List.map_append, hmarks, hms]

theorem Reading.lexemes_nil (p : Position) :
    lexemes ⟨.markup, ⟨p, []⟩⟩ = [.ok ⟨.endOfInput, p⟩] := by
  have hnext : next ⟨.markup, ⟨p, []⟩⟩ = (.ok ⟨.endOfInput, p⟩, ⟨.markup, ⟨p, []⟩⟩) := by
    simp only [next, Mode.token, Scan.markup_of_rest_eq_nil, Mode.after]
  rw [lexemes_of_isEnd (by rw [hnext]; rfl), hnext]

theorem tokens_ofList {ts : List Token} (hcs : Text.Clean cs)
    (h : Reading.lexemes ⟨.markup, ⟨{}, cs⟩⟩ = ts.map .ok) :
    tokens (String.ofList cs) = .ok ts := by
  rw [tokens, lexemes, Reading.ofString, String.toList_ofList,
    Text.normalize_eq_self hcs.1 hcs.2, h, mapM_ok]

theorem reads_nil : Reads .markup [] [] :=
  fun p => ⟨[⟨.endOfInput, p⟩], Reading.lexemes_nil p, rfl⟩

theorem Reading.next_congr {c c' : Cursor} (h : Scan.markup c = Scan.markup c') :
    next ⟨.markup, c⟩ = next ⟨.markup, c'⟩ := by
  simp only [next, Mode.token, h]

theorem Reading.next_run {run : List Char} {d : String} (hne : d ≠ "")
    (hrun : Text.before Scan.opens (run ++ cs) = run)
    (hd : CharRef.decode .text (Text.stripLayout run) = d.toList) (p : Position) :
    ∃ q, next ⟨.markup, ⟨p, run ++ cs⟩⟩ = (.ok ⟨.text d, q⟩, ⟨.markup, ⟨p.after run, cs⟩⟩) := by
  have hskip : Cursor.skip ⟨p, run ++ cs⟩ run.length = ⟨p.after run, cs⟩ := by
    simp [Cursor.skip]
  have hmarkup := Scan.markup_apply ⟨p, run ++ cs⟩
  simp only [hrun, hskip, Scan.textToken?] at hmarkup
  cases hstrip : Text.stripLayout run with
  | nil =>
    rw [hstrip, CharRef.decode_nil] at hd
    exact absurd (String.toList_eq_nil_iff.1 hd.symm) hne
  | cons x xs =>
    rw [hstrip] at hmarkup hd
    simp only [next, Mode.token, hmarkup, hd, String.ofList_toList]
    exact ⟨_, rfl⟩

theorem reads_run {run : List Char} {d : String} (hcs : cs = [] ∨ Scan.opens cs = true)
    (hrun : Text.before Scan.opens (run ++ cs) = run)
    (hd : CharRef.decode .text (Text.stripLayout run) = d.toList) (h : Reads .markup cs ms) :
    Reads .markup (run ++ cs) (textMarks d ++ ms) := by
  intro p
  obtain ⟨ts, hts, hms⟩ := h (p.after run)
  by_cases hempty : d = ""
  · -- layout alone gives no token: the step is that of what follows it
    have hskip : Cursor.skip ⟨p, run ++ cs⟩ run.length = ⟨p.after run, cs⟩ := by
      simp [Cursor.skip]
    have hmarkup := Scan.markup_apply ⟨p, run ++ cs⟩
    have hstrip : Text.stripLayout run = [] := by
      rw [← CharRef.decode_eq_nil_iff, hd, hempty]
      rfl
    simp only [hrun, hskip, Scan.textToken?, hstrip] at hmarkup
    rw [← Scan.markup_of_opens hcs] at hmarkup
    have hnext := Reading.next_congr hmarkup
    refine ⟨ts, (Reading.lexemes_congr hnext).trans hts, ?_⟩
    rw [hms, textMarks, if_pos hempty, List.nil_append]
  · obtain ⟨q, hnext⟩ := Reading.next_run hempty hrun hd p
    refine ⟨⟨.text d, q⟩ :: ts, ?_, ?_⟩
    · rw [Reading.lexemes_cons hnext (by simp), hts]
      rfl
    · rw [List.flatMap_cons, List.map_append, hms, textMarks, if_neg hempty]
      rfl

theorem Opening.opens_of_of? {opening : Opening} (h : Opening.of? cs = some opening) :
    Scan.opens cs = true := by
  rw [Scan.opens, h]
  rfl

theorem Reading.next_construct {opening : Opening} (ho : Opening.of? cs = some opening)
    {Q : Token → Prop}
    (hbody : ∀ start,
      Scan.Yields (Scan.body opening start) (cs.drop opening.width) rest Q) (p : Position) :
    ∃ t q, next ⟨.markup, ⟨p, cs⟩⟩ = (.ok t, ⟨Mode.after .markup t.kind, ⟨q, rest⟩⟩) ∧ Q t := by
  obtain ⟨t, q, ht, hQ⟩ :=
    hbody (Cursor.nextPosition ⟨p, cs⟩) (p.after (cs.take opening.width))
  refine ⟨t, q, ?_, hQ⟩
  have hmarkup : Scan.markup ⟨p, cs⟩ = .ok t ⟨q, rest⟩ := by
    rw [Scan.markup_of_opens (.inr (Opening.opens_of_of? ho)), Scan.construct_apply]
    simp only [ho]
    exact ht
  simp only [next, Mode.token, hmarkup]

theorem reads_construct {opening : Opening} (ho : Opening.of? cs = some opening)
    (hbody : ∀ start, Scan.Yields (Scan.body opening start) (cs.drop opening.width) rest fun t =>
      t.kind ≠ .endOfInput ∧ t.marks.map Mark.unplaced = us ∧
        Reading.Mode.after .markup t.kind = mode)
    (h : Reads mode rest ms) : Reads .markup cs (us ++ ms) := by
  refine reads_step ?_ h
  intro p
  obtain ⟨t, q, hnext, hend, hmarks, hmode⟩ := Reading.next_construct ho hbody p
  rw [hmode] at hnext
  exact ⟨t, q, hnext, hend, hmarks⟩

theorem reads_rawText {name : String} {body : List Char} (hne : body ≠ [])
    (hbody : Text.before (Scan.closingTag name).isPrefixOf
      (body ++ (Scan.closingTag name ++ rest)) = body)
    (h : Reads .markup rest ms) :
    Reads (.rawText name) (body ++ (Scan.closingTag name ++ rest))
      (.text (String.ofList body) {} :: .closing name :: ms) := by
  have hclose : (Scan.closingTag name).isPrefixOf (Scan.closingTag name ++ rest) = true :=
    List.isPrefixOf_iff_prefix.2 (List.prefix_append _ _)
  have hbefore := Text.before_of_pos hclose
  have hend : Reads (.rawText name) (Scan.closingTag name ++ rest) ([.closing name] ++ ms) := by
    refine reads_step ?_ h
    intro p
    refine ⟨⟨.endTag name, Cursor.nextPosition ⟨p, Scan.closingTag name ++ rest⟩⟩,
      p.after (Scan.closingTag name), ?_, by simp, rfl⟩
    simp [Reading.next, Reading.Mode.token, Scan.rawText_apply, hbefore, hclose, Cursor.skip,
      Reading.Mode.after]
  have hall : Reads (.rawText name) (body ++ (Scan.closingTag name ++ rest))
      ([.text (String.ofList body) {}] ++ ([.closing name] ++ ms)) := by
    refine reads_step ?_ hend
    intro p
    refine ⟨⟨.text (String.ofList body),
      Cursor.nextPosition ⟨p, body ++ (Scan.closingTag name ++ rest)⟩⟩, p.after body, ?_,
      by simp, rfl⟩
    simp [Reading.next, Reading.Mode.token, Scan.rawText_apply, hbody, hclose, hne, Cursor.skip,
      Reading.Mode.after]
  exact hall

end Steps

section Runs

variable {depth : Nat} {run run' cs : List Char} {d data : String} {ms : List Mark}

/-- Nothing in the run starts a construct, not even with what follows it. -/
def Quiet (run : List Char) : Prop :=
  ∀ cs, Text.before Scan.opens (run ++ cs) = run ++ Text.before Scan.opens cs

theorem Quiet.append (h : Quiet run) (h' : Quiet run') : Quiet (run ++ run') := by
  intro cs
  rw [List.append_assoc, h, h', List.append_assoc]

theorem quiet_of_forall (h : ∀ x ∈ run, x ≠ '<' ∧ x ≠ '{') : Quiet run := by
  intro cs
  refine Text.before_append_of_neg ?_ cs
  intro x hx xs
  rw [← Bool.not_eq_true]
  intro hopens
  rcases Scan.opens_eq_true hopens with hlt | ⟨hbrace, -⟩
  · exact (h x hx).1 hlt
  · exact (h x hx).2 hbrace

def indent (depth : Nat) : List Char := List.replicate (2 * depth) ' '

theorem quiet_indent (depth : Nat) : Quiet (indent depth) := by
  refine quiet_of_forall ?_
  intro x hx
  rw [List.eq_of_mem_replicate hx]
  decide

theorem isBlank_of_mem_indent : ∀ x ∈ indent depth, Text.isBlank x = true := by
  intro x hx
  rw [List.eq_of_mem_replicate hx]
  rfl

theorem stripLayoutFrom_indent (depth : Nat) : Text.stripLayoutFrom true (indent depth) = [] := by
  have hblanks := Text.stripLayoutFrom_blanks (indent depth) [] isBlank_of_mem_indent
  rwa [List.append_nil] at hblanks

def textLine (depth : Nat) (data : String) : List Char :=
  indent depth ++ (CharRef.encode .text data.toList ++ ['\n'])

theorem before_opens_encode {s : List Char} (hs : s.head? ≠ some '{') (cs : List Char) :
    Text.before Scan.opens (CharRef.encode .text cs ++ s) =
      CharRef.encode .text cs ++ Text.before Scan.opens s := by
  have hp : ∀ c xs, Scan.opens (c :: xs) = true →
      c ∈ CharRef.Context.reserved .text ∨ c = '{' ∧ xs.head? = some '{' := by
    intro c xs h
    rcases Scan.opens_eq_true h with rfl | hbraces
    · exact .inl (by decide)
    · exact .inr hbraces
  exact CharRef.before_encodeFrom hp hs true cs

theorem quiet_textLine (depth : Nat) (data : String) : Quiet (textLine depth data) := by
  refine (quiet_indent depth).append ?_
  intro cs
  have hbreak : Text.before Scan.opens ('\n' :: cs) = '\n' :: Text.before Scan.opens cs :=
    Text.before_of_neg rfl
  rw [List.append_assoc, List.singleton_append, before_opens_encode (by simp), hbreak,
    List.append_assoc, List.singleton_append]

theorem stripLayoutFrom_textLine (hdata : data ≠ "") (depth : Nat) (cs : List Char) :
    Text.stripLayoutFrom true (textLine depth data ++ cs) =
      CharRef.encode .text data.toList ++ Text.stripLayoutFrom true cs := by
  have hne : data.toList ≠ [] := fun h => hdata (String.toList_eq_nil_iff.1 h)
  rw [textLine, List.append_assoc, Text.stripLayoutFrom_blanks _ _ isBlank_of_mem_indent,
    List.append_assoc, List.singleton_append, Text.stripLayoutFrom_encode hne]

structure Lines (run : List Char) (d : String) : Prop where
  quiet : Quiet run
  decode : ∀ cs, CharRef.decode .text (Text.stripLayout (run ++ cs)) =
    d.toList ++ CharRef.decode .text (Text.stripLayoutFrom true cs)

inductive Lead : Nat → List Char → String → Prop
  | start : Lead 0 [] ""
  | lines {depth : Nat} {run : List Char} {d : String} : Lines run d → Lead depth run d

theorem lines_break : Lines ['\n'] "" where
  quiet := quiet_of_forall (by simp)
  decode _ := rfl

theorem Lead.textLine (h : Lead depth run d) (hdata : data ≠ "") :
    Lines (run ++ textLine depth data) (d ++ data) := by
  cases h with
  | start =>
    refine ⟨quiet_textLine 0 data, ?_⟩
    intro cs
    have hne : data.toList ≠ [] := fun h => hdata (String.toList_eq_nil_iff.1 h)
    have htext : [] ++ textLine 0 data ++ cs = CharRef.encode .text data.toList ++ '\n' :: cs := by
      simp [Template.textLine, indent]
    rw [htext, Text.stripLayout, Text.stripLayoutFrom_encode hne, CharRef.decode_encode,
      String.empty_append]
  | lines h =>
    refine ⟨h.quiet.append (quiet_textLine depth data), ?_⟩
    intro cs
    rw [List.append_assoc, h.decode, stripLayoutFrom_textLine hdata, CharRef.decode_encode,
      String.toList_append, List.append_assoc]

theorem Lead.reads (h : Lead depth run d) (hcs : cs = [] ∨ Scan.opens cs = true)
    (hms : Reads .markup cs ms) :
    Reads .markup (run ++ (indent depth ++ cs)) (textMarks d ++ ms) := by
  have hbefore : Text.before Scan.opens cs = [] := by
    rcases hcs with rfl | hcs
    · rfl
    · exact Text.before_of_pos hcs
  rw [← List.append_assoc]
  cases h with
  | start =>
    refine reads_run hcs hbefore ?_ hms
    rw [List.nil_append, indent, Nat.mul_zero, List.replicate_zero, Text.stripLayout_nil,
      CharRef.decode_nil]
    rfl
  | lines h =>
    refine reads_run hcs ?_ ?_ hms
    · rw [(h.quiet.append (quiet_indent depth)) cs, hbefore, List.append_nil]
    · rw [h.decode, stripLayoutFrom_indent, CharRef.decode_nil, List.append_nil]

end Runs

end Template
