import Template.Proofs.Breaks
import Template.Proofs.Concatenation
import Template.Proofs.Erasing

namespace Template

namespace Text

def IsBreak (w : List Char) : Prop := ∃ ws, w = '\n' :: ws ∧ ∀ c ∈ ws, isBlank c = true

theorem stripLayoutFrom_break {ws : List Char} (hws : ∀ c ∈ ws, isBlank c = true)
    (inBreak : Bool) (front rest : List Char) :
    stripLayoutFrom inBreak (front ++ '\n' :: (ws ++ rest)) =
      stripLayoutFrom inBreak front ++ stripLayoutFrom true rest := by
  induction front generalizing inBreak with
  | nil => exact stripLayoutFrom_blanks ws rest hws
  | cons c front ih =>
    rw [List.cons_append, stripLayoutFrom, stripLayoutFrom]
    split
    · exact ih true
    · rw [ih false, List.cons_append]

theorem before_append_of_le {p : List Char → Bool} {front rest : List Char}
    (h : front.length ≤ (before p (front ++ rest)).length) :
    before p (front ++ rest) = front ++ before p rest := by
  induction front with
  | nil => rfl
  | cons c front ih =>
    rw [List.cons_append] at h ⊢
    cases hc : p (c :: (front ++ rest)) with
    | true =>
      rw [before_of_pos hc] at h
      exact absurd h (Nat.not_succ_le_zero _)
    | false =>
      rw [before_of_neg hc] at h ⊢
      rw [ih (Nat.le_of_succ_le_succ h), List.cons_append]

end Text

namespace Scan

theorem opens_of_isBlank {c : Char} (h : Text.isBlank c = true) (cs : List Char) :
    opens (c :: cs) = false := by
  rw [Bool.eq_false_iff]
  intro ho
  rcases opens_eq_true ho with rfl | ⟨rfl, -⟩ <;> cases h

theorem before_opens_break {ws : List Char} (hws : ∀ c ∈ ws, Text.isBlank c = true)
    {front rest : List Char}
    (h : front.length < (Text.before opens (front ++ '\n' :: (ws ++ rest))).length) :
    Text.before opens (front ++ '\n' :: (ws ++ rest)) =
      front ++ '\n' :: (ws ++ Text.before opens rest) := by
  have hbreak : ∀ c ∈ '\n' :: ws, ∀ cs, opens (c :: cs) = false := by
    rw [List.forall_mem_cons]
    exact ⟨opens_of_isBlank rfl, fun c hc => opens_of_isBlank (hws c hc)⟩
  rw [Text.before_append_of_le (Nat.le_of_lt h), ← List.cons_append,
    Text.before_append_of_neg hbreak, List.cons_append]

end Scan

namespace Reading

variable {c d : Cursor}

theorem lexemes_markup (c : Cursor) :
    lexemes ⟨.markup, c⟩ =
      (Scan.textToken? c (Text.before Scan.opens c.rest)).toList.map .ok ++
        lexemes ⟨.markup, c.skip (Text.before Scan.opens c.rest).length⟩ := by
  have hmarkup := Scan.markup_apply c
  have hopens := Text.drop_before Scan.opens c.rest
  rw [← Cursor.rest_skip] at hopens
  cases htext : Scan.textToken? c (Text.before Scan.opens c.rest) with
  | none =>
    simp only [htext, ← Scan.markup_of_opens hopens] at hmarkup
    exact lexemes_congr (next_congr hmarkup)
  | some t =>
    simp only [htext] at hmarkup
    obtain ⟨data, hdata⟩ := Scan.kind_of_textToken? htext
    refine lexemes_cons ?_ (by rw [hdata]; exact Token.Kind.noConfusion)
    simp only [next, Mode.token, hmarkup, Mode.after, hdata]

theorem unplaced_lexemes_of_rest {mode : Mode} (h : c.rest = d.rest) :
    (lexemes ⟨mode, c⟩).map Lexeme.unplaced = (lexemes ⟨mode, d⟩).map Lexeme.unplaced := by
  have hplace : ∀ e : Cursor, (lexemes ⟨mode, e⟩).map Lexeme.unplaced =
      (lexemes ⟨mode, { rest := e.rest }⟩).map Lexeme.unplaced := by
    intro e
    have he : (⟨mode, e⟩ : Reading) = place e.position [] ⟨mode, { rest := e.rest }⟩ := by
      rw [place, Cursor.place, List.append_nil, Position.move_start]
    rw [he, lexemes_place_nil, List.map_map]
    exact List.map_congr_left fun l _ => l.unplaced_move
  rw [hplace c, hplace d, h]

theorem unplaced_textToken? {run run' : List Char}
    (h : Text.stripLayout run = Text.stripLayout run') :
    (Scan.textToken? c run).map Token.unplaced = (Scan.textToken? d run').map Token.unplaced := by
  unfold Scan.textToken?
  rw [h]
  cases Text.stripLayout run' <;> rfl

theorem unplaced_lexemes_of_run
    (hrun : Text.stripLayout (Text.before Scan.opens c.rest) =
      Text.stripLayout (Text.before Scan.opens d.rest))
    (hrest : (c.skip (Text.before Scan.opens c.rest).length).rest =
      (d.skip (Text.before Scan.opens d.rest).length).rest) :
    (lexemes ⟨.markup, c⟩).map Lexeme.unplaced = (lexemes ⟨.markup, d⟩).map Lexeme.unplaced := by
  have htext := unplaced_textToken? (c := c) (d := d) hrun
  rw [lexemes_markup c, lexemes_markup d, List.map_append, List.map_append,
    unplaced_lexemes_of_rest hrest]
  refine congrArg (· ++ _) ?_
  revert htext
  cases Scan.textToken? c (Text.before Scan.opens c.rest) <;>
    cases Scan.textToken? d (Text.before Scan.opens d.rest) <;> intro htext
  · rfl
  · cases htext
  · cases htext
  · exact congrArg (fun t => [Except.ok t]) (Option.some.inj htext)

end Reading

/-- Scanning the text comes to a run of text in which its `k`th character stands. -/
def InRun (text : List Char) (k : Nat) : Prop :=
  ∃ ls u front, Reading.Scans { cursor := { rest := text } } ls u ∧ u.mode = .markup ∧
    u.cursor.rest = front ++ text.drop k ∧
    front.length < (Text.before Scan.opens u.cursor.rest).length

theorem Reading.unplaced_lexemes_of_blanks {p : Position} {front ws ws' rest : List Char}
    (hws : ∀ c ∈ ws, Text.isBlank c = true) (hws' : ∀ c ∈ ws', Text.isBlank c = true)
    (h : front.length <
      (Text.before Scan.opens (front ++ '\n' :: (ws ++ rest))).length) :
    (lexemes ⟨.markup, ⟨p, front ++ '\n' :: (ws ++ rest)⟩⟩).map Lexeme.unplaced =
      (lexemes ⟨.markup, ⟨p, front ++ '\n' :: (ws' ++ rest)⟩⟩).map Lexeme.unplaced := by
  have hblind := Text.blind_of_eq Scan.opens_break
  have h' : front.length <
      (Text.before Scan.opens (front ++ '\n' :: (ws' ++ rest))).length := by
    rcases hblind.before front (ws' ++ rest) (ws ++ rest) with ⟨hsame, hle⟩ | hlt
    · rw [hsame] at hle
      exact absurd h (Nat.not_lt.2 hle)
    · exact hlt
  apply unplaced_lexemes_of_run
  · simp only [Scan.before_opens_break hws h, Scan.before_opens_break hws' h', Text.stripLayout,
      Text.stripLayoutFrom_break hws, Text.stripLayoutFrom_break hws']
  · have hdrop : ∀ ws : List Char, (front ++ '\n' :: (ws ++ rest)).drop
        (front ++ '\n' :: (ws ++ Text.before Scan.opens rest)).length =
          rest.drop (Text.before Scan.opens rest).length := by
      intro ws
      have hassoc : ∀ zs, front ++ '\n' :: (ws ++ zs) = (front ++ '\n' :: ws) ++ zs := by simp
      rw [hassoc, hassoc, List.length_append, ← List.drop_drop, List.drop_left]
    simp only [Cursor.rest_skip, Scan.before_opens_break hws h, Scan.before_opens_break hws' h',
      hdrop]

theorem unplaced_lexemes_of_break {a b w w' : List Char} (hw : Text.IsBreak w)
    (hw' : Text.IsBreak w') (h : InRun (a ++ w ++ b) a.length) :
    (Reading.lexemes { cursor := { rest := a ++ w ++ b } }).map Lexeme.unplaced =
      (Reading.lexemes { cursor := { rest := a ++ w' ++ b } }).map Lexeme.unplaced := by
  obtain ⟨ws, rfl, hws⟩ := hw
  obtain ⟨ws', rfl, hws'⟩ := hw'
  obtain ⟨ls, u, front, hscans, hmode, hrest, hlt⟩ := h
  have hsplit : ∀ ws : List Char, a ++ '\n' :: ws ++ b = a ++ '\n' :: (ws ++ b) := by
    intro ws
    rw [List.append_assoc, List.cons_append]
  rw [hsplit] at hscans hrest
  rw [hsplit, hsplit]
  rw [List.drop_left] at hrest
  have hu : (ws ++ b).length < u.cursor.rest.length := by
    rw [hrest]
    simp only [List.length_append, List.length_cons]
    omega
  have hstart : ∀ z, Reading.upTo z { cursor := { rest := a } } =
    { cursor := { rest := a ++ '\n' :: z } } := fun _ => rfl
  rw [← hstart] at hscans
  obtain ⟨v, rfl, hscans'⟩ := hscans.upTo Reading.Mode.unbroken_markup hu (ws' ++ b)
  obtain ⟨mode, p, rest⟩ := v
  cases hmode
  cases List.append_cancel_right hrest
  rw [← hstart, ← hstart, hscans.lexemes_eq, hscans'.lexemes_eq, List.map_append, List.map_append]
  exact congrArg (_ ++ ·) (Reading.unplaced_lexemes_of_blanks hws hws' hlt)

theorem messages_of_unplaced {ls ls' : List Lexeme}
    (h : ls.map Lexeme.unplaced = ls'.map Lexeme.unplaced) :
    (ls.filterMap Lexeme.error?).map SyntaxError.message =
      (ls'.filterMap Lexeme.error?).map SyntaxError.message := by
  have hmessages : ∀ ls : List Lexeme, (ls.filterMap Lexeme.error?).map SyntaxError.message =
      ((ls.map Lexeme.unplaced).filterMap Lexeme.error?).map SyntaxError.message := by
    intro ls
    induction ls with
    | nil => rfl
    | cons l ls ih =>
      cases l with
      | ok t => exact ih
      | error e => exact congrArg (e.message :: ·) ih
  rw [hmessages, h, ← hmessages]

namespace Document

inductive SameButPositions : Except Failure Document → Except Failure Document → Prop
  | ok {d d' : Document} : d.tree.unplaced = d'.tree.unplaced → SameButPositions (.ok d) (.ok d')
  | malformed {e e' : SyntaxError} : e.message = e'.message →
      SameButPositions (.error (.malformed e)) (.error (.malformed e'))

theorem sameButPositions_parse {s s' : String}
    (h : (lexemes s).map Lexeme.unplaced = (lexemes s').map Lexeme.unplaced) :
    SameButPositions (parse s) (parse s') := by
  have hrun : unplacedBy unplaced (parse s) = unplacedBy unplaced (parse s') := by
    rw [parse, parse, ofLexemes, ofLexemes, ← Builder.unplaced_run, h, Builder.unplaced_run]
  cases ending s with
  | complete ts t g hparse =>
    cases ending s' with
    | complete ts' t' g' hparse' =>
      rw [hparse, hparse'] at hrun ⊢
      exact .ok (congrArg Document.tree (Except.ok.inj hrun))
    | fault e i hparse' =>
      rw [hparse, hparse'] at hrun
      cases hrun
  | fault e i hparse =>
    cases ending s' with
    | complete ts t g hparse' =>
      rw [hparse, hparse'] at hrun
      cases hrun
    | fault e' i' hparse' =>
      rw [hparse, hparse'] at hrun ⊢
      have hcause := congrArg SyntaxError.cause (Failure.malformed.inj (Except.error.inj hrun))
      exact .malformed (congrArg SyntaxError.Cause.message hcause)

end Document

/-- The blanks behind a line break that is met in text are layout: with others the text yields the
same tokens and errors and the same document, but for positions. -/
theorem reindent {s s' : String} {a b w w' : List Char} (hs : Text.normalize s.toList = a ++ w ++ b)
    (hs' : Text.normalize s'.toList = a ++ w' ++ b) (hw : Text.IsBreak w) (hw' : Text.IsBreak w')
    (hmet : InRun (a ++ w ++ b) a.length) :
    (lexemes s).map Lexeme.unplaced = (lexemes s').map Lexeme.unplaced ∧
      (syntaxErrors s).map SyntaxError.message = (syntaxErrors s').map SyntaxError.message ∧
      Document.SameButPositions (Document.parse s) (Document.parse s') := by
  have hlexemes : (lexemes s).map Lexeme.unplaced = (lexemes s').map Lexeme.unplaced := by
    rw [lexemes, lexemes, Reading.ofString, Reading.ofString, hs, hs']
    exact unplaced_lexemes_of_break hw hw' hmet
  exact ⟨hlexemes, messages_of_unplaced hlexemes, Document.sameButPositions_parse hlexemes⟩

theorem reindent_lone_angle :
    Text.normalize "<p>a <\n\t b</p>".toList =
        "<p>a <".toList ++ "\n\t ".toList ++ "b</p>".toList ∧
      Text.normalize "<p>a <\nb</p>".toList = "<p>a <".toList ++ "\n".toList ++ "b</p>".toList ∧
      Text.IsBreak "\n\t ".toList ∧ Text.IsBreak "\n".toList ∧
      InRun ("<p>a <".toList ++ "\n\t ".toList ++ "b</p>".toList) "<p>a <".toList.length ∧
      (lexemes "<p>a <\n\t b</p>").map Lexeme.unplaced =
        (lexemes "<p>a <\nb</p>").map Lexeme.unplaced ∧
      (syntaxErrors "<p>a <\n\t b</p>").map SyntaxError.message =
        (syntaxErrors "<p>a <\nb</p>").map SyntaxError.message ∧
      Document.SameButPositions (Document.parse "<p>a <\n\t b</p>")
        (Document.parse "<p>a <\nb</p>") := by
  have hs : Text.normalize "<p>a <\n\t b</p>".toList =
      "<p>a <".toList ++ "\n\t ".toList ++ "b</p>".toList := by decide +kernel
  have hs' : Text.normalize "<p>a <\nb</p>".toList =
      "<p>a <".toList ++ "\n".toList ++ "b</p>".toList := by decide +kernel
  have hw : Text.IsBreak "\n\t ".toList := ⟨['\t', ' '], rfl, List.all_eq_true.1 rfl⟩
  have hw' : Text.IsBreak "\n".toList := ⟨[], rfl, List.forall_mem_nil _⟩
  have hmet : InRun ("<p>a <".toList ++ "\n\t ".toList ++ "b</p>".toList) "<p>a <".toList.length := by
    refine ⟨[.ok ⟨.startTag "p" [], ⟨0, 1⟩⟩], ⟨.markup, ⟨⟨0, 3⟩, "a <\n\t b</p>".toList⟩⟩,
      "a <".toList, .cons ?_ rfl (.nil _), rfl, rfl, ?_⟩
    · decide +kernel
    · decide +kernel
  exact ⟨hs, hs', hw, hw', hmet, reindent hs hs' hw hw' hmet⟩

end Template
