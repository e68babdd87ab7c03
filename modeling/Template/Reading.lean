import Template.Scan.Forward
import Template.Text.LineBreak

/-! Readings of a text: a cursor, and whether it stands in the body of a raw-text element.  Read
to the end, a text yields all its lexemes; the first error among them, if any, is what is wrong
with it as a whole. -/

namespace Template

inductive Reading.Mode
  | markup
  | rawText (name : String)
  deriving DecidableEq, Repr

structure Reading where
  mode : Reading.Mode := .markup
  cursor : Cursor
  deriving DecidableEq, Repr

namespace Reading

def Mode.after (mode : Mode) : Token.Kind → Mode
  | .startTag name _ => if Element.isRawText name then .rawText name else .markup
  | .text _ => mode
  | _ => .markup

def Mode.token : Mode → Scan Token
  | .markup => Scan.markup
  | .rawText name => Scan.rawText name

/-- One step.  After an error scanning goes on in markup, where reading stopped. -/
def next (s : Reading) : Lexeme × Reading :=
  match s.mode.token s.cursor with
  | .ok t c => (.ok t, ⟨s.mode.after t.kind, c⟩)
  | .error e c => (.error e, ⟨.markup, c⟩)

def ofString (source : String) : Reading := { cursor := { rest := Text.normalize source.toList } }

def Mode.weight : Mode → Nat
  | .markup => 0
  | .rawText _ => 1

def weight (s : Reading) : Nat := 2 * s.cursor.rest.length + s.mode.weight

theorem Mode.weight_le : (mode : Mode) → mode.weight ≤ 1
  | .markup => Nat.zero_le 1
  | .rawText _ => Nat.le_refl 1

theorem weight_next_markup_lt {c : Cursor} (hc : c.rest ≠ []) :
    (next ⟨.markup, c⟩).2.weight < weight ⟨.markup, c⟩ := by
  have hl := Scan.length_stop_markup_lt hc
  simp only [next, Mode.token, Scan.stop, weight] at hl ⊢
  cases hm : Scan.markup c with
  | ok t d =>
    have hw := (Mode.after .markup t.kind).weight_le
    rw [hm] at hl
    change 2 * d.rest.length + (Mode.after .markup t.kind).weight < 2 * c.rest.length + 0
    change d.rest.length < c.rest.length at hl
    omega
  | error e d =>
    rw [hm] at hl
    change 2 * d.rest.length + 0 < 2 * c.rest.length + 0
    change d.rest.length < c.rest.length at hl
    omega

theorem weight_next_rawText_lt (name : String) (c : Cursor) :
    (next ⟨.rawText name, c⟩).2.weight < weight ⟨.rawText name, c⟩ := by
  simp only [next, Mode.token, Scan.rawText_apply, weight]
  split
  · rename_i t d h
    split at h
    · split at h
      · cases h
        simp only [Mode.after, Mode.weight, Cursor.rest_skip, List.length_drop]
        omega
      · rename_i hb
        have := List.length_pos_iff.2 hb
        have := Text.length_before_le (Scan.closingTag name).isPrefixOf c.rest
        cases h
        simp only [Mode.after, Mode.weight, Cursor.rest_skip, List.length_drop]
        omega
    · cases h
  · rename_i e d h
    split at h
    · split at h <;> cases h
    · cases h
      simp only [Mode.weight, Cursor.rest_skip, List.length_drop]
      omega

theorem weight_next_lt {s : Reading} (h : s.next.1.isEnd = false) :
    s.next.2.weight < s.weight := by
  obtain ⟨mode, c⟩ := s
  cases mode with
  | markup =>
    refine weight_next_markup_lt fun hc => ?_
    simp [next, Mode.token, Scan.markup_of_rest_eq_nil hc, Lexeme.isEnd] at h
  | rawText name => exact weight_next_rawText_lt name c

def lexemes (s : Reading) : List Lexeme :=
  let step := s.next
  if step.1.isEnd then [step.1] else step.1 :: step.2.lexemes
termination_by s.weight
decreasing_by
  rename_i h
  exact weight_next_lt (Bool.eq_false_iff.2 h)

theorem lexemes_of_isEnd {s : Reading} (h : s.next.1.isEnd = true) : s.lexemes = [s.next.1] := by
  rw [lexemes]
  exact if_pos h

theorem lexemes_of_not_isEnd {s : Reading} (h : ¬ s.next.1.isEnd = true) :
    s.lexemes = s.next.1 :: s.next.2.lexemes := by
  rw [lexemes]
  exact if_neg h

end Reading

def lexemes (source : String) : List Lexeme := (Reading.ofString source).lexemes

def syntaxErrors (source : String) : List SyntaxError := (lexemes source).filterMap Lexeme.error?

def tokens (source : String) : Except SyntaxError (List Token) := (lexemes source).mapM id

end Template
