import Template.Feed
import Template.Playback
import Template.Reading
import Template.Proofs.Turns

namespace Template

namespace Scan

variable {α β : Type} {c d : Cursor}

theorem exists_of_bind_eq_ok {x : Scan α} {f : α → Scan β} {b : β} (h : (x >>= f) c = .ok b d) :
    ∃ a e, f a e = .ok b d := by
  obtain ⟨a, e, -, hf⟩ := bind_eq_ok.1 h
  exact ⟨a, e, hf⟩

theorem kind_ne_of_body {opening : Opening} {start : Position} {t : Token}
    (h : body opening start c = .ok t d) : t.kind ≠ .endOfInput := by
  cases opening with
  | endTag =>
    obtain ⟨name, e, h⟩ := exists_of_bind_eq_ok h
    obtain ⟨_, e, h⟩ := exists_of_bind_eq_ok h
    obtain ⟨_, e, h⟩ := exists_of_bind_eq_ok h
    cases h
    exact Token.Kind.noConfusion
  | comment =>
    obtain ⟨data, e, h⟩ := exists_of_bind_eq_ok h
    obtain ⟨_, e, h⟩ := exists_of_bind_eq_ok h
    cases h
    exact Token.Kind.noConfusion
  | startTag =>
    obtain ⟨name, e, h⟩ := exists_of_bind_eq_ok h
    obtain ⟨attributes, e, h⟩ := exists_of_bind_eq_ok h
    obtain ⟨found, e, h⟩ := exists_of_bind_eq_ok h
    split at h
    · cases h
      rw [tagKind]
      split <;> exact Token.Kind.noConfusion
    · obtain ⟨slash, e, h⟩ := exists_of_bind_eq_ok h
      obtain ⟨found, e, h⟩ := exists_of_bind_eq_ok h
      obtain ⟨_, e, h⟩ := exists_of_bind_eq_ok h
      obtain ⟨_, e, h⟩ := exists_of_bind_eq_ok h
      cases h
      exact Token.Kind.noConfusion
    · obtain ⟨_, e, h⟩ := exists_of_bind_eq_ok h
      cases h
  | mustache =>
    obtain ⟨expression, e, h⟩ := exists_of_bind_eq_ok h
    cases h
    exact Token.Kind.noConfusion

theorem of?_eq_none_iff (h : c.rest = [] ∨ opens c.rest = true) :
    Opening.of? c.rest = none ↔ c.rest = [] := by
  constructor
  · intro hnone
    rw [opens, hnone] at h
    exact h.resolve_right Bool.false_ne_true
  · intro hnil
    rw [hnil]
    rfl

theorem kind_of_textToken? {run : List Char} {t : Token} (h : textToken? c run = some t) :
    ∃ data, t.kind = .text data := by
  rw [textToken?] at h
  split at h
  · cases h
  · cases h
    exact ⟨_, rfl⟩

theorem end_of_markup {p : Position} (h : markup c = .ok ⟨.endOfInput, p⟩ d) :
    d.rest = [] ∧ d.position = p := by
  have hdrop := Text.drop_before opens c.rest
  rw [← Cursor.rest_skip] at hdrop
  rw [markup_apply] at h
  split at h
  · rename_i t ht
    cases h
    obtain ⟨data, hdata⟩ := kind_of_textToken? ht
    cases hdata
  · rw [construct_apply] at h
    split at h
    · rename_i hopening
      have hnil := (of?_eq_none_iff hdrop).1 hopening
      rw [Cursor.nextPosition, Cursor.skip_of_nil hnil] at h
      cases h
      exact ⟨hnil, rfl⟩
    · exact absurd rfl (kind_ne_of_body h)

end Scan

namespace Pull

variable {ω : Type} [Window ω] [Tracking ω] {w : ω} {c : Cursor}

theorem pulls_behind (hc : c.rest = [] ∨ Scan.opens c.rest = true) (h : At w (entry c) 0) :
    Pulls (turn (Mode.behind c)) w (Ends (turnOf (Scan.markup c))) := by
  rw [Scan.markup_of_opens hc, Scan.construct_apply]
  rw [entry] at h
  rw [Mode.behind]
  cases hopening : Opening.of? c.rest with
  | none =>
    rw [hopening, Option.elim_none, Cursor.skip_zero] at h
    have hnil := (Scan.of?_eq_none_iff hc).1 hopening
    rw [Option.elim_none]
    apply pulls_position h
    intro w h
    apply pulls_return h
    rw [Cursor.nextPosition, Cursor.skip_of_nil hnil, Cursor.skip_of_nil hnil]
    exact rfl
  | some opening =>
    rw [hopening, Option.elim_some] at h
    rw [Option.elim_some]
    cases opening with
    | endTag => exact pulls_endTag _ h
    | comment => exact pulls_comment _ h
    | startTag => exact pulls_startTag _ h
    | mustache => exact pulls_mustache _ h

end Pull

namespace Feed

open Pull (At Pulls)

variable {ω : Type} [Window ω] [Tracking ω] {w : ω} {c : Cursor}

/-- The feed stands where the reading stands.  What announces a construct was pulled together with
the run of text before it, and so was a closing tag that is held. -/
inductive Matches : Feed ω → Reading → Prop
  | text {w : ω} {c : Cursor} : At w c 0 → Matches ⟨w, .text, none⟩ ⟨.markup, c⟩
  | behind {w : ω} {c : Cursor} : c.rest = [] ∨ Scan.opens c.rest = true →
    At w (Pull.entry c) 0 →
    Matches ⟨w, .behind c, none⟩ ⟨.markup, c⟩
  | rawText {w : ω} {c : Cursor} {name : String} : Element.isRawText name = true → At w c 0 →
    Matches ⟨w, .rawText name, none⟩ ⟨.rawText name, c⟩
  | held {w : ω} {c : Cursor} {name : String} :
    (Scan.closingTag name).isPrefixOf c.rest = true →
    At w (c.skip (Scan.closingTag name).length) 0 →
    Matches ⟨w, .text, some ⟨.endTag name, c.nextPosition⟩⟩ ⟨.rawText name, c⟩

theorem matches_start {text : List Char} (h : Tracking.Shows w { text := text }) :
    Matches ⟨w, .text, none⟩ { cursor := { rest := text } } :=
  .text ⟨_, 0, h, rfl, Nat.succ_pos 3, rfl⟩

def GoesOn (mode : Pull.Mode) (held : Option Token) : Lexeme → Prop
  | .ok t => (∀ data, t.kind ≠ .text data) → mode = Pull.Mode.after t.kind ∧ held = none
  | .error _ => mode = .text ∧ held = none

def Makes (step : Lexeme × Reading) :
    Except SyntaxError (Pull.Mode ⊕ (Token × Pull.Mode × Option Token)) → Cursor → Prop
  | .ok (.inr (t, mode, held)), d =>
    step.1 = .ok t ∧ GoesOn mode held step.1 ∧ ∀ w : ω, At w d 0 → Matches ⟨w, mode, held⟩ step.2
  | .error e, d => step.1 = .error e ∧ ∀ w : ω, At w d 0 → Matches ⟨w, .text, none⟩ step.2
  | .ok (.inl _), _ => False

theorem matches_after {t : Token} {d : Cursor} (h : Scan.markup c = .ok t d) (hd : At w d 0) :
    Matches ⟨w, Pull.Mode.after t.kind, none⟩ ⟨Reading.Mode.after .markup t.kind, d⟩ := by
  obtain ⟨kind, p⟩ := t
  cases kind with
  | endOfInput =>
    have hnil := (Scan.end_of_markup h).1
    have hmatches : Matches ⟨w, .behind d, none⟩ ⟨.markup, d⟩ := by
      apply Matches.behind (.inl hnil)
      rwa [Pull.entry, Cursor.skip_of_nil hnil]
    rw [Pull.Mode.behind, hnil] at hmatches
    exact hmatches
  | startTag name attributes =>
    rw [Pull.Mode.after, Reading.Mode.after]
    cases hraw : Element.isRawText name with
    | true => exact .rawText hraw hd
    | false => exact .text hd
  | text data => exact .text hd
  | mustache expression => exact .text hd
  | comment data => exact .text hd
  | selfClosingTag name attributes => exact .text hd
  | endTag name => exact .text hd

theorem makes_behind (hc : c.rest = [] ∨ Scan.opens c.rest = true) (h : At w (Pull.entry c) 0) :
    Pulls (Pull.turnStep (.behind c)) w (Makes (ω := ω) (Reading.next ⟨.markup, c⟩)) := by
  apply Pull.pulls_bind (Pull.pulls_behind hc h)
  · intro turn w d hd hturn
    cases hmarkup : Scan.markup c with
    | error e d' =>
      rw [hmarkup] at hturn
      cases hturn
    | ok t d' =>
      rw [hmarkup] at hturn
      cases hturn
      apply Pull.pulls_return hd
      have hnext : Reading.next ⟨.markup, c⟩ = (.ok t, ⟨Reading.Mode.after .markup t.kind, d⟩) := by
        rw [Reading.next, Reading.Mode.token, hmarkup]
      rw [hnext]
      exact ⟨rfl, fun _ => ⟨rfl, rfl⟩, fun w hw => matches_after hmarkup hw⟩
  · intro e d he
    cases hmarkup : Scan.markup c with
    | ok t d' =>
      rw [hmarkup] at he
      cases he
    | error e' d' =>
      rw [hmarkup] at he
      cases he
      have hnext : Reading.next ⟨.markup, c⟩ = (.error e, ⟨.markup, d⟩) := by
        rw [Reading.next, Reading.Mode.token, hmarkup]
      rw [hnext]
      exact ⟨rfl, fun w hw => .text hw⟩

theorem makes_text (h : At w c 0) :
    Pulls (Pull.turnStep .text) w fun o d => match o with
      | .ok (.inl mode) => ∃ e : Cursor, mode = .behind e ∧ d = Pull.entry e ∧
          (e.rest = [] ∨ Scan.opens e.rest = true) ∧
          Reading.next ⟨.markup, c⟩ = Reading.next ⟨.markup, e⟩
      | o => Makes (ω := ω) (Reading.next ⟨.markup, c⟩) o d := by
  have hdrop := Text.drop_before Scan.opens c.rest
  rw [← Cursor.rest_skip] at hdrop
  have hmarkup := Scan.markup_apply c
  have htext := Pull.pulls_text h
  simp only [Pull.textEnd_start] at htext
  generalize Text.before Scan.opens c.rest = run at *
  apply Pull.pulls_bind htext
  · intro turn w d hd hturn
    cases hturn
    cases hrun : Scan.textToken? c run with
    | none =>
      rw [hrun] at hmarkup
      apply Pull.pulls_return hd
      refine ⟨c.skip run.length, rfl, rfl, hdrop, ?_⟩
      rw [← Scan.markup_of_opens hdrop] at hmarkup
      rw [Reading.next, Reading.next, Reading.Mode.token, hmarkup]
    | some t =>
      rw [hrun] at hmarkup
      apply Pull.pulls_return hd
      obtain ⟨data, hdata⟩ := Scan.kind_of_textToken? hrun
      have hnext : Reading.next ⟨.markup, c⟩ = (.ok t, ⟨.markup, c.skip run.length⟩) := by
        rw [Reading.next, Reading.Mode.token, hmarkup]
        simp only [hdata, Reading.Mode.after]
      rw [hnext]
      exact ⟨rfl, fun hother => absurd hdata (hother data), fun w hw => .behind hdrop hw⟩
  · intro e d he
    cases he

theorem isNameChar_of_isRawText {name : String} (h : Element.isRawText name = true) :
    ∀ x ∈ name.toList, Text.isNameChar x = true := by
  have hall : (Element.rawTextNames.all fun name => name.toList.all Text.isNameChar) = true := by
    decide +kernel
  exact List.all_eq_true.1 (List.all_eq_true.1 hall name (List.contains_iff_mem.1 h))

theorem makes_rawText {name : String} (hraw : Element.isRawText name = true) (h : At w c 0) :
    Pulls (Pull.turnStep (.rawText name)) w
      (Makes (ω := ω) (Reading.next ⟨.rawText name, c⟩)) := by
  have hspec := Scan.rawText_apply name c
  have hturn := Pull.pulls_rawText (isNameChar_of_isRawText hraw) h
  simp only [Pull.rawTextEnd_start] at hturn
  generalize Text.before (Scan.closingTag name).isPrefixOf c.rest = body at *
  simp only at hspec
  by_cases hclose : (Scan.closingTag name).isPrefixOf (c.skip body.length).rest = true
  · rw [if_pos hclose] at hspec hturn
    apply Pull.pulls_bind hturn
    · intro turn w d hd hturn
      cases hturn
      by_cases hbody : body = []
      · rw [if_pos hbody] at hspec ⊢
        apply Pull.pulls_return hd
        rw [Reading.next, Reading.Mode.token, hspec]
        subst hbody
        rw [List.length_nil, Cursor.skip_zero]
        exact ⟨rfl, fun _ => ⟨rfl, rfl⟩, fun w hw => .text hw⟩
      · rw [if_neg hbody] at hspec ⊢
        apply Pull.pulls_return hd
        rw [Reading.next, Reading.Mode.token, hspec]
        exact ⟨rfl, fun hother => absurd rfl (hother _), fun w hw => .held hclose hw⟩
    · intro e d he
      cases he
  · rw [if_neg hclose] at hspec hturn
    apply Pull.pulls_bind hturn
    · intro turn w d hd hturn
      cases hturn
    · intro e d he
      cases he
      rw [Reading.next, Reading.Mode.token, hspec]
      exact ⟨rfl, fun w hw => .text hw⟩

theorem pulls_iterate_of_makes {mode : Pull.Mode} {step : Lexeme × Reading}
    (h : Pulls (Pull.turnStep mode) w (Makes (ω := ω) step)) (fuel : Nat) :
    Pulls (Pull.iterate Pull.turnStep (fuel + 1) mode) w fun o d =>
      Makes (ω := ω) step (o.map .inr) d := by
  apply Pull.pulls_bind h
  · rintro (mode | r) w d hd ho
    · cases ho
    · exact Pull.pulls_return hd ho
  · exact fun _ _ he => he

theorem pulls_token {mode : Pull.Mode} {s : Reading} (h : Matches ⟨w, mode, none⟩ s) :
    Pulls (token mode) w fun o d => Makes (ω := ω) s.next (o.map .inr) d := by
  cases h with
  | text h =>
    apply Pull.pulls_bind (makes_text h)
    · rintro (mode | r) w d hd ho
      · obtain ⟨e, rfl, rfl, he, hnext⟩ := ho
        rw [hnext]
        exact pulls_iterate_of_makes (makes_behind he hd) 0
      · exact Pull.pulls_return hd ho
    · exact fun _ _ he => he
  | behind hc h => exact pulls_iterate_of_makes (makes_behind hc h) 1
  | rawText hraw h => exact pulls_iterate_of_makes (makes_rawText hraw h) 1

theorem Matches.next {f : Feed ω} {s : Reading} (h : Matches f s) :
    ∃ g, f.next = .ok (s.next.1, g) ∧ Matches g s.next.2 := by
  obtain ⟨w, mode, held⟩ := f
  cases held with
  | some t =>
    cases h with
    | @held _ c name hclose hw =>
      have hnext : Reading.next ⟨.rawText name, c⟩ =
          (.ok ⟨.endTag name, c.nextPosition⟩,
            ⟨.markup, c.skip (Scan.closingTag name).length⟩) := by
        simp only [Reading.next, Reading.Mode.token, Scan.rawText_apply,
          Text.before_of_pos hclose, List.length_nil, Cursor.skip_zero, if_pos hclose, if_true,
          Reading.Mode.after]
      rw [hnext]
      exact ⟨_, rfl, .text hw⟩
  | none =>
    obtain ⟨o, w', d, htoken, hd, hmakes⟩ := pulls_token h
    rw [Feed.next, htoken]
    rcases o with e | ⟨t, mode, held⟩
    · obtain ⟨hstep, hmatches⟩ := hmakes
      exact ⟨_, by rw [hstep], hmatches w' hd⟩
    · obtain ⟨hstep, -, hmatches⟩ := hmakes
      exact ⟨_, by rw [hstep], hmatches w' hd⟩

theorem Matches.goesOn {f g : Feed ω} {s : Reading} {l : Lexeme} (h : Matches f s)
    (hnext : f.next = .ok (l, g)) : GoesOn g.mode g.held l := by
  obtain ⟨w, mode, held⟩ := f
  cases held with
  | some t =>
    cases h with
    | held hclose hw =>
      cases hnext
      exact fun _ => ⟨rfl, rfl⟩
  | none =>
    obtain ⟨o, w', d, htoken, -, hmakes⟩ := pulls_token h
    rw [Feed.next, htoken] at hnext
    rcases o with e | ⟨t, mode, held⟩
    · cases hnext
      exact ⟨rfl, rfl⟩
    · obtain ⟨hstep, hgoesOn, -⟩ := hmakes
      rw [hstep] at hgoesOn
      cases hnext
      exact hgoesOn

end Feed

namespace Playback

variable {ω : Type} [Window ω] [Tracking ω] {p : Playback (Feed ω)} {s : Reading}

structure Follows (p : Playback (Feed ω)) (s : Reading) : Prop where
  source : p.source.Matches s
  fresh : p.replaying = false

theorem Follows.next (h : p.Follows s) :
    ∃ q, p.next Feed.next = .ok (s.next.1, q) ∧ q.Follows s.next.2 ∧
      q.last? = some s.next.1 ∧ q.errors = p.errors ++ s.next.1.error?.toList := by
  obtain ⟨f, hf, hmatches⟩ := h.source.next
  refine ⟨⟨f, some s.next.1, false, _⟩, ?_, ⟨hmatches, rfl⟩, rfl, rfl⟩
  rw [next_of_not_replaying Feed.next h.fresh, hf]
  rfl

end Playback

end Template
