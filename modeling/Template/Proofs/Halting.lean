import Template.Playback
import Template.Proofs.Feeding
import Template.Proofs.Parsing
import Template.Proofs.Vocabulary

namespace Template

namespace Scan

variable {c : Cursor}

theorem length_stop_body_add_two_le {opening : Opening} (start : Position)
    (h : Opening.of? c.rest = some opening) :
    (stop (body opening start) (c.skip opening.width)).rest.length + 2 ≤ c.rest.length := by
  have htwo := two_le_length_of_opens (Option.isSome_iff_exists.2 ⟨opening, h⟩)
  have hle := (forward_body opening start (c.skip opening.width)).length_le
  cases opening with
  | startTag =>
    have hle := (reaches_startTag start (c.skip 1)).length_le
    have hpos : 0 < ((c.skip 1).rest.takeWhile Text.isNameChar).length :=
      length_name_pos (isNameStart_of_startTag h)
    change (stop (startTag start) (c.skip 1)).rest.length + 2 ≤ c.rest.length
    rw [Cursor.rest_skip, List.length_drop, Cursor.rest_skip, List.length_drop,
      ← Cursor.rest_skip] at hle
    omega
  | endTag =>
    simp only [Opening.width, Cursor.rest_skip, List.length_drop] at hle ⊢
    omega
  | comment =>
    simp only [Opening.width, Cursor.rest_skip, List.length_drop] at hle ⊢
    omega
  | mustache =>
    simp only [Opening.width, Cursor.rest_skip, List.length_drop] at hle ⊢
    omega

end Scan

namespace Reading

/-- What is left to read: a raw body that was entered counts for one character. -/
def remaining (s : Reading) : Nat := s.cursor.rest.length + s.mode.weight

theorem cursor_next (s : Reading) : s.next.2.cursor = Scan.stop s.mode.token s.cursor := by
  rw [next, Scan.stop]
  cases s.mode.token s.cursor <;> rfl

theorem remaining_next_markup_lt {c : Cursor} (h : (next ⟨.markup, c⟩).1.isEnd = false) :
    (next ⟨.markup, c⟩).2.remaining < c.rest.length := by
  have hweight := weight_next_lt h
  have hmode := (next ⟨.markup, c⟩).2.mode.weight_le
  have hcursor := cursor_next ⟨.markup, c⟩
  have hmarkup := Scan.markup_apply c
  have hle := (c.reaches_skip (Text.before Scan.opens c.rest).length).length_le
  generalize Text.before Scan.opens c.rest = run at hmarkup hle
  rw [remaining]
  cases htext : Scan.textToken? c run with
  | some t =>
    obtain ⟨data, hdata⟩ := Scan.kind_of_textToken? htext
    rw [htext] at hmarkup
    have hmarkup : (next ⟨.markup, c⟩).2.mode = .markup := by
      rw [next, Mode.token, hmarkup]
      simp only [hdata, Mode.after]
    rw [weight, hmarkup] at hweight
    rw [hmarkup]
    simp only [weight, Mode.weight] at hweight ⊢
    omega
  | none =>
    rw [htext, Scan.construct_apply] at hmarkup
    cases hopening : Opening.of? (c.skip run.length).rest with
    | none =>
      rw [hopening] at hmarkup
      rw [next, Mode.token, hmarkup] at h
      cases h
    | some opening =>
      have htwo := Scan.length_stop_body_add_two_le (c.skip run.length).nextPosition hopening
      rw [hopening] at hmarkup
      rw [Mode.token, Scan.stop, hmarkup, ← Scan.stop] at hcursor
      rw [hcursor]
      omega

theorem remaining_next_lt {s : Reading} (h : s.next.1.isEnd = false) :
    s.next.2.remaining < s.remaining := by
  obtain ⟨mode, c⟩ := s
  cases mode with
  | markup => exact remaining_next_markup_lt h
  | rawText name =>
    have hweight := weight_next_rawText_lt name c
    have hmode := (next ⟨.rawText name, c⟩).2.mode.weight_le
    have hone : (Mode.rawText name).weight = 1 := rfl
    rw [weight, weight, hone] at hweight
    rw [remaining, remaining, hone]
    simp only at hweight ⊢
    omega

theorem length_lexemes_le (s : Reading) : s.lexemes.length ≤ s.remaining + 1 := by
  induction s using Reading.lexemes.induct with
  | case1 s step hend =>
    rw [Reading.lexemes, if_pos hend]
    exact Nat.succ_le_succ (Nat.zero_le _)
  | case2 s step hend ih =>
    have hlt := remaining_next_lt (Bool.eq_false_iff.2 hend)
    rw [Reading.lexemes, if_neg hend, List.length_cons]
    change step.2.remaining < s.remaining at hlt
    change step.2.lexemes.length + 1 ≤ s.remaining + 1
    omega

theorem isEnd_next_rawText (name : String) (c : Cursor) :
    (next ⟨.rawText name, c⟩).1.isEnd = false := by
  rw [next, Mode.token, Scan.rawText_apply]
  simp only
  split
  · rename_i t d h
    split at h
    · split at h <;> cases h <;> rfl
    · cases h
  · rfl

theorem next_of_isEnd {s : Reading} (h : s.next.1.isEnd = true) : s.next.2.next = s.next := by
  obtain ⟨mode, c⟩ := s
  cases mode with
  | rawText name =>
    rw [isEnd_next_rawText] at h
    cases h
  | markup =>
    obtain ⟨p, hp⟩ := Lexeme.isEnd_iff.1 h
    cases hmarkup : Scan.markup c with
    | error e d =>
      rw [next, Mode.token, hmarkup] at hp
      cases hp
    | ok t d =>
      have hnext : next ⟨.markup, c⟩ = (.ok t, ⟨Mode.after .markup t.kind, d⟩) := by
        rw [next, Mode.token, hmarkup]
      rw [hnext] at hp
      cases hp
      obtain ⟨hnil, rfl⟩ := Scan.end_of_markup hmarkup
      rw [hnext]
      simp only [Mode.after, next, Mode.token, Scan.markup_of_rest_eq_nil hnil]

end Reading

namespace Pull

variable {ω : Type} [Window ω]

inductive Takes : Mode → ω → Nat → Except SyntaxError (Token × Mode × Option Token) → ω → Prop
  | token {mode : Mode} {w w' : ω} {r : Token × Mode × Option Token} :
    turnStep mode w = .ok (.ok (.inr r), w') → Takes mode w 1 (.ok r) w'
  | error {mode : Mode} {w w' : ω} {e : SyntaxError} :
    turnStep mode w = .ok (.error e, w') → Takes mode w 1 (.error e) w'
  | again {mode mode' : Mode} {w w' w'' : ω} {n : Nat}
    {o : Except SyntaxError (Token × Mode × Option Token)} :
    turnStep mode w = .ok (.ok (.inl mode'), w') → Takes mode' w' n o w'' →
      Takes mode w (n + 1) o w''

theorem takes_of_iterate {fuel : Nat} {mode : Mode} {w w' : ω}
    {o : Except SyntaxError (Token × Mode × Option Token)}
    (h : iterate turnStep fuel mode w = .ok (o, w')) : ∃ n ≤ fuel, Takes mode w n o w' := by
  induction fuel generalizing mode w with
  | zero => cases h
  | succ fuel ih =>
    rw [iterate] at h
    cases hstep : turnStep mode w with
    | error v =>
      rw [bind_violation hstep] at h
      cases h
    | ok r =>
      obtain ⟨o', w₁⟩ := r
      cases o' with
      | error e =>
        rw [bind_error hstep] at h
        cases h
        exact ⟨1, Nat.le_add_left 1 fuel, .error hstep⟩
      | ok r =>
        rw [bind_ok hstep] at h
        cases r with
        | inr r =>
          cases h
          exact ⟨1, Nat.le_add_left 1 fuel, .token hstep⟩
        | inl mode' =>
          obtain ⟨n, hn, htakes⟩ := ih h
          exact ⟨n + 1, Nat.succ_le_succ hn, .again hstep htakes⟩

end Pull

namespace Playback

def scans {σ : Type} (step : σ → Except Violation (Lexeme × σ)) :
    Nat → Playback σ → Except Violation (List Lexeme × Playback σ)
  | 0, p => .ok ([], p)
  | k + 1, p => do
    let (l, p) ← p.next step
    let (ls, p) ← scans step k p
    return (l :: ls, p)

variable {ω : Type} [Window ω] [Tracking ω] {p : Playback (Feed ω)} {s : Reading}

theorem scans_succ {σ : Type} {step : σ → Except Violation (Lexeme × σ)} {p q : Playback σ}
    {l : Lexeme} (h : p.next step = .ok (l, q)) (k : Nat) :
    p.scans step (k + 1) = (q.scans step k).map fun r => (l :: r.1, r.2) := by
  rw [scans, h]
  change (q.scans step k >>= _) = _
  cases q.scans step k <;> rfl

theorem Follows.scans (h : p.Follows s) (k : Nat) :
    ∃ ls q s', p.scans Feed.next k = .ok (ls, q) ∧ q.Follows s' := by
  induction k generalizing p s with
  | zero => exact ⟨[], p, s, rfl, h⟩
  | succ k ih =>
    obtain ⟨q, hq, hfollows, -, -⟩ := h.next
    obtain ⟨ls, r, s', hr, hfollows'⟩ := ih hfollows
    refine ⟨s.next.1 :: ls, r, s', ?_, hfollows'⟩
    rw [scans_succ hq, hr]
    rfl

theorem Follows.scans_lexemes (h : p.Follows s) :
    ∃ q s', p.scans Feed.next s.lexemes.length = .ok (s.lexemes, q) ∧ q.Follows s' ∧
      s'.next.1.isEnd = true ∧ s.lexemes.getLast? = some s'.next.1 := by
  generalize hn : s.weight = n
  induction n using Nat.strongRecOn generalizing p s with
  | ind n ih =>
    obtain ⟨q, hq, hfollows, -, -⟩ := h.next
    by_cases hend : s.next.1.isEnd = true
    · have hstay := Reading.next_of_isEnd hend
      rw [Reading.lexemes_of_isEnd hend]
      refine ⟨q, s.next.2, ?_, hfollows, ?_, ?_⟩
      · rw [List.length_singleton, scans_succ hq]
        rfl
      · rw [hstay]
        exact hend
      · rw [hstay]
        rfl
    · have hlt := Reading.weight_next_lt (Bool.eq_false_iff.2 hend)
      obtain ⟨r, s', hr, hfollows', hend', hlast⟩ := ih _ (hn ▸ hlt) hfollows rfl
      rw [Reading.lexemes_of_not_isEnd hend]
      refine ⟨r, s', ?_, hfollows', hend', ?_⟩
      · rw [List.length_cons, scans_succ hq, hr]
        rfl
      · rw [List.getLast?_cons, hlast]
        rfl

theorem Follows.scans_end (h : p.Follows s) (hend : s.next.1.isEnd = true) (k : Nat) :
    ∃ q, p.scans Feed.next k = .ok (List.replicate k s.next.1, q) ∧ q.errors = p.errors := by
  induction k generalizing p s with
  | zero => exact ⟨p, rfl, rfl⟩
  | succ k ih =>
    obtain ⟨q, hq, hfollows, -, herrors⟩ := h.next
    have hstay := Reading.next_of_isEnd hend
    obtain ⟨r, hr, herrors'⟩ := ih hfollows (by rw [hstay]; exact hend)
    rw [hstay] at hr
    refine ⟨r, ?_, ?_⟩
    · rw [scans_succ hq, hr]
      rfl
    · obtain ⟨e, he⟩ := Lexeme.isEnd_iff.1 hend
      rw [herrors', herrors, he]
      exact List.append_nil _

theorem Follows.takes (h : p.Follows s) (hheld : p.source.held = none) :
    ∃ n ≤ 2, ∃ o w, Pull.Takes p.source.mode p.source.window n o w ∧
      Feed.token p.source.mode p.source.window = .ok (o, w) := by
  have hmatches := h.source
  obtain ⟨⟨w, mode, held⟩, last?, replaying, errors⟩ := p
  cases hheld
  obtain ⟨o, w', d, htoken, -, -⟩ := Feed.pulls_token hmatches
  obtain ⟨n, hn, htakes⟩ := Pull.takes_of_iterate htoken
  exact ⟨n, hn, o, w', htakes, htoken⟩

theorem follows_ofString (source : String) :
    Follows ⟨Feed.ofString lookahead source, none, false, []⟩ (.ofString source) :=
  ⟨Feed.matches_start (Lookahead.Follows.ofString source), rfl⟩

/-- Scanned on past its errors, a text comes to its end after at most as many lexemes as it has
characters.  The end stays where it is and adds no error, and no scan on the way or after it takes
more than two turns. -/
theorem scans_ofString (source : String) :
    let start : Playback (Feed (Lookahead lookahead)) := { source := .ofString lookahead source }
    (∃ ls e q, start.scans Feed.next (ls.length + 1) = .ok (ls ++ [.ok ⟨.endOfInput, e⟩], q) ∧
      (∀ l ∈ ls, l.isEnd = false) ∧ ls.length ≤ (Text.normalize source.toList).length ∧
      ∀ k, ∃ r, q.scans Feed.next k = .ok (List.replicate k (.ok ⟨.endOfInput, e⟩), r) ∧
        r.errors = q.errors) ∧
    ∀ k, ∃ ls q, start.scans Feed.next k = .ok (ls, q) ∧
      (q.source.held = none → ∃ n ≤ 2, ∃ o w,
        Pull.Takes q.source.mode q.source.window n o w ∧
          Feed.token q.source.mode q.source.window = .ok (o, w)) := by
  have hstart := follows_ofString source
  constructor
  · obtain ⟨ls, e, hls, hnotEnd⟩ := (Reading.ofString source).exists_lexemes_eq
    obtain ⟨q, s', hscans, hfollows, hend, hlast⟩ := hstart.scans_lexemes
    have hlength := (Reading.ofString source).length_lexemes_le
    rw [hls] at hscans hlast hlength
    rw [List.getLast?_append, List.getLast?_singleton, Option.some_or, Option.some.injEq] at hlast
    rw [List.length_append, List.length_singleton] at hscans hlength
    refine ⟨ls, e, q, hscans, hnotEnd, Nat.le_of_succ_le_succ hlength, ?_⟩
    intro k
    obtain ⟨r, hr, herrors⟩ := hfollows.scans_end hend k
    rw [← hlast] at hr
    exact ⟨r, hr, herrors⟩
  · intro k
    obtain ⟨ls, q, s', hscans, hfollows⟩ := hstart.scans k
    exact ⟨ls, q, hscans, hfollows.takes⟩

end Playback

end Template
