import Template.Proofs.Arena
import Template.Proofs.Causes
import Template.Proofs.Halting
import Template.Proofs.Recording

namespace Template

theorem Lexeme.isEnd_ok (t : Token) : isEnd (.ok t) = true ↔ t.kind = .endOfInput := by
  rw [isEnd_iff]
  constructor
  · rintro ⟨p, hp⟩
    cases hp
    rfl
  · intro hkind
    exact ⟨t.position, by rw [← hkind]⟩

namespace Playback

/-- Where scanning can have come to, with steps back on the way where they are allowed. -/
inductive Reached {σ : Type} (step : σ → Except Violation (Lexeme × σ)) (first : σ) :
    Playback σ → Prop
  | start : Reached step first { source := first }
  | scan {p q : Playback σ} {l : Lexeme} : Reached step first p → p.next step = .ok (l, q) →
    Reached step first q
  | stepBack {p q : Playback σ} : Reached step first p → p.stepBack = .ok q →
    Reached step first q

variable {ω : Type} [Window ω] [Tracking ω] {p : Playback (Feed ω)} {f : Feed ω} {s : Reading}

theorem next_of_matches (h : p.source.Matches s) (hlast : p.replaying = true → p.last?.isSome) :
    ∃ l q s', p.next Feed.next = .ok (l, q) ∧ q.source.Matches s' ∧ q.last?.isSome = true := by
  cases hreplaying : p.replaying with
  | false =>
    obtain ⟨q, hq, hfollows, hl, -⟩ := Follows.next ⟨h, hreplaying⟩
    exact ⟨_, q, _, hq, hfollows.source, by rw [hl]; rfl⟩
  | true =>
    obtain ⟨l, hl⟩ := Option.isSome_iff_exists.1 (hlast hreplaying)
    exact ⟨l, _, s, next_of_replaying Feed.next hreplaying hl, h, by rw [hl]; rfl⟩

theorem Reached.matches (h : Reached Feed.next f p) (hf : f.Matches s) :
    (∃ s', p.source.Matches s') ∧ (p.replaying = true → p.last?.isSome = true) := by
  induction h with
  | start => exact ⟨⟨s, hf⟩, fun h => nomatch h⟩
  | scan _ hnext ih =>
    obtain ⟨⟨s', hmatches⟩, hlast⟩ := ih
    obtain ⟨l, q, s'', hq, hmatches', hlast'⟩ := next_of_matches hmatches hlast
    rw [hq] at hnext
    cases hnext
    exact ⟨⟨s'', hmatches'⟩, fun _ => hlast'⟩
  | @stepBack p q _ hback ih =>
    obtain ⟨hmatches, -⟩ := ih
    rw [Playback.stepBack] at hback
    split at hback
    · cases hback
    · split at hback
      · cases hback
      · rename_i hlast _
        cases hback
        exact ⟨hmatches, fun _ => by simpa [Option.isSome_iff_ne_none] using hlast⟩

theorem Reached.preserves {P : Playback (Feed ω) → Prop} (hf : f.Matches s)
    (hstart : P { source := f })
    (hnext : ∀ {p q : Playback (Feed ω)} {l : Lexeme}, P p → p.replaying = false →
      p.next Feed.next = .ok (l, q) → P q)
    (heq : ∀ {p : Playback (Feed ω)} (b : Bool), P p → P { p with replaying := b })
    (h : p.Reached Feed.next f) : P p := by
  induction h with
  | start => exact hstart
  | @scan p q l hreached hq ih =>
    cases hreplaying : p.replaying with
    | false => exact hnext ih hreplaying hq
    | true =>
      obtain ⟨l', hlast⟩ := Option.isSome_iff_exists.1 ((hreached.matches hf).2 hreplaying)
      rw [next_of_replaying Feed.next hreplaying hlast] at hq
      cases hq
      exact heq false ih
  | stepBack _ hback ih =>
    rw [Playback.stepBack] at hback
    split at hback
    · cases hback
    · split at hback
      · cases hback
      · cases hback
        exact heq true ih

theorem Follows.tokens {fuel : Nat} (h : p.Follows s) (herrors : p.errors = [])
    (hfuel : s.lexemes.length ≤ fuel) :
    ∃ q s', p.tokens Feed.next fuel = .ok (s.lexemes.mapM id, q) ∧ q.Follows s' := by
  induction fuel generalizing p s with
  | zero =>
    obtain ⟨ls, e, hls, -⟩ := s.exists_lexemes_eq
    rw [hls, List.length_append] at hfuel
    cases hfuel
  | succ fuel ih =>
    obtain ⟨q, hq, hfollows, -, herrors'⟩ := h.next
    rw [herrors, List.nil_append] at herrors'
    rw [Playback.tokens, hq]
    by_cases hend : s.next.1.isEnd = true
    · rw [Reading.lexemes_of_isEnd hend]
      obtain ⟨e, he⟩ := Lexeme.isEnd_iff.1 hend
      rw [he]
      exact ⟨q, _, rfl, hfollows⟩
    · rw [Reading.lexemes_of_not_isEnd hend, List.mapM_cons]
      rw [Reading.lexemes_of_not_isEnd hend, List.length_cons] at hfuel
      cases hl : s.next.1 with
      | error e =>
        rw [hl] at herrors'
        refine ⟨q, _, ?_, hfollows⟩
        change Except.ok (Except.error (q.firstError e.position), q) = _
        rw [firstError, herrors']
        rfl
      | ok t =>
        rw [hl] at herrors' hend
        obtain ⟨r, s', hr, hfollows'⟩ := ih hfollows herrors' (Nat.le_of_succ_le_succ hfuel)
        refine ⟨r, s', ?_, hfollows'⟩
        have hkind : t.kind ≠ .endOfInput := fun hkind => hend ((Lexeme.isEnd_ok t).2 hkind)
        change (if t.kind = .endOfInput then pure (.ok [t], q)
          else q.tokens Feed.next fuel >>= fun r => pure (r.1.map (t :: ·), r.2)) = _
        rw [if_neg hkind, hr]
        cases s.next.2.lexemes.mapM id <;> rfl

theorem Follows.scans_congr {ω' : Type} [Window ω'] [Tracking ω'] {p' : Playback (Feed ω')}
    (h : p.Follows s) (h' : p'.Follows s) (k : Nat) :
    ∃ ls q q', p.scans Feed.next k = .ok (ls, q) ∧ p'.scans Feed.next k = .ok (ls, q') := by
  induction k generalizing p p' s with
  | zero => exact ⟨[], p, p', rfl, rfl⟩
  | succ k ih =>
    obtain ⟨q, hq, hfollows, -, -⟩ := h.next
    obtain ⟨q', hq', hfollows', -, -⟩ := h'.next
    obtain ⟨ls, r, r', hr, hr'⟩ := ih hfollows hfollows'
    refine ⟨s.next.1 :: ls, r, r', ?_, ?_⟩
    · rw [scans_succ hq, hr]
      rfl
    · rw [scans_succ hq', hr']
      rfl

end Playback

namespace Document.Builder

variable {ω : Type} [Window ω] [Tracking ω] {p : Playback (Feed ω)} {s : Reading}

theorem scan_eq {fuel : Nat} (b : Builder) (h : p.Follows s) (herrors : p.errors = [])
    (hfuel : s.lexemes.length ≤ fuel) :
    ∃ q s', b.scan Feed.next fuel p = .ok (b.run s.lexemes, q) ∧ q.Follows s' := by
  induction fuel generalizing b p s with
  | zero =>
    obtain ⟨ls, e, hls, -⟩ := s.exists_lexemes_eq
    rw [hls, List.length_append] at hfuel
    cases hfuel
  | succ fuel ih =>
    obtain ⟨q, hq, hfollows, -, herrors'⟩ := h.next
    rw [herrors, List.nil_append] at herrors'
    rw [Builder.scan, hq]
    by_cases hend : s.next.1.isEnd = true
    · rw [Reading.lexemes_of_isEnd hend]
      obtain ⟨e, he⟩ := Lexeme.isEnd_iff.1 hend
      rw [he]
      exact ⟨q, _, rfl, hfollows⟩
    · rw [Reading.lexemes_of_not_isEnd hend]
      rw [Reading.lexemes_of_not_isEnd hend, List.length_cons] at hfuel
      cases hl : s.next.1 with
      | error e =>
        rw [hl] at herrors'
        refine ⟨q, _, ?_, hfollows⟩
        change Except.ok (Except.error (Failure.malformed (q.firstError e.position)), q) = _
        rw [Playback.firstError, herrors']
        rfl
      | ok t =>
        rw [hl] at herrors' hend
        have hkind : t.kind ≠ .endOfInput := fun hkind => hend ((Lexeme.isEnd_ok t).2 hkind)
        rw [run, if_neg hkind]
        cases htake : b.take t with
        | error f =>
          refine ⟨q, _, ?_, hfollows⟩
          refine (if_neg hkind).trans ?_
          rw [htake]
          rfl
        | ok b' =>
          obtain ⟨r, s', hr, hfollows'⟩ :=
            ih b' hfollows herrors' (Nat.le_of_succ_le_succ hfuel)
          refine ⟨r, s', ?_, hfollows'⟩
          refine (if_neg hkind).trans ?_
          rw [htake]
          exact hr

end Document.Builder

namespace Feed

variable {source : String} {f : Feed (Recording source)} {s : Reading}

def recorded (source : String) : Feed (Recording source) := { window := {} }

theorem matches_recorded (source : String) : (recorded source).Matches (.ofString source) :=
  matches_start (Recording.tracks_start source)

theorem follows_recorded (source : String) :
    Playback.Follows ⟨recorded source, none, false, []⟩ (.ofString source) :=
  ⟨matches_recorded source, rfl⟩

theorem Matches.calm (h : f.Matches s) : Lookahead.Calm source f.window.calls := by
  have hat : ∃ c n, Pull.At f.window c n := by
    cases h with
    | text h => exact ⟨_, _, h⟩
    | behind _ h => exact ⟨_, _, h⟩
    | rawText _ h => exact ⟨_, _, h⟩
    | held _ h => exact ⟨_, _, h⟩
  obtain ⟨c, n, p, m, htracks, -⟩ := hat
  exact Recording.Tracks.calm htracks

end Feed

open Document (Builder)

/-- Nothing that is done with a text is ever refused. -/
structure Safe (source : String) : Prop where
  scans : ∀ {p}, Playback.Reached Feed.next (Feed.recorded source) p →
    Lookahead.Calm source p.source.window.calls ∧ ∃ l q, p.next Feed.next = .ok (l, q)
  recorded : ∀ k, ∃ ls p q,
    Playback.scans Feed.next k { source := Feed.recorded source } = .ok (ls, p) ∧
      Playback.scans Feed.next k { source := Feed.ofString lookahead source } = .ok (ls, q)
  tokenized : ∃ p, Playback.tokens Feed.next ((Text.normalize source.toList).length + 1)
      { source := Feed.recorded source } = .ok (tokens source, p) ∧
    Lookahead.Calm source p.source.window.calls
  parsed : ∃ p, Builder.scan Feed.next ((Text.normalize source.toList).length + 1) {}
      { source := Feed.recorded source } = .ok (Document.parse source, p) ∧
    Lookahead.Calm source p.source.window.calls
  attached : ∀ {ts : List Token} {b : Builder}, ts.foldlM Builder.take {} = .ok b →
    b.tree.Closed ∧ (∀ id ∈ Tree.root :: b.opened, id < b.tree.size) ∧
      ∀ t v, b.take t ≠ .error (.refused v)
  built : ∀ v, Document.parse source ≠ .error (.refused v)
  rendered : ∀ {d}, Document.parse source = .ok d → d.tree.Closed ∧
    ∀ id < d.tree.size, ∃ out, d.tree.write d.tree.size 0 false id = .ok out ∧
      d.tree.render id = .ok (String.ofList out)
  message : ∀ e, tokens source = .error e ∨ Document.parse source = .error (.malformed e) →
    e.message ≠ "syntax error"

theorem safe (source : String) : Safe source where
  scans := by
    intro p hreached
    obtain ⟨⟨s, hmatches⟩, hlast⟩ := hreached.matches (Feed.matches_recorded source)
    obtain ⟨l, q, -, hq, -, -⟩ := Playback.next_of_matches hmatches hlast
    exact ⟨hmatches.calm, l, q, hq⟩
  recorded := by
    intro k
    exact (Feed.follows_recorded source).scans_congr (Playback.follows_ofString source) k
  tokenized := by
    obtain ⟨q, s, hq, hfollows⟩ := Playback.Follows.tokens
      (Feed.follows_recorded source) rfl (Reading.ofString source).length_lexemes_le
    exact ⟨q, hq, hfollows.source.calm⟩
  parsed := by
    obtain ⟨q, s, hq, hfollows⟩ := Builder.scan_eq {}
      (Feed.follows_recorded source) rfl (Reading.ofString source).length_lexemes_le
    exact ⟨q, hq, hfollows.source.calm⟩
  attached := by
    intro ts b hts
    have hrange := Builder.inRange_empty.foldlM hts
    exact ⟨hrange.grounded.linked.closed, hrange.opened, hrange.take_ne_refused⟩
  built := by
    intro v hv
    cases Document.ending source with
    | complete ts t g hparse =>
      rw [hparse] at hv
      cases hv
    | fault e i hparse =>
      rw [hparse] at hv
      cases hv
  rendered := by
    intro d hd
    have hgrounded := Document.grounded_of_parse hd
    refine ⟨hgrounded.linked.closed, ?_⟩
    intro id hid
    exact ⟨_, hgrounded.write_eq hid, if_pos hid⟩
  message := by
    rintro e (he | he)
    · exact SyntaxError.Cause.message_ne (telling_of_tokens he)
    · exact SyntaxError.Cause.message_ne (Document.telling_of_parse he)

end Template
