import Template.Proofs.Finding
import Template.Proofs.Safety

namespace Template

namespace Window

variable {ω : Type} [Window ω]

def handsOut : Nat → ω → List Char
  | 0, _ => []
  | fuel + 1, w =>
    match read w with
    | (some c, w) => c :: handsOut fuel w
    | (none, _) => []

def ahead (w : ω) : List Char := handsOut (unread w) w

variable [Tracking ω] {w : ω}

theorem handsOut_eq {p : Lookahead.Plain} {fuel : Nat} (h : Tracking.Shows w p)
    (hfuel : p.text.length ≤ p.place + fuel) : handsOut fuel w = p.text.drop p.place := by
  induction fuel generalizing w p with
  | zero => exact (List.drop_eq_nil_of_le hfuel).symm
  | succ fuel ih =>
    obtain ⟨hchar, hshows⟩ := Tracking.read h
    have hrest := ih hshows (by simp only [Lookahead.Plain.read]; omega)
    rw [handsOut]
    generalize read w = step at hchar hrest
    obtain ⟨found, w'⟩ := step
    change found = p.text[p.place]? at hchar
    cases hplace : p.text[p.place]? with
    | none =>
      rw [hchar, hplace, List.drop_eq_nil_of_le (List.getElem?_eq_none_iff.1 hplace)]
    | some c =>
      obtain ⟨hlt, hc⟩ := List.getElem?_eq_some_iff.1 hplace
      rw [hchar, hplace, List.drop_eq_getElem_cons hlt, hc]
      exact congrArg (c :: ·) hrest

theorem ahead_eq {c : Cursor} (h : Pull.At w c 0) : ahead w = c.rest := by
  obtain ⟨p, m, hshows, hplace, -, rfl⟩ := h
  rw [ahead, handsOut_eq hshows (Tracking.unread hshows), hplace]
  rfl

end Window

def Pull.Mode.announced : Pull.Mode → List Char
  | .endTag _ => Opening.endTag.lead
  | .comment _ => Opening.comment.lead
  | .startTag _ => Opening.startTag.lead
  | .mustache _ => Opening.mustache.lead
  | _ => []

theorem Pull.Mode.announced_ofOpening (start : Position) (opening : Opening) :
    (Mode.ofOpening start opening).announced = opening.lead := by
  cases opening <;> rfl

namespace Feed

variable {ω : Type} [Window ω]

def pulled (f : Feed ω) : List Char :=
  match f.held with
  | some ⟨.endTag name, _⟩ => Scan.closingTag name
  | _ => f.mode.announced

def ahead (f : Feed ω) : List Char := f.pulled ++ Window.ahead f.window

variable [Tracking ω] {f : Feed ω} {s : Reading}

theorem Matches.ahead_eq (h : f.Matches s) : f.ahead = s.cursor.rest := by
  cases h with
  | text hw => exact Window.ahead_eq hw
  | rawText hraw hw => exact Window.ahead_eq hw
  | @behind w c hc hw =>
    rw [ahead, Window.ahead_eq hw, pulled, Pull.Mode.behind, Pull.entry]
    cases hopening : Opening.of? c.rest with
    | none => rw [Option.elim_none, Option.elim_none, Cursor.skip_zero]; rfl
    | some opening =>
      rw [Option.elim_some, Option.elim_some, Pull.Mode.announced_ofOpening]
      exact (Opening.rest_eq hopening).symm
  | @held w c name hclose hw =>
    obtain ⟨rest, hrest⟩ := List.isPrefixOf_iff_prefix.1 hclose
    rw [ahead, Window.ahead_eq hw, pulled, Cursor.rest_skip, ← hrest, List.drop_left]

end Feed

namespace Cursor

theorem skip_ofRead (done front rest : List Char) :
    (⟨.ofRead done, front ++ rest⟩ : Cursor).skip front.length =
      ⟨.ofRead (done ++ front), rest⟩ := by
  rw [skip, List.take_left, List.drop_left, Position.ofRead_append]

theorem nextPosition_ofRead (done rest : List Char) :
    (⟨.ofRead done, rest⟩ : Cursor).nextPosition = .ofRead (done ++ rest.take 1) := by
  rw [nextPosition, skip, Position.ofRead_append]

theorem nextPosition_ofRead_cons (done : List Char) (x : Char) (rest : List Char) :
    (⟨.ofRead done, x :: rest⟩ : Cursor).nextPosition = .ofRead (done ++ [x]) :=
  nextPosition_ofRead done (x :: rest)

theorem Reaches.exists_ofRead {c d : Cursor} {done : List Char} (h : c.Reaches d)
    (hc : c.position = .ofRead done) :
    ∃ front, c.rest = front ++ d.rest ∧ d.position = .ofRead (done ++ front) := by
  obtain ⟨n, rfl⟩ := h
  refine ⟨c.rest.take n, (List.take_append_drop n c.rest).symm, ?_⟩
  rw [skip, hc, Position.ofRead_append]

end Cursor

namespace Playback

variable {ω : Type} [Window ω] {text done : List Char} {p q : Playback (Feed ω)} {s : Reading}

theorem next_eq {l : Lexeme} {f : Feed ω} (hfresh : p.replaying = false)
    (h : p.source.next = .ok (l, f)) :
    p.next Feed.next = .ok (l, ⟨f, some l, false, p.errors ++ l.error?.toList⟩) := by
  rw [next_of_not_replaying Feed.next hfresh, h]
  rfl

variable [Tracking ω]

/-- Scanning of a text has read `done` of it, has come to the reading, and yielded its last lexeme
on the way there. -/
structure StandsAt (text done : List Char) (s : Reading) (p : Playback (Feed ω)) : Prop where
  source : p.source.Matches s
  text_eq : text = done ++ p.source.ahead
  cursor_eq : s.cursor = ⟨.ofRead done, p.source.ahead⟩
  last : ∀ l, p.last? = some l → ∃ s₀ : Reading, s₀.next = (l, s)

theorem StandsAt.next {l : Lexeme} {s' : Reading} (h : p.StandsAt text done s)
    (hfresh : p.replaying = false) (hnext : s.next = (l, s')) :
    ∃ q done', p.next Feed.next = .ok (l, q) ∧ q.StandsAt text done' s' ∧ q.replaying = false ∧
      q.last? = some l ∧ q.errors = p.errors ++ l.error?.toList ∧
        Feed.GoesOn q.source.mode q.source.held l := by
  obtain ⟨f, hf, hmatches⟩ := h.source.next
  have hreaches := Reading.reaches_next s
  rw [hnext] at hf hmatches hreaches
  have hposition : s.cursor.position = .ofRead done := by rw [h.cursor_eq]
  obtain ⟨front, hfront, hfound⟩ := hreaches.exists_ofRead hposition
  have hahead := hmatches.ahead_eq
  have hrest : p.source.ahead = front ++ f.ahead := by
    rw [h.source.ahead_eq, hfront, hahead]
  refine ⟨_, done ++ front, next_eq hfresh hf, ⟨hmatches, ?_, ?_, ?_⟩, rfl, rfl, rfl,
    h.source.goesOn hf⟩
  · rw [h.text_eq, hrest, List.append_assoc]
  · rw [hahead, ← hfound]
  · intro l hl
    cases hl
    exact ⟨s, hnext⟩

theorem StandsAt.replay (h : p.StandsAt text done s) (b : Bool) :
    StandsAt text done s { p with replaying := b } :=
  ⟨h.source, h.text_eq, h.cursor_eq, h.last⟩

theorem StandsAt.start {f : Feed ω} (h : f.Matches { cursor := { rest := text } }) :
    StandsAt text [] { cursor := { rest := text } } { source := f } := by
  have hahead : f.ahead = text := h.ahead_eq
  refine ⟨h, hahead.symm, ?_, ?_⟩
  · rw [hahead]
    rfl
  · intro l hl
    cases hl

theorem standsAt_ofString (source : String) :
    StandsAt (Text.normalize source.toList) [] (Reading.ofString source)
      { source := Feed.ofString lookahead source } :=
  .start (Feed.matches_start (Lookahead.Follows.ofString source))

theorem Reached.standsAt {f : Feed ω} (hf : f.Matches { cursor := { rest := text } })
    (h : p.Reached Feed.next f) : ∃ done s, p.StandsAt text done s := by
  apply h.preserves hf
  · exact ⟨[], _, .start hf⟩
  · rintro p q l ⟨done, s, hstands⟩ hfresh hnext
    obtain ⟨q', done', hq', hstands', -⟩ := hstands.next hfresh rfl
    rw [hq'] at hnext
    cases hnext
    exact ⟨done', _, hstands'⟩
  · rintro p b ⟨done, s, hstands⟩
    exact ⟨done, s, hstands.replay b⟩

theorem Reached.standsAt_ofString {source : String} {p : Playback (Feed (Lookahead lookahead))}
    (h : p.Reached Feed.next (.ofString lookahead source)) :
    ∃ done s, p.StandsAt (Text.normalize source.toList) done s :=
  h.standsAt (Feed.matches_start (Lookahead.Follows.ofString source))

end Playback

end Template
