import Template.Lookahead
import Template.Proofs.Window
import Template.Pull.Basic
import Template.Scan.Attribute

/-! Pulling from a window that tracks a plain cursor.  As long as at most `lookahead - 1` characters
are pending, such a window gives back what it is asked for and names the position of the character
that it handed out last.  What a computation pulls is stated here with the cursor at which it
ends. -/

namespace Template

theorem Position.ofRead_append (cs ds : List Char) :
    ofRead (cs ++ ds) = (ofRead cs).after ds := by
  induction ds generalizing cs with
  | nil => rw [List.append_nil, after_nil]
  | cons d ds ih => rw [List.append_cons, ih, ofRead_concat, after_cons]

namespace Lookahead.Plain

def cursor (text : List Char) (k : Nat) : Cursor := ⟨.ofRead (text.take k), text.drop k⟩

theorem cursor_skip (text : List Char) (k n : Nat) :
    (cursor text k).skip n = cursor text (k + n) := by
  simp [cursor, Cursor.skip, ← Position.ofRead_append, List.take_add]

end Lookahead.Plain

open Lookahead (Plain)

/-- The window tracks a plain cursor: it reads alike, and while fewer than `lookahead` characters
are pending it takes back what it is given and knows where it stands. -/
class Tracking (ω : Type) [Window ω] where
  Shows : ω → Plain → Prop
  unread {w : ω} {p : Plain} : Shows w p → p.text.length ≤ p.place + Window.unread w
  read {w : ω} {p : Plain} : Shows w p →
    (Window.read w).1 = p.read.1 ∧ Shows (Window.read w).2 p.read.2
  position {w : ω} {p : Plain} : Shows w p → p.reached < p.place + lookahead →
    (Window.position w).1 = .ofRead (p.text.take p.place) ∧ Shows (Window.position w).2 p
  takeBack {w : ω} {p : Plain} {n : Nat} : Shows w p → n ≤ p.place →
    p.reached + n < p.place + lookahead →
      ∃ w', Window.takeBack w n = .ok w' ∧ Shows w' { p with place := p.place - n }

namespace Lookahead.Follows

variable {r : Lookahead lookahead} {p : Plain} {n : Nat}

theorem place_le (h : Follows r p) : p.place ≤ p.reached := by
  rw [h.reached]
  exact Nat.le_add_right _ _

theorem length_le_unread (h : Follows r p) : p.text.length ≤ p.place + r.unread := by
  have hreached := h.reached
  have hinput := congrArg List.length h.input
  have hle := Text.length_normalize_le r.input
  rw [List.length_drop] at hinput
  rw [unread]
  omega

theorem position_of_near (h : Follows r p) (hnear : p.reached < p.place + lookahead) :
    r.position = .ofRead (p.text.take p.place) := by
  have hplace := h.place_le
  rw [h.position_eq, Plain.position, if_pos (by omega)]

theorem takeBack_of_near (h : Follows r p) (hn : n ≤ p.place)
    (hnear : p.reached + n < p.place + lookahead) :
    ∃ r', r.takeBack n = .ok r' ∧ Follows r' { p with place := p.place - n } := by
  have hplace := h.place_le
  have haccepted : p.takeBack lookahead n = .ok { p with place := p.place - n } :=
    if_pos (by omega)
  obtain ⟨r', q, hr, hq, hrq⟩ | ⟨v, -, hp⟩ := h.takeBack n
  · rw [haccepted] at hq
    cases hq
    exact ⟨r', hr, hrq⟩
  · rw [haccepted] at hp
    cases hp

end Lookahead.Follows

instance : Tracking (Lookahead lookahead) where
  Shows := Lookahead.Follows
  unread h := h.length_le_unread
  read h := h.read
  position h hnear := ⟨h.position_of_near hnear, h⟩
  takeBack h := h.takeBack_of_near

namespace Pull

variable {ω α β σ : Type} {w : ω} {c d : Cursor} {n k : Nat} {x : Pull ω α} {f : α → Pull ω β}

theorem bind_ok {a : α} {w' : ω} (h : x w = .ok (.ok a, w')) : (x >>= f) w = f a w' := by
  have hbind : (x >>= f) w = (x w >>= fun r => ExceptT.bindCont f r.1 r.2) := rfl
  rw [hbind, h]
  rfl

theorem bind_error {e : SyntaxError} {w' : ω} (h : x w = .ok (.error e, w')) :
    (x >>= f) w = .ok (.error e, w') := by
  have hbind : (x >>= f) w = (x w >>= fun r => ExceptT.bindCont f r.1 r.2) := rfl
  rw [hbind, h]
  rfl

theorem bind_violation {v : Violation} (h : x w = .error v) : (x >>= f) w = .error v := by
  have hbind : (x >>= f) w = (x w >>= fun r => ExceptT.bindCont f r.1 r.2) := rfl
  rw [hbind, h]
  rfl

variable [Window ω] [Tracking ω]

/-- The window has handed out `n` characters since it was at the cursor, and can go back there
with fewer than `lookahead` characters pending. -/
def At (w : ω) (c : Cursor) (n : Nat) : Prop :=
  ∃ p m, Tracking.Shows w p ∧ p.place = m + n ∧ p.reached < m + lookahead ∧
    c = Plain.cursor p.text m

namespace At

theorem read (h : At w c n) (hn : n + 1 < lookahead) :
    (Window.read w).1 = (c.rest.drop n).head? ∧ At (Window.read w).2 c (n + 1) := by
  obtain ⟨p, m, hshows, hplace, hreached, rfl⟩ := h
  obtain ⟨hchar, hshows'⟩ := Tracking.read hshows
  constructor
  · rw [hchar, Plain.cursor, Lookahead.Plain.read, List.drop_drop, List.head?_drop, hplace]
  · refine ⟨p.read.2, m, hshows', ?_, ?_, rfl⟩
    · simp only [Lookahead.Plain.read]
      omega
    · simp only [Lookahead.Plain.read]
      split
      · omega
      · exact hreached

theorem position (h : At w c n) :
    (Window.position w).1 = (c.skip n).position ∧ At (Window.position w).2 c n := by
  obtain ⟨p, m, hshows, hplace, hreached, rfl⟩ := h
  obtain ⟨hposition, hshows'⟩ := Tracking.position hshows (by omega)
  constructor
  · rw [hposition, Plain.cursor_skip, Plain.cursor, hplace]
  · exact ⟨p, m, hshows', hplace, hreached, rfl⟩

theorem takeBack (h : At w c n) (hk : k ≤ n) :
    ∃ w', Window.takeBack w k = .ok w' ∧ At w' c (n - k) := by
  obtain ⟨p, m, hshows, hplace, hreached, rfl⟩ := h
  obtain ⟨w', hw', hshows'⟩ := Tracking.takeBack (n := k) hshows (by omega) (by omega)
  refine ⟨w', hw', _, m, hshows', ?_, hreached, rfl⟩
  simp only
  omega

theorem skip (h : At w c (k + n)) : At w (c.skip k) n := by
  obtain ⟨p, m, hshows, hplace, hreached, rfl⟩ := h
  exact ⟨p, m + k, hshows, by omega, by omega, Plain.cursor_skip _ _ _⟩

theorem here (h : At w c n) : At w (c.skip n) 0 := skip h

theorem length_le_unread (h : At w c 0) : c.rest.length ≤ Window.unread w := by
  obtain ⟨p, m, hshows, hplace, hreached, rfl⟩ := h
  have := Tracking.unread hshows
  simp only [Plain.cursor, List.length_drop]
  omega

end At

/-- From `w` the computation comes to an end, by a result or a syntax error, at a cursor for which
`Q` holds: no call to the window is refused on the way. -/
def Pulls (x : Pull ω α) (w : ω) (Q : Except SyntaxError α → Cursor → Prop) : Prop :=
  ∃ o w' d, x w = .ok (o, w') ∧ At w' d 0 ∧ Q o d

variable {Q R : Except SyntaxError α → Cursor → Prop} {Q' : Except SyntaxError β → Cursor → Prop}

theorem pulls_pure {a : α} (h : At w c n) (hQ : Q (.ok a) (c.skip n)) : Pulls (pure a) w Q :=
  ⟨_, w, _, rfl, h.here, hQ⟩

theorem pulls_return {a : α} (h : At w c 0) (hQ : Q (.ok a) c) : Pulls (pure a) w Q :=
  ⟨_, w, c, rfl, h, hQ⟩

theorem pulls_fail {cause : SyntaxError.Cause} {p : Position} (h : At w c n)
    (hQ : Q (.error ⟨cause, p⟩) (c.skip n)) : Pulls (fail cause p) w Q :=
  ⟨_, w, _, rfl, h.here, hQ⟩

theorem pulls_bind (hx : Pulls x w Q) (hok : ∀ a w d, At w d 0 → Q (.ok a) d → Pulls (f a) w Q')
    (herror : ∀ e d, Q (.error e) d → Q' (.error e) d) : Pulls (x >>= f) w Q' := by
  obtain ⟨o, w', d, hx, hd, ho⟩ := hx
  cases o with
  | ok a =>
    obtain ⟨o, w'', d', hf, hd', hQ⟩ := hok a w' d hd ho
    exact ⟨o, w'', d', (bind_ok hx).trans hf, hd', hQ⟩
  | error e => exact ⟨_, w', d, bind_error hx, hd, herror e d ho⟩

theorem pulls_read {f : Option Char → Pull ω β} (h : At w c n) (hn : n + 1 < lookahead)
    (hf : ∀ w, At w c (n + 1) → Pulls (f (c.rest.drop n).head?) w Q') :
    Pulls (read >>= f) w Q' := by
  obtain ⟨hchar, hat⟩ := h.read hn
  obtain ⟨o, w', d, hx, hd, hQ⟩ := hf _ hat
  have hread : (read : Pull ω (Option Char)) w = .ok (.ok (Window.read w).1, (Window.read w).2) :=
    rfl
  rw [hchar] at hread
  exact ⟨o, w', d, (bind_ok hread).trans hx, hd, hQ⟩

theorem pulls_position {f : Position → Pull ω β} (h : At w c n)
    (hf : ∀ w, At w c n → Pulls (f (c.skip n).position) w Q') :
    Pulls (position >>= f) w Q' := by
  obtain ⟨hp, hat⟩ := h.position
  obtain ⟨o, w', d, hx, hd, hQ⟩ := hf _ hat
  have hposition : (position : Pull ω Position) w =
      .ok (.ok (Window.position w).1, (Window.position w).2) := rfl
  rw [hp] at hposition
  exact ⟨o, w', d, (bind_ok hposition).trans hx, hd, hQ⟩

theorem pulls_takeBack {f : Unit → Pull ω β} (h : At w c n) (hk : k ≤ n)
    (hf : ∀ w, At w c (n - k) → Pulls (f ()) w Q') : Pulls (takeBack k >>= f) w Q' := by
  obtain ⟨w₁, hw₁, hat⟩ := h.takeBack hk
  obtain ⟨o, w', d, hx, hd, hQ⟩ := hf w₁ hat
  have htake : (takeBack k : Pull ω Unit) w = .ok (.ok (), w₁) := by
    have hget : (get : Pull ω ω) w = .ok (.ok w, w) := rfl
    refine (bind_ok hget).trans ?_
    rw [hw₁]
    rfl
  exact ⟨o, w', d, (bind_ok htake).trans hx, hd, hQ⟩

section Loop

def Ends (r : EStateM.Result SyntaxError Cursor α) : Except SyntaxError α → Cursor → Prop
  | .ok a, d => r = .ok a d
  | .error e, d => r = .error e d

theorem Ends.unique {r : EStateM.Result SyntaxError Cursor α} {o o' : Except SyntaxError α}
    {d d' : Cursor} (h : Ends r o d) (h' : Ends r o' d') : o = o' ∧ d = d' := by
  cases o <;> cases o' <;> cases h.symm.trans h' <;> exact ⟨rfl, rfl⟩

theorem exists_ends_of_map {y : Scan α} {g : α → β} {o : Except SyntaxError β}
    (h : Ends ((g <$> y) c) o d) : ∃ o', Ends (y c) o' d ∧ o = o'.map g := by
  rw [Scan.map_apply] at h
  cases hy : y c with
  | ok a d' =>
    rw [hy] at h
    have hends : Ends (.ok (g a) d') (.ok (g a)) d' := rfl
    obtain ⟨rfl, rfl⟩ := Ends.unique h hends
    exact ⟨.ok a, rfl, rfl⟩
  | error e d' =>
    rw [hy] at h
    have hends : Ends (.error e d') (.error e : Except SyntaxError β) d' := rfl
    obtain ⟨rfl, rfl⟩ := Ends.unique h hends
    exact ⟨.error e, rfl, rfl⟩

theorem pulls_map {g : α → β} (hx : Pulls x w Q) :
    Pulls (x >>= fun a => pure (g a)) w fun o d => ∃ o', Q o' d ∧ o = o'.map g :=
  pulls_bind hx (fun a _ _ hd ha => pulls_return hd ⟨.ok a, ha, rfl⟩) fun e _ he =>
    ⟨.error e, he, rfl⟩

/-- A step leads to the end that `spec` tells from the state before it, or it reads on to a state
from which `spec` tells the same. -/
def Steps (spec : σ → Cursor → EStateM.Result SyntaxError Cursor α) (s : σ) (c : Cursor) :
    Except SyntaxError (σ ⊕ α) → Cursor → Prop
  | .ok (.inl s'), d => d.rest.length < c.rest.length ∧ spec s c = spec s' d
  | .ok (.inr a), d => spec s c = .ok a d
  | .error e, d => spec s c = .error e d

theorem pulls_along {y : Scan α} {g : α → Scan β} (hx : Pulls x w (Ends (y c)))
    (hf : ∀ a w d, At w d 0 → y c = .ok a d → Pulls (f a) w (Ends (g a d))) :
    Pulls (x >>= f) w (Ends ((y >>= g) c)) := by
  refine pulls_bind hx ?_ ?_
  · intro a w d hd ha
    rw [Scan.bind_apply, ha]
    exact hf a w d hd ha
  · intro e d he
    rw [Scan.bind_apply, he]
    rfl

variable {step : σ → Pull ω (σ ⊕ α)} {spec : σ → Cursor → EStateM.Result SyntaxError Cursor α}

theorem pulls_iterate (hstep : ∀ s c w, At w c 0 → Pulls (step s) w (Steps spec s c)) (s : σ)
    (h : At w c 0) (fuel : Nat) (hfuel : c.rest.length < fuel) :
    Pulls (iterate step fuel s) w (Ends (spec s c)) := by
  induction fuel generalizing s c w with
  | zero => omega
  | succ fuel ih =>
    refine pulls_bind (hstep s c w h) ?_ ?_
    · rintro (s' | a) w' d hd ho
      · obtain ⟨hlt, hspec⟩ := ho
        rw [hspec]
        exact ih s' hd (by omega)
      · exact pulls_return hd ho
    · exact fun e d ho => ho

theorem pulls_loop (hstep : ∀ s c w, At w c 0 → Pulls (step s) w (Steps spec s c)) (s : σ)
    (h : At w c 0) : Pulls (loop step s) w (Ends (spec s c)) := by
  have hfuel := h.length_le_unread
  exact pulls_iterate hstep s h _ (Nat.lt_succ_of_le hfuel)

end Loop

end Pull

end Template
