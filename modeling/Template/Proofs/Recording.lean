import Template.Proofs.Tracking

/-! Windows that keep a record of the calls made to them.  Whatever is pulled out of such a window
can be looked at call by call afterwards. -/

namespace Template

namespace Lookahead

def after (source : String) (calls : List Call) : Lookahead lookahead :=
  calls.foldl (fun r c => (r.call c).2) (ofString lookahead source)

/-- How many characters were handed out for good.  The end of the input counts each time that it
is handed out. -/
def consumed (calls : List Call) : Nat :=
  calls.foldl
    (fun k c => match c with
      | .read => k + 1
      | .takeBack n => k - n
      | .position => k)
    0

/-- The call is accepted, it leaves fewer characters pending than there are slots, and the position
before it is that of the last character consumed. -/
structure CalmAt (source : String) (before : List Call) (c : Call) : Prop where
  accepted : ∀ v, ((after source before).call c).1 ≠ .refused v
  pending_lt : ((after source before).call c).2.pending < lookahead
  position_eq : (after source before).position =
    .ofRead ((Text.normalize source.toList).take (consumed before))

def Calm (source : String) (calls : List Call) : Prop :=
  ∀ before c rest, calls = before ++ c :: rest → CalmAt source before c

theorem after_concat (source : String) (calls : List Call) (c : Call) :
    after source (calls ++ [c]) = ((after source calls).call c).2 := by
  rw [after, List.foldl_append]
  rfl

theorem Calm.concat {source : String} {calls : List Call} {c : Call} (h : Calm source calls)
    (hc : CalmAt source calls c) : Calm source (calls ++ [c]) := by
  intro before c' rest heq
  rcases rest.eq_nil_or_concat with rfl | ⟨rest, x, rfl⟩
  · obtain ⟨rfl, hlast⟩ := List.append_inj' heq rfl
    cases hlast
    exact hc
  · rw [List.concat_eq_append, ← List.cons_append, ← List.append_assoc] at heq
    obtain ⟨hcalls, -⟩ := List.append_inj' heq rfl
    exact h before c' rest hcalls

end Lookahead

open Lookahead (Call Plain Calm CalmAt)

/-- The window on a text, as the calls that were made to it. -/
structure Recording (source : String) where
  calls : List Call := []

namespace Recording

variable {source : String} {r : Recording source} {p q : Plain} {c : Call}

def window (r : Recording source) : Lookahead lookahead := Lookahead.after source r.calls

def log (r : Recording source) (c : Call) : Recording source := ⟨r.calls ++ [c]⟩

instance : Window (Recording source) where
  read r := (r.window.read.1, r.log .read)
  takeBack r n := (r.window.takeBack n).map fun _ => r.log (.takeBack n)
  position r := (r.window.position, r.log .position)
  unread r := r.window.unread

theorem window_log (r : Recording source) (c : Call) :
    (r.log c).window = (r.window.call c).2 :=
  Lookahead.after_concat source r.calls c

structure Tracks (r : Recording source) (p : Plain) : Prop where
  follows : r.window.Follows p
  near : p.reached < p.place + lookahead
  text : p.text = Text.normalize source.toList
  place : p.place = Lookahead.consumed r.calls
  calm : Calm source r.calls

theorem Tracks.log (h : r.Tracks p) (haccepted : ∀ v, (r.window.call c).1 ≠ .refused v)
    (hfollows : (r.window.call c).2.Follows q) (hnear : q.reached < q.place + lookahead)
    (htext : q.text = p.text) (hplace : q.place = Lookahead.consumed (r.calls ++ [c])) :
    (r.log c).Tracks q where
  follows := by
    rw [window_log]
    exact hfollows
  near := hnear
  text := htext.trans h.text
  place := hplace
  calm := by
    refine h.calm.concat ⟨haccepted, ?_, ?_⟩
    · have hreached := hfollows.reached
      change (r.window.call c).2.pending < lookahead
      omega
    · rw [← h.text, ← h.place]
      exact h.follows.position_of_near h.near

theorem consumed_concat (calls : List Call) (c : Call) :
    Lookahead.consumed (calls ++ [c]) = match c with
      | .read => Lookahead.consumed calls + 1
      | .takeBack n => Lookahead.consumed calls - n
      | .position => Lookahead.consumed calls := by
  rw [Lookahead.consumed, List.foldl_append]
  rfl

theorem tracks_start (source : String) :
    Tracks ({} : Recording source) { text := Text.normalize source.toList } where
  follows := .ofString source
  near := Nat.succ_pos 3
  text := rfl
  place := rfl
  calm := by
    intro before c rest heq
    cases before <;> cases heq

theorem Tracks.read (h : r.Tracks p) :
    (Window.read r).1 = p.read.1 ∧ (Window.read r).2.Tracks p.read.2 := by
  obtain ⟨hchar, hfollows⟩ := h.follows.read
  have hplace := h.follows.place_le
  have hnear := h.near
  refine ⟨hchar, h.log (fun v => Lookahead.Reply.noConfusion) hfollows ?_ rfl ?_⟩
  · simp only [Plain.read]
    split <;> omega
  · rw [consumed_concat, ← h.place]
    rfl

theorem Tracks.position (h : r.Tracks p) :
    (Window.position r).1 = .ofRead (p.text.take p.place) ∧ (Window.position r).2.Tracks p := by
  refine ⟨h.follows.position_of_near h.near, ?_⟩
  refine h.log (fun v => Lookahead.Reply.noConfusion) h.follows h.near rfl ?_
  rw [consumed_concat, ← h.place]

theorem Tracks.takeBack {n : Nat} (h : r.Tracks p) (hn : n ≤ p.place)
    (hnear : p.reached + n < p.place + lookahead) :
    ∃ r', Window.takeBack r n = .ok r' ∧ r'.Tracks { p with place := p.place - n } := by
  obtain ⟨w, hw, hfollows⟩ := h.follows.takeBack_of_near hn hnear
  have hcall : r.window.call (.takeBack n) = (.takenBack, w) := by
    rw [Lookahead.call, hw]
  refine ⟨r.log (.takeBack n), ?_, h.log ?_ ?_ ?_ rfl ?_⟩
  · change (r.window.takeBack n).map _ = _
    rw [hw]
    rfl
  · rw [hcall]
    exact fun v => Lookahead.Reply.noConfusion
  · rw [hcall]
    exact hfollows
  · simp only
    omega
  · rw [consumed_concat, ← h.place]

end Recording

instance {source : String} : Tracking (Recording source) where
  Shows := Recording.Tracks
  unread h := h.follows.length_le_unread
  read h := h.read
  position h _ := h.position
  takeBack h := h.takeBack

end Template
