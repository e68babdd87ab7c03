import Template.Cursor
import Template.Token
import Template.Text.Split

namespace Template

abbrev Scan := EStateM SyntaxError Cursor

namespace Scan

variable {α β : Type}

def position : Scan Position := return (← get).position

def nextPosition : Scan Position := return (← get).nextPosition

def peek : Scan (Option Char) := return (← get).rest.head?

def skip (n : Nat) : Scan Unit := modify fun c => c.skip n

def read : Scan (Option Char) := do
  let c ← peek
  skip 1
  return c

def takeBefore (p : List Char → Bool) : Scan (List Char) := do
  let front := Text.before p (← get).rest
  skip front.length
  return front

def takeWhile (p : Char → Bool) : Scan (List Char) := do
  let front := (← get).rest.takeWhile p
  skip front.length
  return front

def fail (cause : SyntaxError.Cause) (position : Position) : Scan α := throw ⟨cause, position⟩

def require (p : Prop) [Decidable p] (cause : SyntaxError.Cause) (position : Position) :
    Scan Unit :=
  if p then pure () else fail cause position

def expect (c : Char) : Scan Unit := do
  let found ← read
  require (found = some c) (.unexpected found) (← position)

/-- Runs `item` until it yields nothing.  An item that reads nothing is the last one. -/
def many (item : Scan (Option α)) (c : Cursor) : EStateM.Result SyntaxError Cursor (List α) :=
  match item c with
  | .error e d => .error e d
  | .ok none d => .ok [] d
  | .ok (some a) d =>
    if d.rest.length < c.rest.length then
      match many item d with
      | .error e d => .error e d
      | .ok as d => .ok (a :: as) d
    else .ok [a] d
termination_by c.rest.length

theorem many_of_some {item : Scan (Option α)} {a : α} {c d : Cursor} (h : item c = .ok (some a) d)
    (hlt : d.rest.length < c.rest.length) :
    many item c = match many item d with
      | .ok as d => .ok (a :: as) d
      | .error e d => .error e d := by
  rw [many, h]
  simp only [if_pos hlt]
  cases many item d <;> rfl

theorem many_of_none {item : Scan (Option α)} {c d : Cursor} (h : item c = .ok none d) :
    many item c = .ok [] d := by
  rw [many, h]

theorem many_of_error {item : Scan (Option α)} {c d : Cursor} {e : SyntaxError}
    (h : item c = .error e d) : many item c = .error e d := by
  rw [many, h]

@[simp] theorem pure_apply (a : α) (c : Cursor) : (pure a : Scan α) c = .ok a c := rfl

@[simp] theorem get_apply (c : Cursor) : (get : Scan Cursor) c = .ok c c := rfl

@[simp] theorem position_apply (c : Cursor) : position c = .ok c.position c := rfl

@[simp] theorem nextPosition_apply (c : Cursor) : nextPosition c = .ok c.nextPosition c := rfl

@[simp] theorem peek_apply (c : Cursor) : peek c = .ok c.rest.head? c := rfl

@[simp] theorem skip_apply (n : Nat) (c : Cursor) : skip n c = .ok () (c.skip n) := rfl

@[simp] theorem read_apply (c : Cursor) : read c = .ok c.rest.head? (c.skip 1) := rfl

@[simp] theorem takeBefore_apply (p : List Char → Bool) (c : Cursor) :
    takeBefore p c = .ok (Text.before p c.rest) (c.skip (Text.before p c.rest).length) := rfl

@[simp] theorem takeWhile_apply (p : Char → Bool) (c : Cursor) :
    takeWhile p c = .ok (c.rest.takeWhile p) (c.skip (c.rest.takeWhile p).length) := rfl

@[simp] theorem fail_apply (cause : SyntaxError.Cause) (p : Position) (c : Cursor) :
    (fail cause p : Scan α) c = .error ⟨cause, p⟩ c := rfl

theorem require_apply (p : Prop) [Decidable p] (cause : SyntaxError.Cause) (position : Position)
    (c : Cursor) :
    require p cause position c = if p then .ok () c else .error ⟨cause, position⟩ c := by
  rw [require]
  split <;> rfl

@[simp] theorem bind_apply (x : Scan α) (f : α → Scan β) (c : Cursor) :
    (x >>= f) c = match x c with
      | .ok a d => f a d
      | .error e d => .error e d := by
  cases h : x c <;> simp [bind, EStateM.bind, h]

theorem bind_of_ok {x : Scan α} {f : α → Scan β} {c d : Cursor} {a : α} (h : x c = .ok a d) :
    (x >>= f) c = f a d := by
  rw [bind_apply, h]

@[simp] theorem map_apply (f : α → β) (x : Scan α) (c : Cursor) :
    (f <$> x) c = match x c with
      | .ok a d => .ok (f a) d
      | .error e d => .error e d := by
  cases h : x c <;> simp [Functor.map, EStateM.map, h]

theorem bind_eq_ok {x : Scan α} {f : α → Scan β} {c e : Cursor} {b : β} :
    (x >>= f) c = .ok b e ↔ ∃ a d, x c = .ok a d ∧ f a d = .ok b e := by
  cases h : x c <;> simp [h, and_assoc]

theorem bind_eq_error {x : Scan α} {f : α → Scan β} {c e : Cursor} {err : SyntaxError} :
    (x >>= f) c = .error err e ↔
      x c = .error err e ∨ ∃ a d, x c = .ok a d ∧ f a d = .error err e := by
  cases h : x c <;> simp [h, and_assoc]

def stop (x : Scan α) (c : Cursor) : Cursor :=
  match x c with
  | .ok _ d => d
  | .error _ d => d

theorem stop_of_ok {x : Scan α} {c d : Cursor} {a : α} (h : x c = .ok a d) : stop x c = d := by
  rw [stop, h]

theorem stop_bind_of_ok {x : Scan α} {f : α → Scan β} {c d : Cursor} {a : α} (h : x c = .ok a d) :
    stop (x >>= f) c = stop (f a) d := by
  rw [stop, bind_of_ok h]
  rfl

def Forward (x : Scan α) : Prop := ∀ c : Cursor, c.Reaches (stop x c)

theorem forward_pure (a : α) : Forward (pure a) := fun c => c.reaches_refl

theorem forward_position : Forward position := fun c => c.reaches_refl

theorem forward_nextPosition : Forward nextPosition := fun c => c.reaches_refl

theorem forward_peek : Forward peek := fun c => c.reaches_refl

theorem forward_fail (cause : SyntaxError.Cause) (p : Position) :
    Forward (fail cause p : Scan α) := fun c => c.reaches_refl

theorem forward_skip (n : Nat) : Forward (skip n) := fun c => c.reaches_skip n

theorem forward_bind {x : Scan α} {f : α → Scan β} (hx : Forward x) (hf : ∀ a, Forward (f a)) :
    Forward (x >>= f) := by
  intro c
  have h := hx c
  simp only [stop, bind_apply] at h ⊢
  cases hc : x c with
  | ok a d => rw [hc] at h; exact h.trans (hf a d)
  | error e d => rw [hc] at h; exact h

theorem forward_map {x : Scan α} (f : α → β) (hx : Forward x) : Forward (f <$> x) := by
  intro c
  have h := hx c
  simp only [stop, map_apply] at h ⊢
  cases hc : x c with
  | ok a d => rw [hc] at h; exact h
  | error e d => rw [hc] at h; exact h

theorem forward_get_bind {f : Cursor → Scan α} (hf : ∀ c, Forward (f c)) :
    Forward (get >>= f) := fun c => hf c c

theorem forward_ite {p : Prop} [Decidable p] {x y : Scan α} (hx : Forward x) (hy : Forward y) :
    Forward (if p then x else y) := by
  split
  · exact hx
  · exact hy

theorem forward_read : Forward read := forward_bind forward_peek fun c =>
  forward_bind (forward_skip 1) fun _ => forward_pure c

theorem forward_takeBefore (p : List Char → Bool) : Forward (takeBefore p) :=
  fun c => c.reaches_skip _

theorem forward_takeWhile (p : Char → Bool) : Forward (takeWhile p) :=
  fun c => c.reaches_skip _

theorem forward_require (p : Prop) [Decidable p] (cause : SyntaxError.Cause)
    (position : Position) : Forward (require p cause position) :=
  forward_ite (forward_pure _) (forward_fail _ _)

theorem forward_expect (c : Char) : Forward (expect c) :=
  forward_bind forward_read fun _ => forward_bind forward_position fun _ => forward_require _ _ _

theorem Forward.ok {x : Scan α} (h : Forward x) {c d : Cursor} {a : α} (e : x c = .ok a d) :
    c.Reaches d := by
  simpa [stop, e] using h c

theorem Forward.error {x : Scan α} (h : Forward x) {c d : Cursor} {err : SyntaxError}
    (e : x c = .error err d) : c.Reaches d := by
  simpa [stop, e] using h c

theorem forward_many {item : Scan (Option α)} (h : Forward item) : Forward (many item) := by
  intro c
  simp only [stop]
  fun_induction many item c with
  | case1 c e d hi => exact h.error hi
  | case2 c d hi => exact h.ok hi
  | case3 c a d hi _ e d' hm ih => rw [hm] at ih; exact (h.ok hi).trans ih
  | case4 c a d hi _ as d' hm ih => rw [hm] at ih; exact (h.ok hi).trans ih
  | case5 c a d hi => exact h.ok hi

end Scan

end Template
