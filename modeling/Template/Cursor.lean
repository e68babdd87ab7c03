import Template.Position

namespace Template

structure Cursor where
  position : Position := {}
  rest : List Char
  deriving DecidableEq, Repr

namespace Cursor

def skip (c : Cursor) (n : Nat) : Cursor := ⟨c.position.after (c.rest.take n), c.rest.drop n⟩

/-- The position of the next character; at the end, that of the last one. -/
def nextPosition (c : Cursor) : Position := (c.skip 1).position

@[simp] theorem rest_skip (c : Cursor) (n : Nat) : (c.skip n).rest = c.rest.drop n := rfl

@[simp] theorem skip_zero (c : Cursor) : c.skip 0 = c := by simp [skip]

@[simp] theorem skip_skip (c : Cursor) (m n : Nat) : (c.skip m).skip n = c.skip (m + n) := by
  simp [skip, ← Position.after_append, List.take_add]

def Reaches (c d : Cursor) : Prop := ∃ n, d = c.skip n

theorem reaches_refl (c : Cursor) : c.Reaches c := ⟨0, by simp⟩

theorem reaches_skip (c : Cursor) (n : Nat) : c.Reaches (c.skip n) := ⟨n, rfl⟩

theorem Reaches.trans {c d e : Cursor} : c.Reaches d → d.Reaches e → c.Reaches e := by
  rintro ⟨m, rfl⟩ ⟨n, rfl⟩
  exact ⟨m + n, skip_skip c m n⟩

theorem Reaches.length_le {c d : Cursor} : c.Reaches d → d.rest.length ≤ c.rest.length := by
  rintro ⟨n, rfl⟩
  simp

theorem Reaches.rest_ne_nil {c d : Cursor} (h : c.Reaches d) (hd : d.rest ≠ []) : c.rest ≠ [] := by
  intro hc
  have hle := h.length_le
  rw [hc, List.length_nil, Nat.le_zero, List.length_eq_zero_iff] at hle
  exact hd hle

theorem Reaches.length_lt {c d : Cursor} (hc : c.rest ≠ []) {n : Nat} (hn : 0 < n) :
    (c.skip n).Reaches d → d.rest.length < c.rest.length := by
  intro h
  have hl := h.length_le
  have := List.length_pos_iff.2 hc
  simp only [rest_skip, List.length_drop] at hl
  omega

end Cursor

end Template
