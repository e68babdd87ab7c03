namespace Template.Text

variable {p : List Char → Bool}

/-- The longest front such that `p` fails on the continuation at each of its characters. -/
def before (p : List Char → Bool) : List Char → List Char
  | [] => []
  | c :: cs => if p (c :: cs) then [] else c :: before p cs

@[simp] theorem before_nil : before p [] = [] := rfl

theorem before_of_pos {cs : List Char} (h : p cs = true) : before p cs = [] := by
  cases cs <;> simp [before, h]

theorem before_of_neg {c : Char} {cs : List Char} (h : p (c :: cs) = false) :
    before p (c :: cs) = c :: before p cs := by
  simp [before, h]

theorem takeWhile_append {p : Char → Bool} {xs rest : List Char}
    (hxs : ∀ x ∈ xs, p x = true) (hrest : rest.head?.any p = false) :
    (xs ++ rest).takeWhile p = xs := by
  rw [List.takeWhile_append_of_pos hxs]
  cases rest with
  | nil => exact List.append_nil xs
  | cons c rest =>
    have hc : p c = false := hrest
    rw [List.takeWhile_cons_of_neg (by simp [hc]), List.append_nil]

theorem takeWhile_append_stop {p : Char → Bool} {xs : List Char} {c : Char}
    (hxs : ∀ x ∈ xs, p x = true) (hc : p c = false) (rest : List Char) :
    (xs ++ c :: rest).takeWhile p = xs :=
  takeWhile_append hxs hc

theorem drop_takeWhile (p : Char → Bool) (cs : List Char) :
    cs.drop (cs.takeWhile p).length = cs.dropWhile p := by
  induction cs with
  | nil => rfl
  | cons x cs ih => by_cases hx : p x = true <;> simp [hx, ih]

theorem head?_dropWhile (p : Char → Bool) (cs : List Char) :
    (cs.dropWhile p).head?.any p = false := by
  induction cs with
  | nil => rfl
  | cons x cs ih => by_cases hx : p x = true <;> simp [hx, ih]

theorem before_append_of_neg {xs : List Char}
    (hxs : ∀ x ∈ xs, ∀ cs, p (x :: cs) = false) (s : List Char) :
    before p (xs ++ s) = xs ++ before p s := by
  induction xs with
  | nil => rfl
  | cons x xs ih =>
    rw [List.forall_mem_cons] at hxs
    rw [List.cons_append, before_of_neg (hxs.1 _), ih hxs.2, List.cons_append]

theorem before_append_drop (p : List Char → Bool) (cs : List Char) :
    before p cs ++ cs.drop (before p cs).length = cs := by
  induction cs with
  | nil => rfl
  | cons c cs ih => by_cases h : p (c :: cs) = true <;> simp [before, h, ih]

theorem drop_before (p : List Char → Bool) (cs : List Char) :
    cs.drop (before p cs).length = [] ∨ p (cs.drop (before p cs).length) = true := by
  induction cs with
  | nil => exact .inl rfl
  | cons c cs ih =>
    by_cases h : p (c :: cs) = true
    · simp [before, h]
    · simpa only [before, h, if_false, Bool.false_eq_true, List.length_cons,
        List.drop_succ_cons] using ih

theorem before_minimal (p : List Char → Bool) (cs : List Char) {n : Nat}
    (h : n < (before p cs).length) : p (cs.drop n) = false := by
  induction cs generalizing n with
  | nil => simp [before] at h
  | cons c cs ih =>
    by_cases hp : p (c :: cs) = true
    · simp [before, hp] at h
    · cases n with
      | zero => simpa using hp
      | succ n => exact ih (by simpa [before, hp] using h)

theorem length_before_le (p : List Char → Bool) (cs : List Char) :
    (before p cs).length ≤ cs.length := by
  have := congrArg List.length (before_append_drop p cs)
  simp only [List.length_append] at this
  omega

end Template.Text
