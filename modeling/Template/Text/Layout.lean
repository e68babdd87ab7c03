import Template.Text.Classes

namespace Template.Text

def stripLayoutFrom (inBreak : Bool) : List Char → List Char
  | [] => []
  | c :: cs =>
    if c = '\n' || (inBreak && isBlank c) then stripLayoutFrom true cs
    else c :: stripLayoutFrom false cs

def stripLayout (cs : List Char) : List Char := stripLayoutFrom false cs

def leadingLayout (cs : List Char) : List Char :=
  if cs.head? = some '\n' then cs.takeWhile isBlank else []

@[simp] theorem stripLayout_nil : stripLayout [] = [] := rfl

theorem stripLayoutFrom_blanks (ws cs : List Char) (h : ∀ c ∈ ws, isBlank c = true) :
    stripLayoutFrom true (ws ++ cs) = stripLayoutFrom true cs := by
  induction ws with
  | nil => rfl
  | cons w ws ih =>
    simp only [List.mem_cons, forall_eq_or_imp] at h
    simp [stripLayoutFrom, h.1, ih h.2]

theorem stripLayoutFrom_cons_of_not_blank {c : Char} (hc : isBlank c = false) (inBreak : Bool)
    (cs : List Char) : stripLayoutFrom inBreak (c :: cs) = c :: stripLayoutFrom false cs := by
  have hlf : c ≠ '\n' := by
    rintro rfl
    cases hc
  simp [stripLayoutFrom, hlf, hc]

theorem stripLayout_break {ws cs : List Char} (hws : ∀ c ∈ ws, isBlank c = true)
    (hcs : cs.head?.any isBlank = false) : stripLayout ('\n' :: (ws ++ cs)) = stripLayout cs := by
  have hstart : stripLayoutFrom true cs = stripLayoutFrom false cs := by
    cases cs with
    | nil => rfl
    | cons c cs =>
      rw [stripLayoutFrom_cons_of_not_blank hcs, stripLayoutFrom_cons_of_not_blank hcs]
  have hblanks := stripLayoutFrom_blanks ws cs hws
  rw [hstart] at hblanks
  exact hblanks

theorem leadingLayout_break {ws cs : List Char} (hws : ∀ c ∈ ws, isBlank c = true)
    (hcs : cs.head?.any isBlank = false) : leadingLayout ('\n' :: (ws ++ cs)) = '\n' :: ws := by
  have hnone : cs.takeWhile isBlank = [] := by
    cases cs with
    | nil => rfl
    | cons c cs => exact List.takeWhile_cons_of_neg (Bool.eq_false_iff.1 hcs)
  rw [leadingLayout, List.head?_cons, if_pos rfl, List.takeWhile_cons_of_pos isBlank_lineFeed,
    List.takeWhile_append_of_pos hws, hnone, List.append_nil]

theorem leadingLayout_eq_nil {cs : List Char} (hcs : cs.head?.any isBlank = false) :
    leadingLayout cs = [] := by
  rw [leadingLayout, if_neg]
  intro hbreak
  rw [hbreak] at hcs
  cases hcs

end Template.Text
