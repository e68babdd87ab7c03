namespace Template.Text

def normalize : List Char → List Char
  | [] => []
  | '\r' :: '\n' :: cs => '\n' :: normalize cs
  | c :: cs => (if c = '\r' || c = '\x0c' then '\n' else c) :: normalize cs

theorem length_normalize_le (cs : List Char) : (normalize cs).length ≤ cs.length := by
  fun_induction normalize cs with
  | case1 => exact Nat.le_refl 0
  | case2 cs ih => simp only [List.length_cons]; omega
  | case3 c cs _ ih => simp only [List.length_cons]; omega

theorem not_mem_normalize {c : Char} (h : c = '\r' ∨ c = '\x0c') (cs : List Char) :
    c ∉ normalize cs := by
  fun_induction normalize cs with
  | case1 => simp
  | case2 cs ih => rcases h with rfl | rfl <;> simp [ih]
  | case3 d cs _ ih =>
    rw [List.mem_cons, not_or]
    refine ⟨?_, ih⟩
    rcases h with rfl | rfl <;> split <;> simp_all <;> grind

theorem normalize_eq_self {cs : List Char} (hr : '\r' ∉ cs) (hf : '\x0c' ∉ cs) :
    normalize cs = cs := by
  fun_induction normalize cs with
  | case1 => rfl
  | case2 => simp at hr
  | case3 c cs _ ih =>
    simp only [List.mem_cons, not_or] at hr hf
    simp [ih hr.2 hf.2, Ne.symm hr.1, Ne.symm hf.1]

@[simp] theorem normalize_normalize (cs : List Char) :
    normalize (normalize cs) = normalize cs :=
  normalize_eq_self (not_mem_normalize (.inl rfl) cs) (not_mem_normalize (.inr rfl) cs)

theorem normalize_append {as : List Char} (h : as.getLast? ≠ some '\r') (bs : List Char) :
    normalize (as ++ bs) = normalize as ++ normalize bs := by
  fun_induction normalize as with
  | case1 => rfl
  | case2 cs ih =>
    have hcs : cs.getLast? ≠ some '\r' := by
      cases cs with
      | nil => exact nofun
      | cons d ds => rwa [List.getLast?_cons_cons, List.getLast?_cons_cons] at h
    rw [List.cons_append, List.cons_append, normalize, ih hcs, List.cons_append]
  | case3 c cs hpair ih =>
    cases cs with
    | nil =>
      have hc : c ≠ '\r' := fun hc => h (congrArg some hc)
      simp [normalize, hc]
    | cons d ds =>
      rw [List.getLast?_cons_cons] at h
      rw [List.cons_append, normalize, ih h, List.cons_append]
      rintro cs' rfl hcs
      exact hpair ds rfl (congrArg (· :: ds) (List.cons.inj hcs).1)

theorem getLast?_normalize {cs : List Char} (h : cs.getLast? = some '\r') :
    (normalize cs).getLast? = some '\n' := by
  fun_induction normalize cs with
  | case1 => cases h
  | case2 cs ih =>
    cases cs with
    | nil => rfl
    | cons d ds =>
      rw [List.getLast?_cons_cons, List.getLast?_cons_cons] at h
      rw [List.getLast?_cons, ih h, Option.getD_some]
  | case3 c cs hpair ih =>
    cases cs with
    | nil =>
      cases h
      rfl
    | cons d ds =>
      rw [List.getLast?_cons_cons] at h
      rw [List.getLast?_cons, ih h, Option.getD_some]

end Template.Text
