import Template.CharRef

namespace Template.CharRef

variable {ctx : Context} {cs rest : List Char} {d : Char} {n : Nat}

/-- The text starts with nothing that can belong to a reference before it. -/
def Context.Severs (ctx : Context) (rest : List Char) : Prop :=
  ∀ x, rest.head? = some x →
    x.isAlphanum = false ∧ x ≠ '#' ∧ x ≠ ';' ∧ (ctx = .attribute → x ≠ '=')

theorem named?_eq (ctx : Context) (cs : List Char) :
    let name := cs.takeWhile Char.isAlphanum
    let next := (cs.drop name.length).head?
    named? ctx cs = match ctx with
      | .text =>
        if next = some ';' then
          ((terminated? name).map (·, name.length + 1)).or (legacyFront? name)
        else legacyFront? name
      | .attribute =>
        if next = some ';' then (terminated? name).map (·, name.length + 1)
        else if next = some '=' then none
        else (legacy? name).map (·, name.length) := by
  simp only [named?]
  generalize cs.takeWhile Char.isAlphanum = name
  cases cs.drop name.length with
  | nil => cases ctx <;> rfl
  | cons x xs => cases ctx <;> split <;> simp_all

theorem radix_le (cs : List Char) : (radix cs).2 ≤ cs.length := by
  rw [radix.eq_def]
  split <;> simp

section Append

variable (h : ctx.Severs rest)
include h

theorem takeWhile_append_severed {p : Char → Bool} (hp : ∀ x, p x = true → x.isAlphanum = true)
    (cs : List Char) : (cs ++ rest).takeWhile p = cs.takeWhile p := by
  induction cs with
  | nil =>
    cases rest with
    | nil => rfl
    | cons x rest =>
      apply List.takeWhile_cons_of_neg
      intro hx
      have hclass := (h x rfl).1
      rw [hp x hx] at hclass
      cases hclass
  | cons x cs ih => rw [List.cons_append, List.takeWhile_cons, List.takeWhile_cons, ih]

theorem head?_append_severed {x : Char} (hx : x = ';' ∨ ctx = .attribute ∧ x = '=')
    (cs : List Char) : (cs ++ rest).head? = some x ↔ cs.head? = some x := by
  cases cs with
  | cons y cs => exact Iff.rfl
  | nil =>
    refine ⟨fun hhead => ?_, fun hhead => nomatch hhead⟩
    obtain ⟨-, -, hsemicolon, hequals⟩ := h x hhead
    rcases hx with rfl | ⟨hctx, rfl⟩
    · exact absurd rfl hsemicolon
    · exact absurd rfl (hequals hctx)

theorem semicolonLength_append (cs : List Char) :
    semicolonLength (cs ++ rest) = semicolonLength cs := by
  simp only [semicolonLength, head?_append_severed h (.inl rfl)]

theorem radix_append (cs : List Char) : radix (cs ++ rest) = radix cs := by
  cases cs with
  | cons x cs => rw [List.cons_append, radix.eq_def, radix.eq_def]; split <;> simp_all
  | nil =>
    cases rest with
    | nil => rfl
    | cons x rest =>
      have hclass := (h x rfl).1
      rw [List.nil_append, radix]
      · rfl
      · rintro _ ⟨⟩
        cases hclass
      · rintro _ ⟨⟩
        cases hclass

theorem numeric?_append (cs : List Char) : numeric? (cs ++ rest) = numeric? cs := by
  have hlead := radix_le cs
  have hdigits : ∀ x, isDigitOf (radix cs).1 x = true → x.isAlphanum = true := by
    intro x hx
    rw [isDigitOf, Bool.and_eq_true] at hx
    exact hx.1
  have hle := (List.takeWhile_prefix (l := cs.drop (radix cs).2)
    (isDigitOf (radix cs).1)).length_le
  rw [List.length_drop] at hle
  simp only [numeric?, radix_append h, List.drop_append_of_le_length hlead,
    takeWhile_append_severed h hdigits]
  rw [List.drop_append_of_le_length (by omega), semicolonLength_append h]

theorem named?_append (cs : List Char) : named? ctx (cs ++ rest) = named? ctx cs := by
  have hle := (List.takeWhile_prefix (l := cs) Char.isAlphanum).length_le
  have hname := takeWhile_append_severed h (p := Char.isAlphanum) (fun _ hx => hx) cs
  simp only [named?_eq, hname, List.drop_append_of_le_length hle,
    head?_append_severed h (.inl rfl)]
  cases ctx
  · rfl
  · simp only [head?_append_severed h (.inr ⟨rfl, rfl⟩)]

theorem reference?_append (cs : List Char) : reference? ctx (cs ++ rest) = reference? ctx cs := by
  cases cs with
  | nil =>
    have hnamed := named?_append h []
    rw [List.nil_append] at hnamed
    rw [List.nil_append, reference?, reference?, hnamed]
    · rintro _ ⟨⟩
    · rintro _ rfl
      exact (h '#' rfl).2.1 rfl
  | cons x cs =>
    by_cases hx : x = '#'
    · subst hx
      rw [List.cons_append, reference?, reference?, numeric?_append h]
    · rw [reference?, reference?, named?_append h]
      · rintro _ ⟨⟩
        exact hx rfl
      · rintro _ ⟨⟩
        exact hx rfl

end Append

section Length

theorem length_of_longestLegacy? {run : List Char} {k : Nat}
    (h : longestLegacy? run k = some (d, n)) : n ≤ k := by
  induction k with
  | zero => cases h
  | succ k ih =>
    rw [longestLegacy?] at h
    split at h
    · cases h
      exact Nat.le_refl _
    · exact Nat.le_succ_of_le (ih h)

theorem length_of_legacyFront? {run : List Char} (h : legacyFront? run = some (d, n)) :
    n ≤ run.length :=
  Nat.le_trans (length_of_longestLegacy? h) (Nat.min_le_left _ _)

theorem semicolonLength_le (cs : List Char) : semicolonLength cs ≤ cs.length := by
  rw [semicolonLength]
  split
  · rename_i hhead
    obtain ⟨rest, rfl⟩ := List.head?_eq_some_iff.1 hhead
    exact Nat.succ_pos _
  · exact Nat.zero_le _

theorem length_of_named? (h : named? ctx cs = some (d, n)) : n ≤ cs.length := by
  have hle := (List.takeWhile_prefix (l := cs) Char.isAlphanum).length_le
  simp only [named?_eq] at h
  generalize cs.takeWhile Char.isAlphanum = name at h hle
  have hnext : (cs.drop name.length).head? = some ';' → name.length + 1 ≤ cs.length := by
    intro hhead
    obtain ⟨hlt, -⟩ := List.getElem?_eq_some_iff.1 (List.head?_drop ▸ hhead)
    exact hlt
  cases ctx <;> dsimp only at h
  · split at h
    · rename_i hhead
      cases hterminated : terminated? name with
      | some e =>
        rw [hterminated] at h
        cases h
        exact hnext hhead
      | none =>
        rw [hterminated] at h
        exact Nat.le_trans (length_of_legacyFront? h) hle
    · exact Nat.le_trans (length_of_legacyFront? h) hle
  · split at h
    · rename_i hhead
      obtain ⟨e, -, he⟩ := Option.map_eq_some_iff.1 h
      cases he
      exact hnext hhead
    · split at h
      · cases h
      · obtain ⟨e, -, he⟩ := Option.map_eq_some_iff.1 h
        cases he
        exact hle

theorem length_of_numeric? (h : numeric? cs = some (d, n)) : n ≤ cs.length := by
  have hlead := radix_le cs
  have hle := (List.takeWhile_prefix (l := cs.drop (radix cs).2)
    (isDigitOf (radix cs).1)).length_le
  simp only [numeric?] at h
  generalize (cs.drop (radix cs).2).takeWhile (isDigitOf (radix cs).1) = digits at h hle
  have hsemicolon := semicolonLength_le (cs.drop ((radix cs).2 + digits.length))
  rw [List.length_drop] at hle hsemicolon
  split at h
  · cases h
  · cases h
    omega

theorem length_of_reference? (h : reference? ctx cs = some (d, n)) : n ≤ cs.length := by
  rw [reference?.eq_def] at h
  split at h
  · obtain ⟨⟨e, m⟩, hnumeric, he⟩ := Option.map_eq_some_iff.1 h
    cases he
    exact Nat.succ_le_succ (length_of_numeric? hnumeric)
  · exact length_of_named? h

end Length

theorem decode_append (h : ctx.Severs rest) (cs : List Char) :
    decode ctx (cs ++ rest) = decode ctx cs ++ decode ctx rest := by
  fun_induction decode ctx cs with
  | case1 => rfl
  | case2 cs d n href ih =>
    rw [List.cons_append, decode_of_some ((reference?_append h cs).trans href),
      List.drop_append_of_le_length (length_of_reference? href), ih, List.cons_append]
  | case3 cs href ih =>
    rw [List.cons_append, decode_of_none ((reference?_append h cs).trans href), ih,
      List.cons_append]
  | case4 c cs hc ih => rw [List.cons_append, decode_cons_of_ne hc, ih, List.cons_append]

/-- A string is decoded in parts, wherever it is cut before what cannot go on with a reference: the
part in front may end in a reference that is only half written. -/
theorem decodeString_append {b : String} (h : ctx.Severs b.toList) (a : String) :
    decodeString ctx (a ++ b) = decodeString ctx a ++ decodeString ctx b := by
  rw [decodeString, String.toList_append, decode_append h, String.ofList_append]
  rfl

theorem decodeString_append_unfinished :
    decodeString .text ("&notit" ++ "=&#38") = "¬it" ++ "=&" ∧
      decodeString .attribute ("&#x2" ++ "&lt") = "\x02" ++ "<" := by
  have hequals : Context.text.Severs "=&#38".toList := by
    rintro x ⟨⟩
    decide
  have hampersand : Context.attribute.Severs "&lt".toList := by
    rintro x ⟨⟩
    decide
  constructor
  · rw [decodeString_append hequals]
    decide +kernel
  · rw [decodeString_append hampersand]
    decide +kernel

example : decodeString .attribute ("&lt" ++ "=") = "&lt=" ∧
    decodeString .attribute "&lt" ++ decodeString .attribute "=" = "<=" := by
  decide +kernel

end Template.CharRef
