import Template.CharRef
import Template.Text.Layout
import Template.Text.Split

namespace Template

namespace CharRef

variable {ctx : Context} {first : Bool} {c : Char} {next : Option Char} {r : String}

theorem reference?_named {name : List Char} (hname : ∀ x ∈ name, x.isAlphanum = true)
    (hc : terminated? name = some c) (rest : List Char) :
    reference? ctx (name ++ ';' :: rest) = some (c, name.length + 1) := by
  have hsharp : reference? ctx (name ++ ';' :: rest) = named? ctx (name ++ ';' :: rest) := by
    cases name with
    | nil => rfl
    | cons x xs =>
      rw [List.cons_append, reference?]
      rintro ys heq
      cases heq
      exact absurd (hname '#' List.mem_cons_self) (by decide)
  rw [hsharp]
  simp only [named?, Text.takeWhile_append_stop hname (show Char.isAlphanum ';' = false by decide),
    List.drop_left]
  cases ctx <;> simp [hc]

theorem isDigitOf_ten (h : c.isDigit = true) : isDigitOf 10 c = true := by
  have hbounds : 48 ≤ c.toNat ∧ c.toNat ≤ 57 := by
    simpa [Char.isDigit, UInt32.le_iff_toNat_le] using h
  have hvalue : digitValue c = c.toNat - 48 := by
    rw [digitValue, if_pos h]
    rfl
  rw [isDigitOf, hvalue]
  simp only [Char.isAlphanum, h, Bool.or_true, Bool.true_and, decide_eq_true_eq]
  omega

theorem reference?_decimal {digits : List Char} (hdigits : ∀ x ∈ digits, x.isDigit = true)
    (hne : digits ≠ []) (rest : List Char) :
    reference? ctx ('#' :: (digits ++ ';' :: rest)) =
      some (numberChar (numberValue 10 digits), digits.length + 2) := by
  have hradix : radix (digits ++ ';' :: rest) = (10, 0) := by
    cases digits with
    | nil => exact absurd rfl hne
    | cons x xs =>
      rw [List.cons_append, radix]
      · rintro ys heq
        cases heq
        exact absurd (hdigits 'x' List.mem_cons_self) (by decide)
      · rintro ys heq
        cases heq
        exact absurd (hdigits 'X' List.mem_cons_self) (by decide)
  have hof : ∀ x ∈ digits, isDigitOf 10 x = true := by
    intro x hx
    exact isDigitOf_ten (hdigits x hx)
  simp only [reference?, numeric?, hradix, List.drop_zero, Text.takeWhile_append_stop hof
    (show isDigitOf 10 ';' = false by decide), if_neg hne, Nat.zero_add, List.drop_left]
  rfl

/-- A reference as it is written: a name or a decimal number between `&` and `;`. -/
inductive Spells (c : Char) : List Char → Prop
  | named {name : List Char} : (∀ x ∈ name, x.isAlphanum = true) → terminated? name = some c →
      Spells c ('&' :: (name ++ [';']))
  | decimal {digits : List Char} : (∀ x ∈ digits, x.isDigit = true) → digits ≠ [] →
      numberChar (numberValue 10 digits) = c → Spells c ('&' :: '#' :: (digits ++ [';']))

theorem Spells.of_name (name : List Char) (hname : name.all Char.isAlphanum = true)
    (hc : terminated? name = some c) : Spells c ('&' :: (name ++ [';'])) :=
  .named (List.all_eq_true.1 hname) hc

theorem Spells.of_digits (digits : List Char) (hdigits : digits.all Char.isDigit = true)
    (hne : digits ≠ []) (hc : numberChar (numberValue 10 digits) = c) :
    Spells c ('&' :: '#' :: (digits ++ [';'])) :=
  .decimal (List.all_eq_true.1 hdigits) hne hc

theorem spells_of_escape? (h : escape? ctx first c next = some r) : Spells c r.toList := by
  rw [escape?.eq_def] at h
  split at h
  · cases h
    exact Spells.of_name ['a', 'm', 'p'] rfl (by decide)
  · split at h
    · cases h
      exact Spells.of_digits ['1', '2', '3'] rfl (by decide) rfl
    · cases h
  · cases h
    exact Spells.of_digits ['1', '0'] rfl (by decide) rfl
  · cases h
    exact Spells.of_digits ['1', '3'] rfl (by decide) rfl
  · cases h
    exact Spells.of_digits ['1', '2'] rfl (by decide) rfl
  · cases h
    exact Spells.of_name ['q', 'u', 'o', 't'] rfl (by decide)
  · cases h
    exact Spells.of_name ['l', 't'] rfl (by decide)
  · split at h
    · cases h
      exact Spells.of_digits ['3', '2'] rfl (by decide) rfl
    · cases h
  · split at h
    · cases h
      exact Spells.of_digits ['9'] rfl (by decide) rfl
    · cases h
  · cases h

theorem Spells.decode_append {cs : List Char} (h : Spells c cs) (rest : List Char) :
    decode ctx (cs ++ rest) = c :: decode ctx rest := by
  cases h with
  | named hname hc =>
    rw [List.cons_append, List.append_assoc, List.singleton_append,
      decode_of_some (reference?_named hname hc rest)]
    simp
  | decimal hdigits hne hc =>
    rw [List.cons_append, List.cons_append, List.append_assoc, List.singleton_append,
      decode_of_some (reference?_decimal hdigits hne rest), hc]
    simp

theorem ne_of_escape?_eq_none (h : escape? ctx first c next = none) : c ≠ '&' := by
  rintro rfl
  cases h

theorem decode_encodeFrom (ctx : Context) (first : Bool) (cs rest : List Char) :
    decode ctx (encodeFrom ctx first cs ++ rest) = cs ++ decode ctx rest := by
  induction cs generalizing first with
  | nil => rfl
  | cons c cs ih =>
    rw [encodeFrom]
    cases h : escape? ctx first c cs.head? with
    | some r => rw [List.append_assoc, (spells_of_escape? h).decode_append, ih, List.cons_append]
    | none =>
      rw [List.cons_append, decode_cons_of_ne (ne_of_escape?_eq_none h), ih, List.cons_append]

theorem decode_encode (ctx : Context) (cs rest : List Char) :
    decode ctx (encode ctx cs ++ rest) = cs ++ decode ctx rest :=
  decode_encodeFrom ctx true cs rest

def Context.reserved : Context → List Char
  | .text => ['<', '\n', '\r', '\x0c']
  | .attribute => ['"', '\n', '\r', '\x0c']

theorem not_mem_reserved_of_none (h : escape? ctx first c next = none) : c ∉ ctx.reserved := by
  intro hc
  cases ctx <;> simp only [Context.reserved, List.mem_cons, List.not_mem_nil, or_false] at hc <;>
    rcases hc with rfl | rfl | rfl | rfl <;> cases h

theorem not_mem_reserved_of_isAlphanum (h : c.isAlphanum = true) : c ∉ '{' :: ctx.reserved := by
  have hall : ('{' :: ctx.reserved).all (fun x => !x.isAlphanum) = true := by
    cases ctx <;> rfl
  intro hc
  have hnot := List.all_eq_true.1 hall c hc
  rw [h] at hnot
  cases hnot

theorem Spells.not_mem_reserved {cs : List Char} (h : Spells c cs) {x : Char} (hx : x ∈ cs) :
    x ∉ '{' :: ctx.reserved := by
  cases h with
  | named hname _ =>
    simp only [List.mem_cons, List.mem_append, List.not_mem_nil, or_false] at hx
    rcases hx with rfl | hx | rfl
    · cases ctx <;> decide
    · exact not_mem_reserved_of_isAlphanum (hname x hx)
    · cases ctx <;> decide
  | decimal hdigits _ _ =>
    simp only [List.mem_cons, List.mem_append, List.not_mem_nil, or_false] at hx
    rcases hx with rfl | rfl | hx | rfl
    · cases ctx <;> decide
    · cases ctx <;> decide
    · apply not_mem_reserved_of_isAlphanum
      rw [Char.isAlphanum, hdigits x hx, Bool.or_true]
    · cases ctx <;> decide

theorem Spells.head?_eq {cs : List Char} (h : Spells c cs) : cs.head? = some '&' := by
  cases h <;> rfl

theorem not_mem_encodeFrom {x : Char} (hx : x ∈ ctx.reserved) (first : Bool) (cs : List Char) :
    x ∉ encodeFrom ctx first cs := by
  induction cs generalizing first with
  | nil => exact List.not_mem_nil
  | cons c cs ih =>
    rw [encodeFrom]
    cases h : escape? ctx first c cs.head? with
    | some r =>
      rw [List.mem_append, not_or]
      refine ⟨?_, ih false⟩
      intro hr
      exact (spells_of_escape? h).not_mem_reserved hr (List.mem_cons_of_mem _ hx)
    | none =>
      rw [List.mem_cons, not_or]
      refine ⟨?_, ih false⟩
      rintro rfl
      exact not_mem_reserved_of_none h hx

theorem not_mem_encode {x : Char} (hx : x ∈ ctx.reserved) (cs : List Char) : x ∉ encode ctx cs :=
  not_mem_encodeFrom hx true cs

theorem head?_encodeFrom_append {cs s : List Char} (hs : s.head? ≠ some '{')
    (h : (encodeFrom ctx first cs ++ s).head? = some '{') : cs.head? = some '{' := by
  cases cs with
  | nil => exact absurd h hs
  | cons c cs =>
    rw [encodeFrom] at h
    cases hc : escape? ctx first c cs.head? with
    | some r =>
      rw [hc] at h
      have hr := (spells_of_escape? hc).head?_eq
      simp [List.head?_append, hr] at h
    | none =>
      rw [hc] at h
      exact h

theorem before_encodeFrom {p : List Char → Bool} {s : List Char}
    (hp : ∀ c cs, p (c :: cs) = true → c ∈ ctx.reserved ∨ c = '{' ∧ cs.head? = some '{')
    (hs : s.head? ≠ some '{') (first : Bool) (cs : List Char) :
    Text.before p (encodeFrom ctx first cs ++ s) = encodeFrom ctx first cs ++ Text.before p s := by
  induction cs generalizing first with
  | nil => rfl
  | cons c cs ih =>
    rw [encodeFrom]
    cases h : escape? ctx first c cs.head? with
    | some r =>
      have hr : ∀ x ∈ r.toList, ∀ ys, p (x :: ys) = false := by
        intro x hx ys
        have hx' : x ∉ '{' :: ctx.reserved := (spells_of_escape? h).not_mem_reserved hx
        rw [List.mem_cons, not_or] at hx'
        rw [← Bool.not_eq_true]
        intro hpos
        rcases hp x ys hpos with hres | ⟨hbrace, -⟩
        · exact hx'.2 hres
        · exact hx'.1 hbrace
      rw [List.append_assoc, Text.before_append_of_neg hr, ih, List.append_assoc]
    | none =>
      have hc : p (c :: (encodeFrom ctx false cs ++ s)) = false := by
        rw [← Bool.not_eq_true]
        intro hpos
        rcases hp c _ hpos with hres | ⟨rfl, hnext⟩
        · exact not_mem_reserved_of_none h hres
        · -- a brace that another follows is escaped, so this one would not stand here
          have hhead := head?_encodeFrom_append hs hnext
          rw [hhead] at h
          cases ctx <;> cases h
      rw [List.cons_append, Text.before_of_neg hc, ih, List.cons_append]

theorem decode_eq_nil_iff {cs : List Char} : decode ctx cs = [] ↔ cs = [] := by
  constructor
  · intro h
    cases cs with
    | nil => rfl
    | cons c cs =>
      by_cases hc : c = '&'
      · subst hc
        cases href : reference? ctx cs with
        | some dn =>
          rw [decode_of_some href] at h
          cases h
        | none =>
          rw [decode_of_none href] at h
          cases h
      · rw [decode_cons_of_ne hc] at h
        cases h
  · rintro rfl
    exact decode_nil ctx

theorem encode_text_cons {cs : List Char} (hcs : cs ≠ []) :
    ∃ x xs, encode .text cs = x :: xs ∧ Text.isBlank x = false := by
  cases cs with
  | nil => exact absurd rfl hcs
  | cons c cs =>
    rw [encode, encodeFrom]
    cases h : escape? .text true c cs.head? with
    | some r =>
      obtain ⟨ys, hys⟩ := List.head?_eq_some_iff.1 (spells_of_escape? h).head?_eq
      refine ⟨'&', ys ++ encodeFrom .text false cs, ?_, rfl⟩
      simp only [hys, List.cons_append]
    | none =>
      refine ⟨c, encodeFrom .text false cs, rfl, ?_⟩
      rw [← Bool.not_eq_true]
      intro hc
      simp only [Text.isBlank, Bool.or_eq_true, decide_eq_true_eq] at hc
      rcases hc with (rfl | rfl) | rfl <;> cases h

end CharRef

namespace Text

theorem stripLayoutFrom_false_append {xs : List Char} (hxs : '\n' ∉ xs) (cs : List Char) :
    stripLayoutFrom false (xs ++ cs) = xs ++ stripLayoutFrom false cs := by
  induction xs with
  | nil => rfl
  | cons x xs ih =>
    rw [List.mem_cons, not_or] at hxs
    simp [stripLayoutFrom, Ne.symm hxs.1, ih hxs.2]

theorem stripLayoutFrom_encode_append {cs : List Char} (hcs : cs ≠ []) (inBreak : Bool)
    (rest : List Char) :
    stripLayoutFrom inBreak (CharRef.encode .text cs ++ rest) =
      CharRef.encode .text cs ++ stripLayoutFrom false rest := by
  have hlf : '\n' ∉ CharRef.encode .text cs := CharRef.not_mem_encode (by decide) cs
  obtain ⟨x, xs, hx, hblank⟩ := CharRef.encode_text_cons hcs
  rw [hx] at hlf ⊢
  rw [List.mem_cons, not_or] at hlf
  rw [List.cons_append, stripLayoutFrom_cons_of_not_blank hblank,
    stripLayoutFrom_false_append hlf.2, List.cons_append]

theorem stripLayoutFrom_encode {cs : List Char} (hcs : cs ≠ []) (inBreak : Bool)
    (rest : List Char) :
    stripLayoutFrom inBreak (CharRef.encode .text cs ++ '\n' :: rest) =
      CharRef.encode .text cs ++ stripLayoutFrom true rest :=
  stripLayoutFrom_encode_append hcs inBreak ('\n' :: rest)

end Text

end Template
