import Template.Proofs.Messages

/-! Writing that shows where it ends.  A number ends before the first character that is no digit,
and a quoted string with the first quote that is not escaped: nothing can be said in a string that
is taken for what stands behind it, and no control character comes out of one. -/

namespace Template

namespace Text

variable {v w v' w' : List Char} {P Q : Prop}

/-- Where a text that begins with `v` is one that begins with `w`, `P` holds, and they go on
alike. -/
def Discerns (v w : List Char) (P : Prop) : Prop := ∀ ⦃s t⦄, v ++ s = w ++ t → P ∧ s = t

namespace Discerns

theorem refl (v : List Char) : Discerns v v True :=
  fun _ _ h => ⟨trivial, List.append_cancel_left h⟩

theorem symm (h : Discerns v w P) : Discerns w v P := by
  intro s t heq
  obtain ⟨hp, hst⟩ := h heq.symm
  exact ⟨hp, hst.symm⟩

theorem mono (h : Discerns v w P) (hpq : P → Q) : Discerns v w Q := by
  intro s t heq
  obtain ⟨hp, hst⟩ := h heq
  exact ⟨hpq hp, hst⟩

theorem append (h : Discerns v w P) (h' : Discerns v' w' Q) :
    Discerns (v ++ v') (w ++ w') (P ∧ Q) := by
  intro s t heq
  rw [List.append_assoc, List.append_assoc] at heq
  obtain ⟨hp, heq⟩ := h heq
  obtain ⟨hq, hst⟩ := h' heq
  exact ⟨⟨hp, hq⟩, hst⟩

theorem behind (front : List Char) (h : Discerns v w P) : Discerns (front ++ v) (front ++ w) P :=
  ((refl front).append h).mono And.right

theorem before (h : Discerns v w P) (back : List Char) : Discerns (v ++ back) (w ++ back) P :=
  (h.append (refl back)).mono And.left

end Discerns

theorem discerns_of_notMem {c : Char} (hv : c ∉ v) (hw : c ∉ w) :
    Discerns (v ++ [c]) (w ++ [c]) (v = w) := by
  intro s t heq
  rw [List.append_assoc, List.append_assoc] at heq
  rcases List.append_eq_append_iff.1 heq with ⟨a, rfl, ha⟩ | ⟨a, rfl, ha⟩
  · cases a with
    | nil => exact ⟨(List.append_nil v).symm, (List.cons.inj ha).2⟩
    | cons x a =>
      cases (List.cons.inj ha).1
      exact absurd (List.mem_append_right v List.mem_cons_self) hw
  · cases a with
    | nil => exact ⟨List.append_nil w, (List.cons.inj ha).2.symm⟩
    | cons x a =>
      cases (List.cons.inj ha).1
      exact absurd (List.mem_append_right w List.mem_cons_self) hv

section Digits

variable {base : Nat}

theorem digitChar_inj : ∀ m < 16, ∀ n < 16, Nat.digitChar m = Nat.digitChar n → m = n := by
  decide

theorem toDigits_inj (hone : 1 < base) (hbase : base ≤ 16) {m n : Nat}
    (h : Nat.toDigits base m = Nat.toDigits base n) : m = n := by
  induction m using Nat.strongRecOn generalizing n with
  | ind m ih =>
    have hm := Nat.mod_lt m (Nat.zero_lt_of_lt hone)
    have hn := Nat.mod_lt n (Nat.zero_lt_of_lt hone)
    rw [Nat.toDigits_eq_if (n := m) hone, Nat.toDigits_eq_if (n := n) hone] at h
    split at h
    · split at h
      · exact digitChar_inj m (by omega) n (by omega) (List.cons.inj h).1
      · rw [← List.nil_append [Nat.digitChar m]] at h
        exact absurd (List.append_inj' h rfl).1.symm Nat.toDigits_ne_nil
    · split at h
      · rw [← List.nil_append [Nat.digitChar n]] at h
        exact absurd (List.append_inj' h rfl).1 Nat.toDigits_ne_nil
      · obtain ⟨hfront, hlast⟩ := List.append_inj' h rfl
        have hdiv := ih (m / base) (Nat.div_lt_self (by omega) hone) hfront
        have hmod := digitChar_inj _ (by omega) _ (by omega) (List.cons.inj hlast).1
        rw [← Nat.div_add_mod m base, ← Nat.div_add_mod n base, hdiv, hmod]

theorem discerns_digits (hone : 1 < base) (hbase : base ≤ 16) {c : Char}
    (hc : ∀ d < 16, c ≠ Nat.digitChar d) (m n : Nat) :
    Discerns (Nat.toDigits base m ++ [c]) (Nat.toDigits base n ++ [c]) (m = n) := by
  have hnot : ∀ k, c ∉ Nat.toDigits base k := by
    intro k hmem
    obtain ⟨d, hd, heq⟩ := exists_digitChar_of_mem hone hbase hmem
    exact hc d hd heq
  exact (discerns_of_notMem (hnot m) (hnot n)).mono (toDigits_inj hone hbase)

theorem discerns_decimal {c : Char} (hc : ∀ d < 16, c ≠ Nat.digitChar d) (m n : Nat) :
    Discerns (Nat.toDigits 10 m ++ [c]) (Nat.toDigits 10 n ++ [c]) (m = n) :=
  discerns_digits (by decide) (by decide) hc m n

end Digits

namespace Quoted

variable {plain : Char → Bool} {c d : Char} {u v : List Char}

def escapes : List (Char × Char) := [
  ('0', '\x00'), ('t', '\t'), ('r', '\r'), ('n', '\n'), ('\\', '\\'), ('"', '"')]

inductive Spelling (plain : Char → Bool) (c : Char) : List Char → Prop
  | plain : plain c = true → c ≠ '\\' → c ≠ '"' → Spelling plain c [c]
  | escape {k : Char} : (k, c) ∈ escapes → Spelling plain c ['\\', k]
  | number : Spelling plain c (hexEscape c)

theorem spelling_encodeChar (plain : Char → Bool) (c : Char) :
    Spelling plain c (encodeChar plain '"' c) := by
  unfold encodeChar
  split
  · exact .escape (by decide)
  · exact .escape (by decide)
  · exact .escape (by decide)
  · exact .escape (by decide)
  · exact .escape (by decide)
  · rename_i hbackslash
    split
    · rename_i hquote
      rw [hquote]
      exact .escape (by decide)
    · rename_i hquote
      split
      · rename_i hplain
        exact .plain hplain hbackslash hquote
      · exact .number

theorem discerns_hexEscape (c d : Char) : Discerns (hexEscape c) (hexEscape d) (c = d) := by
  have hdigits : Discerns (Nat.toDigits 16 c.toNat ++ ['}']) (Nat.toDigits 16 d.toNat ++ ['}'])
      (c.toNat = d.toNat) := discerns_digits (by decide) (by decide) (by decide) _ _
  rw [hexEscape, hexEscape, List.append_assoc, List.append_assoc]
  exact (hdigits.behind ['\\', 'u', '\x7b']).mono Char.toNat_inj.1

theorem escapes_inj : ∀ p ∈ escapes, ∀ q ∈ escapes, p.1 = q.1 → p.2 = q.2 := by decide

theorem ne_u_of_mem_escapes : ∀ p ∈ escapes, p.1 ≠ 'u' := by decide

namespace Spelling

theorem discerns (h : Spelling plain c u) (h' : Spelling plain d v) : Discerns u v (c = d) := by
  -- of different kinds, the two differ in the first or the second character
  have hplain : ∀ {a b k w}, a ≠ '\\' → w = '\\' :: k → Discerns [a] w (a = b) := by
    intro a b k w ha hw s t heq
    rw [hw] at heq
    exact absurd (List.cons.inj heq).1 ha
  have hescape : ∀ {k a b}, (k, a) ∈ escapes → Discerns ['\\', k] (hexEscape b) (a = b) := by
    intro k a b hk s t heq
    exact absurd (List.cons.inj (List.cons.inj heq).2).1 (ne_u_of_mem_escapes _ hk)
  cases h with
  | plain _ hc _ =>
    cases h' with
    | plain _ _ _ => exact fun s t heq => List.cons.inj heq
    | escape _ => exact hplain hc rfl
    | number => exact hplain hc rfl
  | escape hk =>
    cases h' with
    | plain _ hd _ => exact ((hplain hd rfl).mono Eq.symm).symm
    | escape hk' =>
      intro s t heq
      obtain ⟨hkk, hst⟩ := List.cons.inj (List.cons.inj heq).2
      exact ⟨escapes_inj _ hk _ hk' hkk, hst⟩
    | number => exact hescape hk
  | number =>
    cases h' with
    | plain _ hd _ => exact ((hplain hd rfl).mono Eq.symm).symm
    | escape hk' => exact ((hescape hk').mono Eq.symm).symm
    | number => exact discerns_hexEscape c d

theorem head_ne (h : Spelling plain c u) (s t : List Char) : u ++ s ≠ '"' :: t := by
  intro heq
  cases h with
  | plain _ _ hquote => exact hquote (List.cons.inj heq).1
  | escape _ => exact absurd (List.cons.inj heq).1 (by decide)
  | number => exact absurd (List.cons.inj heq).1 (by decide)

end Spelling

theorem discerns_flatMap_encodeChar (plain : Char → Bool) (cs ds : List Char) :
    Discerns (cs.flatMap (encodeChar plain '"') ++ ['"'])
      (ds.flatMap (encodeChar plain '"') ++ ['"']) (cs = ds) := by
  induction cs generalizing ds with
  | nil =>
    cases ds with
    | nil => exact (Discerns.refl _).mono fun _ => rfl
    | cons d ds =>
      intro s t heq
      simp only [List.flatMap_cons, List.append_assoc] at heq
      exact absurd heq.symm ((spelling_encodeChar plain d).head_ne _ _)
  | cons c cs ih =>
    cases ds with
    | nil =>
      intro s t heq
      simp only [List.flatMap_cons, List.append_assoc] at heq
      exact absurd heq ((spelling_encodeChar plain c).head_ne _ _)
    | cons d ds =>
      rw [List.flatMap_cons, List.flatMap_cons, List.append_assoc, List.append_assoc]
      have hchar := (spelling_encodeChar plain c).discerns (spelling_encodeChar plain d)
      exact (hchar.append (ih ds)).mono fun h => List.cons_eq_cons.2 h

theorem discerns_string (plain : Char → Bool) (a b : String) :
    Discerns (string plain a).toList (string plain b).toList (a = b) := by
  rw [string, string, String.toList_ofList, String.toList_ofList, encode, encode]
  have hbody := discerns_flatMap_encodeChar plain a.toList b.toList
  exact (hbody.behind ['"']).mono String.toList_inj.1

end Quoted

section Control

def IsControl (c : Char) : Prop := c.toNat < 0x20 ∨ 0x7f ≤ c.toNat ∧ c.toNat ≤ 0x9f

instance (c : Char) : Decidable (IsControl c) :=
  inferInstanceAs (Decidable (c.toNat < 0x20 ∨ 0x7f ≤ c.toNat ∧ c.toNat ≤ 0x9f))

def Clear (s : String) : Prop := ∀ c ∈ s.toList, ¬ IsControl c

instance (s : String) : Decidable (Clear s) :=
  List.decidableBAll (fun c => ¬ IsControl c) s.toList

theorem isPlain_of_isControl {c : Char} (h : IsControl c) : Quoted.isPlain c = false := by
  have hall : ∀ n < 0xa0, IsControl (Char.ofNat n) → isUnprintable (Char.ofNat n) = true := by
    decide +kernel
  have hlt : c.toNat < 0xa0 := by
    rcases h with h | h <;> omega
  have hc := hall c.toNat hlt
  rw [Char.ofNat_toNat] at hc
  rw [Quoted.isPlain, hc h, Bool.not_true, Bool.and_false]

theorem Clear.append {v w : String} (hv : Clear v) (hw : Clear w) : Clear (v ++ w) := by
  rw [Clear, String.toList_append]
  exact List.forall_mem_append.2 ⟨hv, hw⟩

theorem Clear.intercalate {mark : String} (hmark : Clear mark) {items : List String}
    (h : ∀ s ∈ items, Clear s) : Clear (mark.intercalate items) := by
  induction items with
  | nil =>
    rw [String.intercalate_nil]
    decide
  | cons a items ih =>
    rw [List.forall_mem_cons] at h
    cases items with
    | nil =>
      rw [String.intercalate_singleton]
      exact h.1
    | cons b items =>
      rw [String.intercalate_cons_cons]
      exact (h.1.append hmark).append (ih h.2)

theorem not_isControl_of_mem_toDigits {base : Nat} (hone : 1 < base) (hbase : base ≤ 16) {n : Nat}
    {c : Char} (h : c ∈ Nat.toDigits base n) : ¬ IsControl c := by
  obtain ⟨d, hd, rfl⟩ := exists_digitChar_of_mem hone hbase h
  have hall : ∀ d < 16, ¬ IsControl (Nat.digitChar d) := by decide
  exact hall d hd

theorem clear_number (n : Nat) : Clear (toString n) := by
  intro c hc
  rw [Nat.toString_eq_repr, Nat.toList_repr] at hc
  exact not_isControl_of_mem_toDigits (by decide) (by decide) hc

variable {plain : Char → Bool} (hplain : ∀ c, IsControl c → plain c = false)
include hplain

theorem Quoted.Spelling.clear {c x : Char} {u : List Char} (h : Quoted.Spelling plain c u)
    (hx : x ∈ u) : ¬ IsControl x := by
  cases h with
  | plain hc _ _ =>
    rw [List.mem_singleton.1 hx]
    intro hcontrol
    rw [hplain c hcontrol] at hc
    cases hc
  | @escape k hk =>
    have hall : ∀ p ∈ Quoted.escapes, ¬ IsControl p.1 := by decide
    rcases List.mem_cons.1 hx with rfl | hx
    · decide
    · rw [List.mem_singleton.1 hx]
      exact hall _ hk
  | number =>
    rw [Quoted.hexEscape, List.mem_append, List.mem_append] at hx
    rcases hx with (hx | hx) | hx
    · have hmarks : Clear "\\u\x7b" := by decide
      exact hmarks x hx
    · exact not_isControl_of_mem_toDigits (by decide) (by decide) hx
    · rw [List.mem_singleton.1 hx]
      decide

theorem clear_string (a : String) : Clear (Quoted.string plain a) := by
  intro c hc
  rw [Quoted.string, String.toList_ofList, Quoted.encode, List.mem_append, List.mem_cons,
    List.mem_flatMap] at hc
  rcases hc with (rfl | ⟨d, -, hc⟩) | hc
  · decide
  · exact (Quoted.spelling_encodeChar plain d).clear hplain hc
  · rw [List.mem_singleton.1 hc]
    decide

end Control

end Text

end Template
