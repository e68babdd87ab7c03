import Mathlib.Data.List.Forall2
import Mathlib.Data.Nat.Digits.Defs
import Template.CharRef
import Template.Proofs.Decoding
import Template.Text.Split

namespace Template.CharRef

section Digits

variable {base d : Nat} {x : Char}

structure Denotes (base : Nat) (x : Char) (d : Nat) : Prop where
  lt : d < base
  eq : x = Nat.digitChar d ∨ x = (Nat.digitChar d).toUpper

theorem digitValue_of_denotes (hbase : base ≤ 16) (h : Denotes base x d) :
    x.isAlphanum = true ∧ digitValue x = d := by
  have hall : ∀ e < 16, ((Nat.digitChar e).isAlphanum = true ∧ digitValue (Nat.digitChar e) = e) ∧
      (Nat.digitChar e).toUpper.isAlphanum = true ∧ digitValue (Nat.digitChar e).toUpper = e := by
    decide
  obtain ⟨hlower, hupper⟩ := hall d (Nat.lt_of_lt_of_le h.lt hbase)
  rcases h.eq with rfl | rfl
  · exact hlower
  · exact hupper

theorem toNat_lt_of_isAlphanum (h : x.isAlphanum = true) : x.toNat < 128 := by
  have hrange : (x.isUpper = true ∨ x.isLower = true) ∨ x.isDigit = true := by
    rw [← Bool.or_eq_true, ← Bool.or_eq_true]
    exact h
  have hle : x.val ≤ 'Z'.val ∨ x.val ≤ 'z'.val ∨ x.val ≤ '9'.val := by
    rcases hrange with (hupper | hlower) | hdigit
    · exact .inl (of_decide_eq_true hupper).2
    · exact .inr (.inl (of_decide_eq_true (Bool.and_eq_true_iff.1 hlower).2))
    · exact .inr (.inr (of_decide_eq_true (Bool.and_eq_true_iff.1 hdigit).2))
  simp only [UInt32.le_iff_toNat_le] at hle
  have hbounds : 'Z'.val.toNat < 128 ∧ 'z'.val.toNat < 128 ∧ '9'.val.toNat < 128 := by decide
  rw [Char.toNat]
  omega

theorem eq_digitChar_of_isDigitOf (h : isDigitOf 16 x = true) :
    x = Nat.digitChar (digitValue x) ∨ x = (Nat.digitChar (digitValue x)).toUpper := by
  have hall : ∀ n < 128, isDigitOf 16 (Char.ofNat n) = true →
      Char.ofNat n = Nat.digitChar (digitValue (Char.ofNat n)) ∨
        Char.ofNat n = (Nat.digitChar (digitValue (Char.ofNat n))).toUpper := by
    decide +kernel
  have hlt : x.toNat < 128 := by
    rw [isDigitOf, Bool.and_eq_true] at h
    exact toNat_lt_of_isAlphanum h.1
  have hx := hall x.toNat hlt
  rw [Char.ofNat_toNat] at hx
  exact hx h

theorem denotes_iff (hbase : base ≤ 16) :
    Denotes base x d ↔ isDigitOf base x = true ∧ digitValue x = d := by
  constructor
  · intro h
    obtain ⟨hclass, hvalue⟩ := digitValue_of_denotes hbase h
    refine ⟨?_, hvalue⟩
    rw [isDigitOf, hclass, hvalue, decide_eq_true h.lt]
    rfl
  · rintro ⟨h, rfl⟩
    have hlt : x.isAlphanum = true ∧ digitValue x < base := by simpa [isDigitOf] using h
    refine ⟨hlt.2, eq_digitChar_of_isDigitOf ?_⟩
    rw [isDigitOf, hlt.1, decide_eq_true (Nat.lt_of_lt_of_le hlt.2 hbase)]
    rfl

end Digits

section Words

variable {radix n : Nat} {v : UInt32} {digits : List Char} {ds : List Nat}

theorem word?_of_lt (h : n < UInt32.size) : word? n = some (.ofNat n) := if_pos h

theorem word?_of_le (h : UInt32.size ≤ n) : word? n = none := if_neg (Nat.not_lt.2 h)

theorem toNat_of_word? (h : word? n = some v) : v.toNat = n := by
  rw [word?] at h
  split at h
  · cases h
    exact UInt32.toNat_ofNat_of_lt' ‹_›
  · cases h

theorem le_of_word?_eq_none (h : word? n = none) : UInt32.size ≤ n := by
  by_contra hlt
  rw [word?_of_lt (Nat.lt_of_not_le hlt)] at h
  cases h

theorem appendDigit?_eq (radix : Nat) (v : UInt32) (c : Char) :
    appendDigit? radix v c = word? (v.toNat * radix + digitValue c) := by
  rw [appendDigit?]
  cases hshifted : word? (v.toNat * radix) with
  | some w => exact congrArg (fun n => word? (n + digitValue c)) (toNat_of_word? hshifted)
  | none => exact (word?_of_le (Nat.le_add_right_of_le (le_of_word?_eq_none hshifted))).symm

theorem le_foldl_digitValue (hradix : 0 < radix) (n : Nat) (digits : List Char) :
    n ≤ digits.foldl (fun m c => m * radix + digitValue c) n := by
  induction digits generalizing n with
  | nil => exact Nat.le_refl n
  | cons c digits ih =>
    exact Nat.le_trans (Nat.le_add_right_of_le (Nat.le_mul_of_pos_right n hradix)) (ih _)

theorem foldlM_appendDigit? (hradix : 0 < radix) (v : UInt32) (digits : List Char) :
    digits.foldlM (appendDigit? radix) v =
      word? (digits.foldl (fun m c => m * radix + digitValue c) v.toNat) := by
  induction digits generalizing v with
  | nil =>
    have hv := word?_of_lt v.toNat_lt
    rw [UInt32.ofNat_toNat] at hv
    exact hv.symm
  | cons c digits ih =>
    rw [List.foldlM_cons, List.foldl_cons, appendDigit?_eq]
    cases hword : word? (v.toNat * radix + digitValue c) with
    | some w =>
      rw [← toNat_of_word? hword]
      exact ih w
    | none =>
      have hle := le_of_word?_eq_none hword
      exact (word?_of_le (Nat.le_trans hle (le_foldl_digitValue hradix _ digits))).symm

theorem foldl_digitValue (hradix : radix ≤ 16) (h : List.Forall₂ (Denotes radix) digits ds)
    (n : Nat) :
    digits.foldl (fun m c => m * radix + digitValue c) n =
      ds.foldl (fun m d => d + radix * m) n := by
  induction h generalizing n with
  | nil => rfl
  | @cons c d digits ds hd _ ih =>
    rw [List.foldl_cons, List.foldl_cons, ih, (digitValue_of_denotes hradix hd).2, Nat.mul_comm,
      Nat.add_comm]

theorem number?_eq (hpos : 0 < radix) (hradix : radix ≤ 16)
    (h : List.Forall₂ (Denotes radix) digits ds) :
    number? radix digits = word? (Nat.ofDigits radix ds.reverse) := by
  rw [number?, foldlM_appendDigit? hpos, foldl_digitValue hradix h, Nat.ofDigits_eq_foldr,
    List.foldr_reverse]
  rfl

end Words

section Characters

variable {n : Nat} {c d : Char}

/-- What a number of any size stands for. -/
inductive StandsFor : Nat → Char → Prop
  | nothing {n : Nat} : n = 0 ∨ 0xd800 ≤ n ∧ n ≤ 0xdfff ∨ 0x10ffff < n → StandsFor n '\ufffd'
  | windows {n : Nat} {c : Char} : 0x80 ≤ n → n ≤ 0x9f → windows1252[n - 0x80]? = some c →
    StandsFor n c
  | codePoint {c : Char} : c.toNat ≠ 0 → ¬ (0x80 ≤ c.toNat ∧ c.toNat ≤ 0x9f) →
    StandsFor c.toNat c

theorem toNat_valid (c : Char) : c.toNat < 0xd800 ∨ 0xdfff < c.toNat ∧ c.toNat < 0x110000 :=
  c.valid

theorem StandsFor.unique (h : StandsFor n c) (h' : StandsFor n d) : c = d := by
  cases h with
  | nothing hn =>
    cases h' with
    | nothing => rfl
    | windows hlow hhigh => omega
    | codePoint hzero =>
      have hvalid := toNat_valid d
      omega
  | windows hlow hhigh hc =>
    cases h' with
    | nothing hn => omega
    | windows _ _ hd => exact Option.some.inj (hc.symm.trans hd)
    | codePoint _ hd => exact absurd ⟨hlow, hhigh⟩ hd
  | codePoint hzero hc =>
    generalize hn : c.toNat = n at *
    cases h' with
    | nothing hbad =>
      have hvalid := toNat_valid c
      omega
    | windows hlow hhigh => exact absurd ⟨hlow, hhigh⟩ hc
    | codePoint => exact Char.toNat_inj.1 hn

theorem standsFor_numberChar (v : UInt32) : StandsFor v.toNat (numberChar v) := by
  rw [numberChar]
  split
  · rename_i hrange
    simp only [UInt32.le_iff_toNat_le] at hrange
    obtain ⟨hlow, hhigh⟩ : 0x80 ≤ v.toNat ∧ v.toNat ≤ 0x9f := hrange
    have hindex : (v - 0x80).toNat = v.toNat - 0x80 :=
      UInt32.toNat_sub_of_le _ _ (UInt32.le_iff_toNat_le.2 hlow)
    have hlt : v.toNat - 0x80 < windows1252.length := by
      have hlength : windows1252.length = 32 := rfl
      omega
    rw [hindex]
    refine .windows hlow hhigh ?_
    rw [List.getD_eq_getElem?_getD, List.getElem?_eq_getElem hlt, Option.getD_some]
  · rename_i hrange
    simp only [UInt32.le_iff_toNat_le] at hrange
    have hzero : v = 0 ↔ v.toNat = 0 := UInt32.toNat_inj.symm
    split
    · rename_i hvalid
      have hchar : (Char.ofNat v.toNat).toNat = v.toNat := by
        rw [Char.ofNat, dif_pos hvalid.2]
        rfl
      have hstands : StandsFor (Char.ofNat v.toNat).toNat (Char.ofNat v.toNat) := by
        apply StandsFor.codePoint
        · rw [hchar, Ne, ← hzero]
          exact hvalid.1
        · rw [hchar]
          exact hrange
      rwa [hchar] at hstands
    · rename_i hinvalid
      apply StandsFor.nothing
      rw [Ne, hzero] at hinvalid
      simp only [UInt32.isValidChar, Nat.isValidChar] at hinvalid
      omega

theorem standsFor_word? (n : Nat) : StandsFor n (numberChar ((word? n).getD 0xffffffff)) := by
  cases hword : word? n with
  | some v =>
    have hstands := standsFor_numberChar v
    rwa [toNat_of_word? hword] at hstands
  | none =>
    -- the number and the one that counts in its place both lie beyond the code points
    have hle := le_of_word?_eq_none hword
    have hsize : UInt32.size = 4294967296 := rfl
    refine .nothing (.inr (.inr ?_))
    omega

end Characters

section Numerals

variable {base : Nat} {cs marker digits rest : List Char} {ds : List Nat}

/-- What stands between `&#` and the digits of a number in the base; `rest` starts with the
digits. -/
inductive Marks : Nat → List Char → List Char → Prop
  | decimal {rest : List Char} : rest.head? ≠ some 'x' → rest.head? ≠ some 'X' → Marks 10 [] rest
  | lower {rest : List Char} : Marks 16 ['x'] rest
  | upper {rest : List Char} : Marks 16 ['X'] rest

/-- The text behind `&#` starts with a marker and with digits, as many as there are. -/
structure NumeralAt (cs : List Char) (base : Nat) (marker digits : List Char) (ds : List Nat)
    (rest : List Char) : Prop where
  eq : cs = marker ++ (digits ++ rest)
  marks : Marks base marker (digits ++ rest)
  digits : List.Forall₂ (Denotes base) digits ds
  maximal : ∀ x d, rest.head? = some x → ¬ Denotes base x d

def behindSemicolon (cs : List Char) : List Char := if cs.head? = some ';' then cs.tail else cs

theorem drop_semicolonLength (cs : List Char) :
    cs.drop (semicolonLength cs) = behindSemicolon cs := by
  rw [semicolonLength, behindSemicolon]
  split
  · exact List.drop_one
  · rfl

theorem Marks.base_pos (h : Marks base marker rest) : 0 < base := by
  cases h <;> decide

theorem Marks.base_le (h : Marks base marker rest) : base ≤ 16 := by
  cases h <;> decide

theorem Marks.radix_eq (h : Marks base marker rest) :
    radix (marker ++ rest) = (base, marker.length) := by
  cases h with
  | decimal hlower hupper =>
    rw [List.nil_append, radix]
    · rfl
    · rintro xs rfl
      exact hlower rfl
    · rintro xs rfl
      exact hupper rfl
  | lower => rfl
  | upper => rfl

theorem exists_marks (cs : List Char) :
    ∃ base marker rest, cs = marker ++ rest ∧ Marks base marker rest := by
  by_cases hlower : cs.head? = some 'x'
  · obtain ⟨rest, rfl⟩ := List.head?_eq_some_iff.1 hlower
    exact ⟨16, ['x'], rest, rfl, .lower⟩
  · by_cases hupper : cs.head? = some 'X'
    · obtain ⟨rest, rfl⟩ := List.head?_eq_some_iff.1 hupper
      exact ⟨16, ['X'], rest, rfl, .upper⟩
    · exact ⟨10, [], cs, rfl, .decimal hlower hupper⟩

theorem forall₂_denotes (hbase : base ≤ 16) (h : ∀ x ∈ digits, isDigitOf base x = true) :
    List.Forall₂ (Denotes base) digits (digits.map digitValue) := by
  rw [List.forall₂_map_right_iff, List.forall₂_same]
  intro x hx
  exact (denotes_iff hbase).2 ⟨h x hx, rfl⟩

theorem exists_numeralAt (cs : List Char) :
    ∃ base marker digits ds rest, NumeralAt cs base marker digits ds rest := by
  obtain ⟨base, marker, rest, rfl, hmarks⟩ := exists_marks cs
  have hsplit := List.takeWhile_append_dropWhile (p := isDigitOf base) (l := rest)
  have hdigits := forall₂_denotes hmarks.base_le
    (List.all_eq_true.1 (List.all_takeWhile (l := rest) (p := isDigitOf base)))
  refine ⟨base, marker, _, _, rest.dropWhile (isDigitOf base), ?_, ?_, hdigits, ?_⟩
  · rw [hsplit]
  · rwa [hsplit]
  · intro x d hx hd
    have hstop := Text.head?_dropWhile (isDigitOf base) rest
    rw [hx, Option.any_some, ((denotes_iff hmarks.base_le).1 hd).1] at hstop
    cases hstop

theorem NumeralAt.takeWhile_eq (h : NumeralAt cs base marker digits ds rest) :
    (digits ++ rest).takeWhile (isDigitOf base) = digits := by
  apply Text.takeWhile_append
  · intro x hx
    obtain ⟨i, hi, rfl⟩ := List.getElem_of_mem hx
    have hd := h.digits.get hi (h.digits.length_eq ▸ hi)
    exact ((denotes_iff h.marks.base_le).1 hd).1
  · rw [← Bool.not_eq_true, Option.any_eq_true]
    rintro ⟨x, hx, hdigit⟩
    exact h.maximal x _ hx ((denotes_iff h.marks.base_le).2 ⟨hdigit, rfl⟩)

theorem NumeralAt.numeric?_eq (h : NumeralAt cs base marker digits ds rest) :
    numeric? cs = if digits = [] then none
      else some (numberChar (numberValue base digits),
        marker.length + digits.length + semicolonLength rest) := by
  have hdrop : (marker ++ (digits ++ rest)).drop (marker.length + digits.length) = rest := by
    rw [← List.append_assoc, ← List.length_append, List.drop_left]
  simp only [numeric?, h.eq, h.marks.radix_eq, List.drop_left, h.takeWhile_eq, hdrop]

theorem NumeralAt.standsFor (h : NumeralAt cs base marker digits ds rest) :
    StandsFor (Nat.ofDigits base ds.reverse) (numberChar (numberValue base digits)) := by
  rw [numberValue, number?_eq h.marks.base_pos h.marks.base_le h.digits]
  exact standsFor_word? _

theorem NumeralAt.zeros (h : NumeralAt cs base marker digits ds rest) (n : Nat) :
    NumeralAt (marker ++ (List.replicate n '0' ++ digits ++ rest)) base marker
      (List.replicate n '0' ++ digits) (List.replicate n 0 ++ ds) rest := by
  refine ⟨rfl, ?_, ?_, h.maximal⟩
  · cases n with
    | zero => exact h.marks
    | succ n =>
      rw [List.replicate_succ]
      cases h.marks with
      | decimal => exact .decimal (fun hx => nomatch hx) (fun hx => nomatch hx)
      | lower => exact .lower
      | upper => exact .upper
  · refine List.rel_append ?_ h.digits
    induction n with
    | zero => exact .nil
    | succ n ih => exact .cons ⟨h.marks.base_pos, .inl rfl⟩ ih

theorem ofDigits_zeros (n : Nat) (ds : List Nat) :
    Nat.ofDigits base (List.replicate n 0 ++ ds).reverse = Nat.ofDigits base ds.reverse := by
  rw [List.reverse_append, List.reverse_replicate, Nat.ofDigits_append_replicate_zero]

end Numerals

section Decoding

variable {base : Nat} {cs front marker digits rest : List Char} {ds : List Nat} {s : String}

theorem decode_append_ampersand (ctx : Context) (front cs : List Char) :
    decode ctx (front ++ '&' :: cs) = decode ctx front ++ decode ctx ('&' :: cs) := by
  apply decode_append
  rintro x hx
  cases hx
  cases ctx <;> decide

theorem NumeralAt.reference?_eq (h : NumeralAt cs base marker digits ds rest) (hne : digits ≠ [])
    (ctx : Context) :
    ∃ n, reference? ctx ('#' :: cs) = some (numberChar (numberValue base digits), n) ∧
      ('#' :: cs).drop n = behindSemicolon rest := by
  refine ⟨marker.length + digits.length + semicolonLength rest + 1, ?_, ?_⟩
  · rw [reference?, h.numeric?_eq, if_neg hne]
    rfl
  · rw [List.drop_succ_cons, ← List.drop_drop, ← List.drop_drop, h.eq, List.drop_left,
      List.drop_left, drop_semicolonLength]

theorem NumeralAt.decode_eq (h : NumeralAt cs base marker digits ds rest) (hne : digits ≠ [])
    (ctx : Context) :
    decode ctx ('&' :: '#' :: cs) =
      numberChar (numberValue base digits) :: decode ctx (behindSemicolon rest) := by
  obtain ⟨n, href, hdrop⟩ := h.reference?_eq hne ctx
  rw [decode_of_some href, hdrop]

theorem Marks.decode_append (h : Marks base marker rest) (ctx : Context) (cs : List Char) :
    decode ctx (marker ++ cs) = marker ++ decode ctx cs := by
  cases h with
  | decimal => rfl
  | lower => exact decode_cons_of_ne (by decide) cs
  | upper => exact decode_cons_of_ne (by decide) cs

theorem NumeralAt.reference?_eq_none (h : NumeralAt cs base marker [] ds rest) (ctx : Context) :
    reference? ctx ('#' :: cs) = none := by
  rw [reference?, h.numeric?_eq, if_pos rfl]
  rfl

theorem NumeralAt.decode_eq_self (h : NumeralAt cs base marker [] ds rest) (ctx : Context) :
    decode ctx ('&' :: '#' :: cs) = '&' :: '#' :: (marker ++ decode ctx rest) := by
  rw [decode_of_none (h.reference?_eq_none ctx), decode_cons_of_ne (by decide), h.eq,
    h.marks.decode_append, List.nil_append]

/-- Digits behind `&#`, with a marker before them and a semicolon behind them or not, are read as
the one character that their number stands for, whatever its size, and zeros before them change
nothing.  Where there is no digit, what stands there is left as it is. -/
theorem decodeString_numeral (hs : s.toList = front ++ '&' :: '#' :: cs)
    (h : NumeralAt cs base marker digits ds rest) (ctx : Context) :
    (digits ≠ [] → ∃ c, (∀ d, StandsFor (Nat.ofDigits base ds.reverse) d ↔ d = c) ∧
      decodeString ctx s =
        String.ofList (decode ctx front ++ c :: decode ctx (behindSemicolon rest)) ∧
      ∀ n, decodeString ctx (String.ofList
        (front ++ '&' :: '#' :: (marker ++ (List.replicate n '0' ++ digits ++ rest)))) =
          decodeString ctx s) ∧
    (digits = [] → decodeString ctx s =
      String.ofList (decode ctx front ++ '&' :: '#' :: (marker ++ decode ctx rest))) := by
  constructor
  · intro hne
    have hstands := h.standsFor
    have hdecode := h.decode_eq hne ctx
    refine ⟨numberChar (numberValue base digits), ?_, ?_, ?_⟩
    · intro d
      constructor
      · intro hd
        exact hd.unique hstands
      · rintro rfl
        exact hstands
    · rw [decodeString, hs, decode_append_ampersand, hdecode]
    · intro n
      have hzeros := h.zeros n
      have hsame : numberChar (numberValue base (List.replicate n '0' ++ digits)) =
          numberChar (numberValue base digits) := by
        have hstands' := hzeros.standsFor
        rw [ofDigits_zeros] at hstands'
        exact hstands'.unique hstands
      rw [decodeString, decodeString, hs, String.toList_ofList, decode_append_ampersand,
        decode_append_ampersand, hdecode,
        hzeros.decode_eq (List.append_ne_nil_of_right_ne_nil _ hne), hsame]
  · rintro rfl
    rw [decodeString, hs, decode_append_ampersand, h.decode_eq_self]

theorem decodeString_numeral_wide :
    decodeString .text "a&#4294967361;b" = "a\ufffdb" ∧
      StandsFor 4294967361 '\ufffd' := by
  have hnumeral : NumeralAt "4294967361;b".toList 10 [] "4294967361".toList
      [4, 2, 9, 4, 9, 6, 7, 3, 6, 1] ";b".toList := by
    refine ⟨rfl, .decimal (by decide) (by decide), ?_, ?_⟩
    · exact forall₂_denotes (by decide) (List.all_eq_true.1 rfl)
    · rintro x d hx hd
      cases hx
      have hdigit := ((denotes_iff (by decide)).1 hd).1
      cases hdigit
  have hstands : StandsFor 4294967361 '\ufffd' := .nothing (by decide)
  have hs : "a&#4294967361;b".toList = ['a'] ++ '&' :: '#' :: "4294967361;b".toList := rfl
  obtain ⟨c, hc, hdecode, -⟩ := (decodeString_numeral hs hnumeral .text).1 (by decide)
  obtain rfl := (hc _).1 hstands
  refine ⟨hdecode.trans ?_, hstands⟩
  decide +kernel

end Decoding

end Template.CharRef
