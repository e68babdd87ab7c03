import Template.Proofs.Numbers

namespace Template.CharRef

section Table

variable {name spelling : List Char} {c : Char}

def distinct (seen : Nat) : List Nat → Bool
  | [] => true
  | n :: ns => !seen.testBit n && distinct (seen ||| 2 ^ n) ns

theorem nodup_of_distinct {seen : Nat} {ns : List Nat} (h : distinct seen ns = true) :
    (∀ n ∈ ns, seen.testBit n = false) ∧ ns.Nodup := by
  induction ns generalizing seen with
  | nil => exact ⟨List.forall_mem_nil _, List.nodup_nil⟩
  | cons n ns ih =>
    rw [distinct, Bool.and_eq_true, Bool.not_eq_true'] at h
    obtain ⟨hbits, hnodup⟩ := ih h.2
    have hnew : ∀ m ∈ ns, seen.testBit m = false ∧ n ≠ m := by
      intro m hm
      simpa [Nat.testBit_or, Nat.testBit_two_pow] using hbits m hm
    refine ⟨List.forall_mem_cons.2 ⟨h.1, fun m hm => (hnew m hm).1⟩, ?_⟩
    exact List.nodup_cons.2 ⟨fun hmem => (hnew n hmem).2 rfl, hnodup⟩

def code (name : String) : Nat :=
  name.toByteArray.data.toList.foldl (fun n b => n * 128 + b.toNat) 0 % 3649

theorem nodup_names : ((legacyNames ++ strictNames).map Prod.fst).Nodup := by
  -- there are too many pairs of names to compare them one by one
  have hcodes : distinct 0 (((legacyNames ++ strictNames).map Prod.fst).map code) = true := by
    decide +kernel
  have hne : ∀ v w : String, code v ≠ code w → v ≠ w := fun _ _ h heq => h (congrArg code heq)
  exact List.Pairwise.of_map code hne (nodup_of_distinct hcodes).2

theorem lookup_eq_some_iff_mem {table : List (String × Char)} (h : (table.map Prod.fst).Nodup)
    {key : String} : table.lookup key = some c ↔ (key, c) ∈ table := by
  constructor
  · intro hlookup
    obtain ⟨before, after, rfl, -⟩ := List.lookup_eq_some_iff.1 hlookup
    exact List.mem_append_right _ List.mem_cons_self
  · intro hmem
    obtain ⟨before, after, rfl⟩ := List.append_of_mem hmem
    refine List.lookup_eq_some_iff.2 ⟨before, after, rfl, ?_⟩
    rw [List.map_append, List.nodup_append] at h
    intro p hp
    have hne := h.2.2 p.1 (List.mem_map_of_mem hp) key List.mem_cons_self
    exact bne_iff_ne.2 (Ne.symm hne)

theorem terminated?_eq_some_iff :
    terminated? name = some c ↔ (String.ofList name, c) ∈ legacyNames ++ strictNames :=
  lookup_eq_some_iff_mem nodup_names

theorem legacy?_eq_some_iff : legacy? name = some c ↔ (String.ofList name, c) ∈ legacyNames := by
  have hnodup := nodup_names
  rw [List.map_append, List.nodup_append] at hnodup
  exact lookup_eq_some_iff_mem hnodup.1

/-- The table holds the spelling: a name with a semicolon, or one that may stand without. -/
def Names (spelling : List Char) (c : Char) : Prop :=
  (String.ofList spelling, c) ∈ legacyNames ∨
    ∃ name, spelling = name ++ [';'] ∧ (String.ofList name, c) ∈ legacyNames ++ strictNames

theorem names_semicolon (run : List Char) (c : Char) :
    Names (run ++ [';']) c ↔ terminated? run = some c := by
  have hlast : ∀ e ∈ legacyNames, e.1.toList.getLast? ≠ some ';' := by decide +kernel
  rw [terminated?_eq_some_iff]
  constructor
  · rintro (hmem | ⟨name, heq, hmem⟩)
    · exact absurd (by simp) (hlast _ hmem)
    · rwa [List.append_cancel_right heq]
  · exact fun hmem => .inr ⟨run, rfl, hmem⟩

theorem names_of_getLast?_ne (h : spelling.getLast? ≠ some ';') (c : Char) :
    Names spelling c ↔ legacy? spelling = some c := by
  rw [legacy?_eq_some_iff]
  constructor
  · rintro (hmem | ⟨name, rfl, -⟩)
    · exact hmem
    · exact absurd (by simp) h
  · exact .inl

theorem lookup?_eq_some_iff : lookup? (.ofList spelling) = some c ↔ Names spelling c := by
  rw [lookup?, String.toList_ofList]
  split
  · rename_i hlast
    obtain ⟨name, rfl⟩ := List.getLast?_eq_some_iff.1 hlast
    rw [List.dropLast_concat, names_semicolon]
  · rename_i hlast
    rw [names_of_getLast?_ne hlast]

end Table

section Names

variable {run front back name : List Char} {c d : Char} {k n m : Nat}

structure LongestFront (run front back : List Char) (c : Char) : Prop where
  eq : run = front ++ back
  two_le : 2 ≤ front.length
  names : Names front c
  longest : ∀ f b d, run = f ++ b → Names f d → f.length ≤ front.length

theorem names_alphanum (h : ∀ x ∈ name, x.isAlphanum = true) (c : Char) :
    Names name c ↔ legacy? name = some c := by
  refine names_of_getLast?_ne ?_ c
  intro hlast
  have hclass := h ';' (List.mem_of_getLast? hlast)
  cases hclass

theorem length_of_legacy? (h : legacy? name = some c) :
    2 ≤ name.length ∧ name.length ≤ maxLegacyLength := by
  have hnames : ∀ e ∈ legacyNames, 2 ≤ e.1.toList.length := by decide +kernel
  have hmem := legacy?_eq_some_iff.1 h
  have htwo := hnames _ hmem
  have hmax := length_le_maxLegacyLength _ hmem
  rw [String.toList_ofList] at htwo hmax
  exact ⟨htwo, hmax⟩

theorem longestLegacy?_eq_some (h : longestLegacy? run k = some (c, n)) :
    n ≤ k ∧ legacy? (run.take n) = some c ∧
      ∀ m, n < m → m ≤ k → legacy? (run.take m) = none := by
  induction k with
  | zero => cases h
  | succ k ih =>
    rw [longestLegacy?] at h
    split at h
    · rename_i d hlegacy
      cases h
      refine ⟨Nat.le_refl _, hlegacy, ?_⟩
      intro m hlt hle
      omega
    · rename_i hnone
      obtain ⟨hn, hlegacy, hlonger⟩ := ih h
      refine ⟨Nat.le_succ_of_le hn, hlegacy, ?_⟩
      intro m hlt hle
      rcases Nat.le_succ_iff.1 hle with hle | rfl
      · exact hlonger m hlt hle
      · exact hnone

theorem longestLegacy?_eq_none (h : longestLegacy? run k = none) (hpos : 0 < m) (hm : m ≤ k) :
    legacy? (run.take m) = none := by
  induction k with
  | zero => exact absurd hm (Nat.not_le_of_gt hpos)
  | succ k ih =>
    rw [longestLegacy?] at h
    split at h
    · cases h
    · rename_i hnone
      rcases Nat.le_succ_iff.1 hm with hm | rfl
      · exact ih h hm
      · exact hnone

theorem length_of_legacy?_take (hm : m ≤ run.length) (h : legacy? (run.take m) = some c) :
    2 ≤ m ∧ m ≤ min run.length maxLegacyLength := by
  have hlength := length_of_legacy? h
  rw [List.length_take, Nat.min_eq_left hm] at hlength
  exact ⟨hlength.1, Nat.le_min.2 ⟨hm, hlength.2⟩⟩

section Alphanum

variable (hrun : ∀ x ∈ run, x.isAlphanum = true)
include hrun

theorem names_take (m : Nat) (c : Char) :
    Names (run.take m) c ↔ legacy? (run.take m) = some c :=
  names_alphanum (fun x hx => hrun x (List.mem_of_mem_take hx)) c

theorem longestFront_of_legacyFront? (h : legacyFront? run = some (c, n)) :
    LongestFront run (run.take n) (run.drop n) c := by
  obtain ⟨hn, hlegacy, hlonger⟩ := longestLegacy?_eq_some h
  have hle := Nat.le_trans hn (Nat.min_le_left _ _)
  have hlength : (run.take n).length = n := by rw [List.length_take, Nat.min_eq_left hle]
  refine ⟨(List.take_append_drop n run).symm, ?_, (names_take hrun n c).2 hlegacy, ?_⟩
  · rw [hlength]
    exact (length_of_legacy?_take hle hlegacy).1
  · intro f b d hsplit hnames
    rw [hlength]
    by_contra hlt
    have hf : run.take f.length = f := by rw [hsplit, List.take_left]
    rw [← hf, names_take hrun] at hnames
    have hfits : f.length ≤ run.length := by rw [hsplit, List.length_append]; omega
    have hbound := (length_of_legacy?_take hfits hnames).2
    rw [hlonger f.length (Nat.lt_of_not_le hlt) hbound] at hnames
    cases hnames

theorem LongestFront.legacyFront?_eq (h : LongestFront run front back c) :
    legacyFront? run = some (c, front.length) := by
  have hfront : run.take front.length = front := by rw [h.eq, List.take_left]
  have hfits : front.length ≤ run.length := by rw [h.eq, List.length_append]; omega
  have hlegacy := (names_take hrun front.length c).1 (by rw [hfront]; exact h.names)
  have hbound := (length_of_legacy?_take hfits hlegacy).2
  cases hfound : legacyFront? run with
  | none =>
    have hnone := longestLegacy?_eq_none hfound (Nat.lt_of_lt_of_le Nat.two_pos h.two_le) hbound
    rw [hnone] at hlegacy
    cases hlegacy
  | some found =>
    obtain ⟨d, n⟩ := found
    obtain ⟨-, -, hlonger⟩ := longestLegacy?_eq_some hfound
    have hlongest := longestFront_of_legacyFront? hrun hfound
    have hle := length_of_legacyFront? hfound
    have hn : n ≤ front.length := by
      have hn := h.longest _ _ _ hlongest.eq hlongest.names
      rwa [List.length_take, Nat.min_eq_left hle] at hn
    obtain rfl : n = front.length := by
      refine Nat.le_antisymm hn (Nat.le_of_not_lt fun hlt => ?_)
      rw [hlonger _ hlt hbound] at hlegacy
      cases hlegacy
    have hd := (names_take hrun front.length d).1 hlongest.names
    rw [hlegacy] at hd
    cases hd
    rfl

end Alphanum

end Names

section References

variable {ctx : Context} {cs run front back rest : List Char} {c : Char}

structure RunAt (cs run rest : List Char) : Prop where
  eq : cs = run ++ rest
  alphanum : ∀ x ∈ run, x.isAlphanum = true
  maximal : rest.head?.any Char.isAlphanum = false

/-- Behind an ampersand the text starts with a reference to the character, and goes on behind it
with `rest`. -/
inductive Replaces : Context → List Char → Char → List Char → Prop
  | number {ctx : Context} {cs marker digits rest : List Char} {ds : List Nat} {base : Nat}
    {c : Char} : NumeralAt cs base marker digits ds rest → digits ≠ [] →
    StandsFor (Nat.ofDigits base ds.reverse) c →
    Replaces ctx ('#' :: cs) c (behindSemicolon rest)
  | terminated {ctx : Context} {cs run rest : List Char} {c : Char} :
    RunAt cs run (';' :: rest) → Names (run ++ [';']) c → Replaces ctx cs c rest
  | front {cs run rest front back : List Char} {c : Char} : RunAt cs run rest →
    (∀ d, rest.head? = some ';' → ¬ Names (run ++ [';']) d) → LongestFront run front back c →
    Replaces .text cs c (back ++ rest)
  | whole {cs run rest : List Char} {c : Char} : RunAt cs run rest → rest.head? ≠ some ';' →
    rest.head? ≠ some '=' → Names run c → Replaces .attribute cs c rest

theorem runAt_takeWhile (cs : List Char) :
    RunAt cs (cs.takeWhile Char.isAlphanum) (cs.drop (cs.takeWhile Char.isAlphanum).length) := by
  rw [Text.drop_takeWhile]
  exact ⟨List.takeWhile_append_dropWhile.symm, List.all_eq_true.1 List.all_takeWhile,
    Text.head?_dropWhile _ cs⟩

theorem RunAt.takeWhile_eq (h : RunAt cs run rest) : cs.takeWhile Char.isAlphanum = run := by
  rw [h.eq]
  exact Text.takeWhile_append h.alphanum h.maximal

theorem RunAt.drop_eq (h : RunAt cs run rest) : cs.drop run.length = rest := by
  rw [h.eq, List.drop_left]

theorem RunAt.named?_eq (h : RunAt cs run rest) (ctx : Context) :
    named? ctx cs = match ctx with
      | .text =>
        if rest.head? = some ';' then
          ((terminated? run).map (·, run.length + 1)).or (legacyFront? run)
        else legacyFront? run
      | .attribute =>
        if rest.head? = some ';' then (terminated? run).map (·, run.length + 1)
        else if rest.head? = some '=' then none
        else (legacy? run).map (·, run.length) := by
  have hnamed := CharRef.named?_eq ctx cs
  simp only [h.takeWhile_eq, h.drop_eq] at hnamed
  exact hnamed

theorem RunAt.drop_succ (h : RunAt cs run (';' :: rest)) : cs.drop (run.length + 1) = rest := by
  rw [← List.drop_drop, h.drop_eq]
  rfl

theorem RunAt.replaces_terminated (h : RunAt cs run rest) (hnext : rest.head? = some ';')
    (hc : terminated? run = some c) (ctx : Context) :
    Replaces ctx cs c (cs.drop (run.length + 1)) := by
  obtain ⟨rest, rfl⟩ := List.head?_eq_some_iff.1 hnext
  rw [h.drop_succ]
  exact .terminated h ((names_semicolon run c).2 hc)

theorem RunAt.replaces_front {n : Nat} (h : RunAt cs run rest)
    (hnext : rest.head? = some ';' → terminated? run = none)
    (hfront : legacyFront? run = some (c, n)) : Replaces .text cs c (cs.drop n) := by
  rw [h.eq, List.drop_append_of_le_length (length_of_legacyFront? hfront), ← h.eq]
  refine .front h ?_ (longestFront_of_legacyFront? h.alphanum hfront)
  intro d hsemicolon hnames
  rw [names_semicolon, hnext hsemicolon] at hnames
  cases hnames

theorem replaces_of_named? {n : Nat} (h : named? ctx cs = some (c, n)) :
    Replaces ctx cs c (cs.drop n) := by
  have hrun := runAt_takeWhile cs
  rw [hrun.named?_eq] at h
  generalize cs.takeWhile Char.isAlphanum = run at h hrun
  generalize cs.drop run.length = rest at h hrun
  cases ctx <;> simp only at h
  · split at h
    · rename_i hnext
      cases hc : terminated? run with
      | some d =>
        rw [hc] at h
        cases h
        exact hrun.replaces_terminated hnext hc .text
      | none =>
        rw [hc] at h
        exact hrun.replaces_front (fun _ => hc) h
    · rename_i hnext
      exact hrun.replaces_front (fun hsemicolon => absurd hsemicolon hnext) h
  · split at h
    · rename_i hnext
      obtain ⟨d, hd, he⟩ := Option.map_eq_some_iff.1 h
      cases he
      exact hrun.replaces_terminated hnext hd .attribute
    · split at h
      · cases h
      · rename_i hsemicolon hequals
        obtain ⟨d, hd, he⟩ := Option.map_eq_some_iff.1 h
        cases he
        rw [hrun.drop_eq]
        exact .whole hrun hsemicolon hequals ((names_alphanum hrun.alphanum _).2 hd)

theorem replaces_of_reference? {n : Nat} (h : reference? ctx cs = some (c, n)) :
    Replaces ctx cs c (cs.drop n) := by
  rw [reference?.eq_def] at h
  split at h
  · rename_i cs
    obtain ⟨base, marker, digits, ds, rest, hnumeral⟩ := exists_numeralAt cs
    by_cases hne : digits = []
    · subst hne
      rw [hnumeral.numeric?_eq, if_pos rfl] at h
      cases h
    · obtain ⟨m, hm, hdrop⟩ := hnumeral.reference?_eq hne ctx
      cases h.symm.trans hm
      rw [hdrop]
      exact .number hnumeral hne hnumeral.standsFor
  · exact replaces_of_named? h

theorem reference?_eq_named? (h : cs.head? ≠ some '#') : reference? ctx cs = named? ctx cs := by
  rw [reference?]
  rintro xs rfl
  exact h rfl

theorem RunAt.head?_ne (h : RunAt cs run rest) (hrest : run ≠ [] ∨ rest.head? ≠ some '#') :
    cs.head? ≠ some '#' := by
  rw [h.eq]
  cases run with
  | nil => exact hrest.resolve_left fun hne => hne rfl
  | cons x run =>
    rintro ⟨⟩
    have hclass := h.alphanum '#' List.mem_cons_self
    cases hclass

theorem LongestFront.ne_nil (h : LongestFront run front back c) : run ≠ [] := by
  rintro rfl
  have htwo := h.two_le
  rw [(List.append_eq_nil_iff.1 h.eq.symm).1] at htwo
  cases htwo

theorem ne_nil_of_names (h : Names run c) : run ≠ [] := by
  rintro rfl
  have htwo := length_of_legacy? ((names_alphanum (List.forall_mem_nil _) c).1 h)
  exact absurd htwo.1 (by decide)

theorem Replaces.reference?_eq (h : Replaces ctx cs c rest) :
    ∃ n, reference? ctx cs = some (c, n) ∧ cs.drop n = rest := by
  cases h with
  | number hnumeral hne hc =>
    obtain rfl := hc.unique hnumeral.standsFor
    exact hnumeral.reference?_eq hne ctx
  | @terminated _ _ run rest c hrun hc =>
    rw [names_semicolon] at hc
    refine ⟨run.length + 1, ?_, hrun.drop_succ⟩
    rw [reference?_eq_named? (hrun.head?_ne (.inr (by rintro ⟨⟩))), hrun.named?_eq]
    cases ctx <;> simp [hc]
  | @front _ run rest front back c hrun hnext hfront =>
    refine ⟨front.length, ?_, ?_⟩
    · have hnone : rest.head? = some ';' → terminated? run = none := by
        intro hsemicolon
        rw [Option.eq_none_iff_forall_ne_some]
        intro d hd
        exact hnext d hsemicolon ((names_semicolon run d).2 hd)
      rw [reference?_eq_named? (hrun.head?_ne (.inl hfront.ne_nil)), hrun.named?_eq]
      simp only [hfront.legacyFront?_eq hrun.alphanum]
      split
      · rename_i hsemicolon
        rw [hnone hsemicolon]
        rfl
      · rfl
    · rw [hrun.eq, hfront.eq, List.append_assoc, List.drop_left]
  | @whole _ run rest c hrun hsemicolon hequals hc =>
    refine ⟨run.length, ?_, hrun.drop_eq⟩
    rw [reference?_eq_named? (hrun.head?_ne (.inl (ne_nil_of_names hc))), hrun.named?_eq]
    simp only [if_neg hsemicolon, if_neg hequals, (names_alphanum hrun.alphanum c).1 hc]
    rfl

end References

section Passes

variable {ctx : Context} {cs out : List Char}

/-- One pass from left to right over the text, with what it writes. -/
inductive Pass (ctx : Context) : List Char → List Char → Prop
  | nil : Pass ctx [] []
  | copy {c : Char} {cs out : List Char} : c ≠ '&' → Pass ctx cs out → Pass ctx (c :: cs) (c :: out)
  | replace {c : Char} {cs rest out : List Char} : Replaces ctx cs c rest → Pass ctx rest out →
    Pass ctx ('&' :: cs) (c :: out)
  | stay {cs out : List Char} : (∀ c rest, ¬ Replaces ctx cs c rest) → Pass ctx cs out →
    Pass ctx ('&' :: cs) ('&' :: out)

theorem pass_decode (ctx : Context) (cs : List Char) : Pass ctx cs (decode ctx cs) := by
  fun_induction decode ctx cs with
  | case1 => exact .nil
  | case2 cs d n href ih => exact .replace (replaces_of_reference? href) ih
  | case3 cs href ih =>
    refine .stay ?_ ih
    intro c rest h
    obtain ⟨n, hn, -⟩ := h.reference?_eq
    rw [href] at hn
    cases hn
  | case4 c cs hc ih => exact .copy hc ih

theorem Pass.eq_decode (h : Pass ctx cs out) : out = decode ctx cs := by
  induction h with
  | nil => exact (decode_nil ctx).symm
  | copy hc _ ih => rw [decode_cons_of_ne hc, ih]
  | replace hreplaces _ ih =>
    obtain ⟨n, hn, rfl⟩ := hreplaces.reference?_eq
    rw [decode_of_some hn, ih]
  | stay hnone _ ih =>
    rw [decode_of_none, ih]
    rw [Option.eq_none_iff_forall_ne_some]
    rintro ⟨c, n⟩ href
    exact hnone _ _ (replaces_of_reference? href)

/-- A text is decoded by one pass over it, and into nothing else. -/
theorem decodeString_eq_iff (ctx : Context) (s t : String) :
    decodeString ctx s = t ↔ Pass ctx s.toList t.toList := by
  constructor
  · rintro rfl
    rw [decodeString, String.toList_ofList]
    exact pass_decode ctx s.toList
  · intro h
    rw [decodeString, ← h.eq_decode, String.ofList_toList]

end Passes

end Template.CharRef
