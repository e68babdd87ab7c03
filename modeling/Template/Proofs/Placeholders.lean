import Mathlib.Algebra.GroupWithZero.Nat
import Template.Proofs.Attributes
import Template.Proofs.Order

namespace Template

def placeholders (cs : List Char) : Nat := cs.tails.countP placeholder.isPrefixOf

section Count

theorem placeholders_cons (x : Char) (cs : List Char) :
    placeholders (x :: cs) = placeholders cs + if placeholder <+: x :: cs then 1 else 0 := by
  simp only [placeholders, List.tails, List.countP_cons, List.isPrefixOf_iff_prefix]

theorem prefix_append_placeholder (x : Char) (as bs : List Char) :
    placeholder <+: x :: (as ++ (placeholder ++ bs)) ↔ placeholder <+: x :: as := by
  cases as with
  | nil =>
    simp only [placeholder, List.nil_append, List.cons_append, List.cons_prefix_cons]
    simp
  | cons y as => simp [placeholder, List.cons_prefix_cons]

theorem placeholders_append_placeholder (as bs : List Char) :
    placeholders (as ++ (placeholder ++ bs)) = placeholders as + 1 + placeholders bs := by
  induction as with
  | nil =>
    have hseam : ¬ placeholder <+: 'v' :: bs := by simp [placeholder]
    have hwhole : placeholder <+: '%' :: 'v' :: bs := List.prefix_append placeholder bs
    change placeholders ('%' :: 'v' :: bs) = placeholders [] + 1 + placeholders bs
    rw [placeholders_cons, placeholders_cons, if_neg hseam, if_pos hwhole]
    change placeholders bs + 0 + 1 = 0 + 1 + placeholders bs
    omega
  | cons x as ih =>
    simp only [List.cons_append, placeholders_cons, prefix_append_placeholder, ih]
    omega

end Count

namespace Scan

open CharRef (decode)

section Value

variable {ps : List (List Char × String)} {l : List Char} {p : List Char × String} {i : Nat}

def literals (ps : List (List Char × String)) (l : List Char) : List (List Char) :=
  (ps.map (·.1) ++ [l]).map (decode .attribute)

theorem literals_cons (p : List Char × String) (ps : List (List Char × String)) (l : List Char) :
    literals (p :: ps) l = decode .attribute p.1 :: literals ps l := rfl

theorem toList_quotedText_nil (l : List Char) :
    (quotedText [] l).toList = decode .attribute l := by
  rw [quotedText, String.toList_ofList]
  rfl

theorem toList_quotedText_cons (p : List Char × String) (ps : List (List Char × String))
    (l : List Char) : (quotedText (p :: ps) l).toList =
      decode .attribute p.1 ++ (placeholder ++ (quotedText ps l).toList) := by
  simp only [quotedText, String.toList_ofList, List.flatMap_cons, List.append_assoc]

theorem placeholders_quotedText (ps : List (List Char × String)) (l : List Char) :
    placeholders (quotedText ps l).toList =
      ps.length + ((literals ps l).map placeholders).sum := by
  induction ps with
  | nil =>
    rw [toList_quotedText_nil]
    simp [literals]
  | cons p ps ih =>
    rw [toList_quotedText_cons, placeholders_append_placeholder, ih, literals_cons, List.map_cons,
      List.sum_cons, List.length_cons]
    omega

theorem quotedText_split (l : List Char) (h : ps[i]? = some p) :
    (quotedText ps l).toList = (quotedText (ps.take i) p.1).toList ++
      (placeholder ++ (quotedText (ps.drop (i + 1)) l).toList) := by
  induction ps generalizing i with
  | nil => cases h
  | cons p' ps ih =>
    cases i with
    | zero =>
      cases h
      rw [toList_quotedText_cons, List.take_zero, toList_quotedText_nil]
      rfl
    | succ i =>
      rw [List.take_succ_cons, List.drop_succ_cons, toList_quotedText_cons,
        toList_quotedText_cons, ih h, List.append_assoc, List.append_assoc]

theorem literals_take (l : List Char) (h : ps[i]? = some p) :
    literals (ps.take i) p.1 = (literals ps l).take (i + 1) := by
  induction ps generalizing i with
  | nil => cases h
  | cons p' ps ih =>
    cases i with
    | zero =>
      cases h
      rfl
    | succ i =>
      rw [List.take_succ_cons, literals_cons, literals_cons, List.take_succ_cons, ih h]

end Value

/-- What the placeholders of a value stand for that was read from the pieces `ps` and the literal
part `l` behind them. -/
structure Marked (ps : List (List Char × String)) (l : List Char) (value : String)
    (mustaches : List String) : Prop where
  value_eq : value = quotedText ps l
  mustaches_eq : mustaches = ps.map (·.2)
  count : placeholders value.toList =
    mustaches.length + ((literals ps l).map placeholders).sum
  count_eq_iff : placeholders value.toList = mustaches.length ↔
    ∀ cs ∈ literals ps l, placeholders cs = 0
  own : ∀ {i p}, ps[i]? = some p → value.toList = (quotedText (ps.take i) p.1).toList ++
    (placeholder ++ (quotedText (ps.drop (i + 1)) l).toList)
  before : ∀ {i p}, ps[i]? = some p → placeholders (quotedText (ps.take i) p.1).toList =
    i + (((literals ps l).take (i + 1)).map placeholders).sum
  /-- The placeholders are numbered as their mustaches are, if no literal part holds one. -/
  nth : (∀ cs ∈ literals ps l, placeholders cs = 0) → ∀ {i p}, ps[i]? = some p →
    placeholders (quotedText (ps.take i) p.1).toList = i

theorem marked_quotedText (ps : List (List Char × String)) (l : List Char) :
    Marked ps l (quotedText ps l) (ps.map (·.2)) := by
  have hcount : placeholders (quotedText ps l).toList =
      (ps.map (·.2)).length + ((literals ps l).map placeholders).sum := by
    rw [placeholders_quotedText, List.length_map]
  have hbefore : ∀ {i p}, ps[i]? = some p → placeholders (quotedText (ps.take i) p.1).toList =
      i + (((literals ps l).take (i + 1)).map placeholders).sum := by
    intro i p hp
    have hi : i < ps.length := (List.getElem?_eq_some_iff.1 hp).1
    rw [placeholders_quotedText, literals_take l hp, List.length_take_of_le hi.le]
  refine ⟨rfl, rfl, hcount, ?_, quotedText_split l, hbefore, ?_⟩
  · rw [hcount, Nat.add_eq_left, List.sum_eq_zero_iff_forall_eq_nat, List.forall_mem_map]
  · intro hnone i p hp
    have hzero : (((literals ps l).take (i + 1)).map placeholders).sum = 0 := by
      rw [List.sum_eq_zero_iff_forall_eq_nat, List.forall_mem_map]
      exact fun cs hcs => hnone cs (List.mem_of_mem_take hcs)
    rw [hbefore hp, hzero, Nat.add_zero]

variable {cs rest : List Char} {key value : String} {mustaches : List String}

theorem AttributeAt.quotedAt (h : AttributeAt cs (.string key value mustaches) rest) :
    ∃ q cs' ps l, cs = key.toList ++ '=' :: q :: cs' ∧ QuotedAt q cs' ps l rest ∧
      Marked ps l value mustaches := by
  cases h with
  | string _ _ hquoted => exact ⟨_, _, _, _, rfl, hquoted, marked_quotedText _ _⟩

end Scan

section Source

variable {source : String} {t : Token} {a : Attribute} {key value : String}
  {mustaches : List String}

open Lookahead (Plain)

/-- Where the value of an attribute stands in the source, and what its placeholders stand for. -/
theorem marked_of_lexemes (ht : .ok t ∈ lexemes source) (ha : a ∈ t.attributes)
    (hkind : a.kind = .string key value mustaches) :
    ∃ front q cs ps l rest,
      Text.normalize source.toList = front ++ (key.toList ++ '=' :: q :: cs) ∧
        CharAt (Text.normalize source.toList) front.length a.position ∧
          Scan.QuotedAt q cs ps l rest ∧ Scan.Marked ps l value mustaches := by
  have hnone : t.attributes ≠ [] := List.ne_nil_of_mem ha
  have hend : t.kind ≠ .endOfInput := by
    intro hend
    rw [Token.attributes, hend] at hnone
    exact hnone rfl
  obtain ⟨ls, rest, hls⟩ := List.append_of_mem ht
  obtain ⟨s, u, j, k, -, hj, hstands, -⟩ := exists_step hls hend
  obtain ⟨d, hfinds, -⟩ := hstands.finds hnone
  obtain ⟨n, e, hfound⟩ := hfinds.exists_foundAt a ha
  have hposition := hfound.position_eq
  have hne := hfound.rest_ne_nil
  obtain hattribute | ⟨_, _, hbool, _⟩ := Scan.attributeAt_of_foundAt hfound
  · rw [hkind] at hattribute
    obtain ⟨q, cs, ps, l, hcs, hquoted, hmarked⟩ := hattribute.quotedAt
    rw [hj, Plain.cursor_skip, Plain.cursor_skip, Plain.cursor_skip] at hcs hposition hne
    generalize j + k + 1 + n = m at hcs hposition hne
    have hchar := charAt_cursor hne
    rw [← hposition] at hchar
    refine ⟨(Text.normalize source.toList).take m, q, cs, ps, l, _, ?_, ?_, hquoted, hmarked⟩
    · rw [← hcs, Plain.cursor, List.take_append_drop]
    · rwa [List.length_take_of_le hchar.lt_length.le]
  · rw [hkind] at hbool
    cases hbool

theorem marked_of_lexemes_literal : ∃ ps l, Scan.Marked ps l "%v%v" ["x"] := by
  have hlexemes : lexemes "<a b=\"%v\x7b\x7bx\x7d\x7d\">" =
      [.ok ⟨.startTag "a" [⟨.string "b" "%v%v" ["x"], ⟨0, 4⟩⟩], ⟨0, 1⟩⟩,
        .ok ⟨.endOfInput, ⟨0, 15⟩⟩] := by decide +kernel
  have ht : .ok ⟨.startTag "a" [⟨.string "b" "%v%v" ["x"], ⟨0, 4⟩⟩], ⟨0, 1⟩⟩ ∈
      lexemes "<a b=\"%v\x7b\x7bx\x7d\x7d\">" := by
    rw [hlexemes]
    exact List.mem_cons_self
  obtain ⟨-, -, -, ps, l, -, -, -, -, hmarked⟩ := marked_of_lexemes ht List.mem_cons_self rfl
  exact ⟨ps, l, hmarked⟩

theorem exists_placeholder_unmatched : ¬ ∀ {source t a key value mustaches},
    .ok t ∈ lexemes source → a ∈ t.attributes → a.kind = .string key value mustaches →
      placeholders value.toList = mustaches.length := by
  intro h
  have hlexemes : lexemes "<a b=\"%v\">" =
      [.ok ⟨.startTag "a" [⟨.string "b" "%v" [], ⟨0, 4⟩⟩], ⟨0, 1⟩⟩,
        .ok ⟨.endOfInput, ⟨0, 10⟩⟩] := by decide +kernel
  have ht : .ok ⟨.startTag "a" [⟨.string "b" "%v" [], ⟨0, 4⟩⟩], ⟨0, 1⟩⟩ ∈
      lexemes "<a b=\"%v\">" := by
    rw [hlexemes]
    exact List.mem_cons_self
  have hcount := h ht List.mem_cons_self rfl
  cases hcount

end Source

end Template
