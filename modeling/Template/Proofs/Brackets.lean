import Mathlib.Data.List.Induction
import Template.Token

namespace Template

inductive Bracket
  | opening (name : String)
  | closing (name : String)
  deriving DecidableEq, Repr

def Token.brackets (t : Token) : List Bracket :=
  match t.kind with
  | .startTag name _ => [.opening name]
  | .endTag name => [.closing name]
  | _ => []

namespace Bracket

variable {u v w : List Bracket} {n : String} {ns : List String}

inductive Balanced : List Bracket → Prop
  | nil : Balanced []
  | nest {u v : List Bracket} (name : String) : Balanced u → Balanced v →
      Balanced (.opening name :: (u ++ .closing name :: v))

def Viable (w : List Bracket) : Prop := ∃ v, Balanced (w ++ v)

def Innermost (w : List Bracket) (name : String) : Prop :=
  ∃ u v, w = u ++ .opening name :: v ∧ Balanced v

def push? (ns : List String) : Bracket → Option (List String)
  | .opening name => some (name :: ns)
  | .closing name => if ns.head? = some name then some ns.tail else none

def unclosed? (ns : List String) : List Bracket → Option (List String)
  | [] => some ns
  | b :: w => (push? ns b).bind fun ms => unclosed? ms w

theorem unclosed?_append (ns : List String) (u v : List Bracket) :
    unclosed? ns (u ++ v) = (unclosed? ns u).bind fun ms => unclosed? ms v := by
  induction u generalizing ns with
  | nil => rfl
  | cons b u ih =>
    simp only [List.cons_append, unclosed?, Option.bind_assoc]
    congr 1
    funext ms
    exact ih ms

theorem exists_endTag {t : Token} (h : unclosed? ns t.brackets = none) :
    ∃ name p, t = ⟨.endTag name, p⟩ ∧ ns.head? ≠ some name := by
  obtain ⟨kind, p⟩ := t
  cases kind with
  | endTag name =>
    refine ⟨name, p, rfl, ?_⟩
    intro hname
    simp [Token.brackets, unclosed?, push?, hname] at h
  | _ => simp [Token.brackets, unclosed?, push?] at h

theorem Balanced.append (hu : Balanced u) (hv : Balanced v) : Balanced (u ++ v) := by
  induction hu with
  | nil => exact hv
  | nest name ha _ _ ihb =>
    rw [List.cons_append, List.append_assoc, List.cons_append]
    exact .nest name ha ihb

theorem Balanced.unclosed?_eq (h : Balanced w) (ns : List String) : unclosed? ns w = some ns := by
  induction h generalizing ns with
  | nil => rfl
  | nest name _ _ iha ihb =>
    rw [unclosed?, push?, Option.bind_some, unclosed?_append, iha, Option.bind_some, unclosed?,
      push?, List.head?_cons, if_pos rfl, Option.bind_some, List.tail_cons, ihb]

/-- A word that leaves `ns` unclosed: balanced words with the opening brackets between them. -/
inductive Leaves : List Bracket → List String → Prop
  | balanced {w : List Bracket} : Balanced w → Leaves w []
  | opening {w v : List Bracket} {ns : List String} (name : String) : Leaves w ns →
      Balanced v → Leaves (w ++ .opening name :: v) (name :: ns)

theorem Leaves.append (h : Leaves w ns) (hv : Balanced v) : Leaves (w ++ v) ns := by
  cases h with
  | balanced hw => exact .balanced (hw.append hv)
  | opening name h hw =>
    rw [List.append_assoc, List.cons_append]
    exact .opening name h (hw.append hv)

theorem Leaves.close (h : Leaves w (n :: ns)) : Leaves (w ++ [.closing n]) ns := by
  cases h with
  | opening _ h hv =>
    rw [List.append_assoc, List.cons_append]
    exact h.append (.nest n hv .nil)

theorem leaves_of_unclosed? (h : unclosed? [] w = some ns) : Leaves w ns := by
  -- from the end, since a closing bracket needs the names left by all those before it
  induction w using List.reverseRecOn generalizing ns with
  | nil =>
    cases h
    exact .balanced .nil
  | append_singleton w b ih =>
    rw [unclosed?_append, Option.bind_eq_some_iff] at h
    obtain ⟨ms, hms, h⟩ := h
    simp only [unclosed?, Option.bind_fun_some] at h
    cases b with
    | opening name =>
      cases h
      exact .opening name (ih hms) .nil
    | closing name =>
      rw [push?] at h
      split at h
      · rename_i hhead
        cases h
        obtain ⟨ks, rfl⟩ := List.head?_eq_some_iff.1 hhead
        exact (ih hms).close
      · cases h

theorem balanced_iff : Balanced w ↔ unclosed? [] w = some [] := by
  constructor
  · exact fun h => h.unclosed?_eq []
  · intro h
    cases leaves_of_unclosed? h with
    | balanced h => exact h

theorem unclosed?_closings (ns : List String) : unclosed? ns (ns.map .closing) = some [] := by
  induction ns with
  | nil => rfl
  | cons n ns ih => rw [List.map_cons, unclosed?, push?, List.head?_cons, if_pos rfl,
      Option.bind_some, List.tail_cons, ih]

theorem viable_iff : Viable w ↔ ∃ ns, unclosed? [] w = some ns := by
  constructor
  · rintro ⟨v, h⟩
    rw [balanced_iff, unclosed?_append, Option.bind_eq_some_iff] at h
    obtain ⟨ns, hns, _⟩ := h
    exact ⟨ns, hns⟩
  · rintro ⟨ns, h⟩
    refine ⟨ns.map .closing, ?_⟩
    rw [balanced_iff, unclosed?_append, h, Option.bind_some, unclosed?_closings]

theorem Balanced.viable (h : Balanced w) : Viable w := ⟨[], by rwa [List.append_nil]⟩

theorem Viable.of_append (h : Viable (u ++ v)) : Viable u := by
  obtain ⟨w, h⟩ := h
  exact ⟨v ++ w, by rwa [← List.append_assoc]⟩

theorem not_viable_closing (hw : unclosed? [] w = some ns) (hn : ns.head? ≠ some n) :
    ¬ Viable (w ++ [.closing n]) := by
  rw [viable_iff]
  rintro ⟨ms, hms⟩
  rw [unclosed?_append, hw, Option.bind_some, unclosed?, push?, if_neg hn] at hms
  cases hms

theorem innermost_of_unclosed? (h : unclosed? [] w = some (n :: ns)) : Innermost w n := by
  cases leaves_of_unclosed? h with
  | opening _ _ hv => exact ⟨_, _, rfl, hv⟩

end Bracket

end Template
