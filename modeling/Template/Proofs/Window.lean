import Mathlib.Algebra.Group.Fin.Basic
import Template.Lookahead

/-! The window on the input is a plain cursor that can be set back by as many characters as it has
slots.  Main statement: every sequence of calls gets the same replies from both. -/

namespace Template

def Position.ofRead (cs : List Char) : Position :=
  ⟨cs.count '\n', (cs.reverse.takeWhile (· ≠ '\n')).length⟩

@[simp] theorem Position.ofRead_nil : ofRead [] = {} := rfl

theorem Position.ofRead_concat (cs : List Char) (c : Char) :
    ofRead (cs ++ [c]) = (ofRead cs).advance c := by
  by_cases h : c = '\n' <;> simp [ofRead, advance, h]

namespace Lookahead

inductive Call
  | read
  | takeBack (n : Nat)
  | position

inductive Reply
  | char (c : Option Char)
  | takenBack
  | refused (v : Violation)
  | position (p : Position)

def replies {σ : Type} (step : σ → Call → Reply × σ) (s : σ) : List Call → List Reply
  | [] => []
  | c :: cs => (step s c).1 :: replies step (step s c).2 cs

def call {depth : Nat} [HasSlot depth] (r : Lookahead depth) : Call → Reply × Lookahead depth
  | .read => (.char r.read.1, r.read.2)
  | .takeBack n =>
    match r.takeBack n with
    | .ok s => (.takenBack, s)
    | .error v => (.refused v, r)
  | .position => (.position r.position, r)

/-- A text that the end of the input follows for ever, how many characters of it were read for
the first time, and how many of these lie behind. -/
structure Plain where
  text : List Char
  reached : Nat := 0
  place : Nat := 0

namespace Plain

def read (p : Plain) : Option Char × Plain :=
  (p.text[p.place]?,
    { p with
      reached := if p.place = p.reached then p.reached + 1 else p.reached
      place := p.place + 1 })

theorem read_of_lt {p : Plain} (h : p.place < p.reached) :
    p.read = (p.text[p.place]?, ⟨p.text, p.reached, p.place + 1⟩) := by
  rw [read, if_neg (Nat.ne_of_lt h)]

theorem read_of_eq {p : Plain} (h : p.place = p.reached) :
    p.read = (p.text[p.reached]?, ⟨p.text, p.reached + 1, p.reached + 1⟩) := by
  rw [read, if_pos h, h]

def takeBack (depth : Nat) (p : Plain) (n : Nat) : Except Violation Plain :=
  if p.reached - p.place + n ≤ min p.reached depth then .ok { p with place := p.place - n }
  else .error (.takeBack n (p.reached - p.place) (min p.reached depth) depth)

def position (depth : Nat) (p : Plain) : Position :=
  if p.reached - p.place < depth then .ofRead (p.text.take p.place)
  else .ofRead (p.text.take p.reached)

def call (depth : Nat) (p : Plain) : Call → Reply × Plain
  | .read => (.char p.read.1, p.read.2)
  | .takeBack n =>
    match p.takeBack depth n with
    | .ok q => (.takenBack, q)
    | .error v => (.refused v, p)
  | .position => (.position (p.position depth), p)

end Plain

/-- The result of the `k`th read for the first time; before all of them stands the empty slot. -/
def result (text : List Char) : Nat → Slot
  | 0 => {}
  | k + 1 => ⟨text[k]?, .ofRead (text.take (k + 1))⟩

@[simp] theorem position_result (text : List Char) (k : Nat) :
    (result text k).position = .ofRead (text.take k) := by
  cases k <;> rfl

theorem ofRead_take_of_some {text : List Char} {k : Nat} {c : Char} (h : text[k]? = some c) :
    Position.ofRead (text.take (k + 1)) = (Position.ofRead (text.take k)).advance c := by
  rw [List.take_add_one, h, Option.toList_some, Position.ofRead_concat]

theorem ofRead_take_of_none {text : List Char} {k : Nat} (h : text[k]? = none) :
    Position.ofRead (text.take (k + 1)) = Position.ofRead (text.take k) := by
  rw [List.take_add_one, h, Option.toList_none, List.append_nil]

section Ring

variable {depth : Nat} [HasSlot depth]

theorem ofNat_succ (k : Nat) : Fin.ofNat depth k + 1 = Fin.ofNat depth (k + 1) := by
  apply Fin.ext
  simp [Fin.val_add]

theorem ofNat_sub {n k : Nat} (h : n ≤ k) :
    Fin.ofNat depth k - Fin.ofNat depth n = Fin.ofNat depth (k - n) := by
  apply sub_eq_of_eq_add
  apply Fin.ext
  simp [Fin.val_add, h]

theorem ofNat_ne {j k : Nat} (hlt : j < k) (hnear : k < j + depth) :
    Fin.ofNat depth j ≠ Fin.ofNat depth k := by
  intro h
  have hmod : k % depth = j % depth := (congrArg Fin.val h).symm
  have hdvd : depth ∣ k - j := Nat.dvd_of_mod_eq_zero (Nat.sub_mod_eq_zero_of_mod_eq hmod)
  have hle : depth ≤ k - j := Nat.le_of_dvd (by omega) hdvd
  omega

/-- The ring stands where the plain cursor stands, and its slots hold the last `depth` results. -/
structure Follows (r : Lookahead depth) (p : Plain) : Prop where
  reached : p.reached = p.place + r.pending
  pending_le : r.pending ≤ depth
  head : r.head = Fin.ofNat depth p.place
  filled : r.filled = min p.reached depth
  input : Text.normalize r.input = p.text.drop p.reached
  slots : ∀ k, k ≤ p.reached → p.reached < k + depth →
    r.slots[Fin.ofNat depth k] = result p.text k

namespace Follows

variable {r : Lookahead depth} {p : Plain}

theorem ofString (source : String) :
    Follows (Lookahead.ofString depth source) { text := Text.normalize source.toList } where
  reached := rfl
  pending_le := Nat.zero_le _
  head := rfl
  filled := (Nat.zero_min depth).symm
  input := rfl
  slots := by
    intro k hk _
    obtain rfl : k = 0 := Nat.le_zero.1 hk
    simp [Lookahead.ofString, result]

theorem slot (h : Follows r p) {i : Fin depth} {k : Nat} (hi : i = Fin.ofNat depth k)
    (hk : k ≤ p.reached) (hnear : p.reached < k + depth) : r.slots[i] = result p.text k := by
  subst hi
  exact h.slots k hk hnear

theorem position_eq (h : Follows r p) : r.position = p.position depth := by
  have hpos := Nat.pos_of_neZero depth
  have hreached := h.reached
  unfold Lookahead.position Plain.position
  split
  · rw [h.slot h.head (by omega) (by omega), position_result]
  · -- all slots were taken back, so the head is once more the slot of the newest result
    have hfull : p.reached = p.place + depth := by have := h.pending_le; omega
    have hhead : r.head = Fin.ofNat depth p.reached := by
      rw [h.head, hfull]
      apply Fin.ext
      simp
    rw [h.slot hhead (Nat.le_refl _) (by omega), position_result]

theorem read_pending (h : Follows r p) {n : Nat} (hn : r.pending = n + 1) :
    r.read.1 = p.read.1 ∧ Follows r.read.2 p.read.2 := by
  have hreached : p.reached = p.place + 1 + n := by have := h.reached; omega
  have hle : n + 1 ≤ depth := hn ▸ h.pending_le
  have hhead : r.head + 1 = Fin.ofNat depth (p.place + 1) := by rw [h.head, ofNat_succ]
  rw [Plain.read_of_lt (by omega)]
  simp only [Lookahead.read, hn]
  constructor
  · rw [h.slot hhead (by omega) (by omega), result]
  · exact ⟨hreached, Nat.le_of_succ_le hle, hhead, h.filled, h.input, h.slots⟩

theorem record (h : Follows r p) (hn : r.pending = 0) {slot : Slot} {input : List Char}
    (hslot : slot = result p.text (p.reached + 1))
    (hinput : Text.normalize input = p.text.drop (p.reached + 1)) :
    Follows (r.record slot input) ⟨p.text, p.reached + 1, p.reached + 1⟩ := by
  have hplace : p.place = p.reached := by have := h.reached; omega
  have hhead : r.head + 1 = Fin.ofNat depth (p.reached + 1) := by
    rw [h.head, hplace, ofNat_succ]
  have hfilled := h.filled
  refine ⟨by simp [Lookahead.record, hn], by simp [Lookahead.record, hn], hhead, ?_, hinput, ?_⟩
  · simp only [Lookahead.record]
    omega
  · intro k hk hnear
    simp only [Lookahead.record] at hk hnear ⊢
    by_cases hnew : k = p.reached + 1
    · subst hnew
      simp [hhead, hslot]
    · have hne : (r.head + 1).val ≠ (Fin.ofNat depth k).val := by
        rw [hhead]
        intro heq
        exact ofNat_ne (by omega) hnear (Fin.ext heq.symm)
      rw [← h.slots k (by omega) (by omega)]
      exact Vector.getElem_set_ne _ _ hne

theorem read_new (h : Follows r p) (hn : r.pending = 0) :
    r.read.1 = p.read.1 ∧ Follows r.read.2 p.read.2 := by
  have hpos := Nat.pos_of_neZero depth
  have hplace : p.place = p.reached := by have := h.reached; omega
  have hposition : r.position = .ofRead (p.text.take p.reached) := by
    rw [h.position_eq, Plain.position, if_pos (by omega), hplace]
  have hinput := normalize_eq_nextChar r.input
  rw [h.input] at hinput
  rw [Plain.read_of_eq hplace]
  simp only [Lookahead.read, hn]
  cases hnext : nextChar r.input with
  | none =>
    rw [hnext] at hinput
    have hend : p.text[p.reached]? = none :=
      List.getElem?_eq_none (List.drop_eq_nil_iff.1 hinput)
    refine ⟨hend.symm, h.record hn ?_ ?_⟩
    · rw [result, hend, ofRead_take_of_none hend, hposition]
    · rw [← List.drop_drop, hinput]
      rfl
  | some next =>
    obtain ⟨c, input⟩ := next
    rw [hnext] at hinput
    have hc : p.text[p.reached]? = some c := by
      rw [← List.head?_drop, hinput, List.head?_cons]
    refine ⟨hc.symm, h.record hn ?_ ?_⟩
    · rw [result, hc, ofRead_take_of_some hc, hposition]
    · rw [← List.drop_drop, hinput, List.drop_one, List.tail_cons]

theorem read (h : Follows r p) : r.read.1 = p.read.1 ∧ Follows r.read.2 p.read.2 := by
  cases hn : r.pending with
  | zero => exact h.read_new hn
  | succ n => exact h.read_pending hn

theorem takeBack (h : Follows r p) (n : Nat) :
    (∃ s q, r.takeBack n = .ok s ∧ p.takeBack depth n = .ok q ∧ Follows s q) ∨
      ∃ v, r.takeBack n = .error v ∧ p.takeBack depth n = .error v := by
  have hpending : p.reached - p.place = r.pending := by have := h.reached; omega
  unfold Lookahead.takeBack Plain.takeBack
  rw [hpending, ← h.filled]
  by_cases hle : r.pending + n ≤ r.filled
  · rw [if_pos hle, if_pos hle]
    have hreached := h.reached
    have hfilled := h.filled
    have hn : n ≤ p.place := by omega
    refine .inl ⟨_, _, rfl, rfl, ?_⟩
    refine ⟨?_, ?_, ?_, hfilled, h.input, h.slots⟩
    · simp only
      omega
    · simp only
      omega
    · rw [h.head, ofNat_sub hn]
  · rw [if_neg hle, if_neg hle]
    exact .inr ⟨_, rfl, rfl⟩

theorem call (h : Follows r p) (c : Call) :
    (r.call c).1 = (p.call depth c).1 ∧ Follows (r.call c).2 (p.call depth c).2 := by
  cases c with
  | read => exact ⟨congrArg Reply.char h.read.1, h.read.2⟩
  | takeBack n =>
    simp only [Lookahead.call, Plain.call]
    obtain ⟨s, q, hs, hq, hsq⟩ | ⟨v, hr, hp⟩ := h.takeBack n
    · rw [hs, hq]
      exact ⟨rfl, hsq⟩
    · rw [hr, hp]
      exact ⟨rfl, h⟩
  | position => exact ⟨congrArg Reply.position h.position_eq, h⟩

theorem replies (h : Follows r p) (calls : List Call) :
    Lookahead.replies Lookahead.call r calls =
      Lookahead.replies (Plain.call depth) p calls := by
  induction calls generalizing r p with
  | nil => rfl
  | cons c calls ih =>
    obtain ⟨hreply, hnext⟩ := h.call c
    rw [Lookahead.replies, Lookahead.replies, hreply, ih hnext]

end Follows

end Ring

/-- Every sequence of calls gets from the window the replies of a plain cursor over the text with
its line breaks read as line feeds. -/
theorem replies_ofString (source : String) (calls : List Call) :
    replies call (ofString lookahead source) calls =
      replies (Plain.call lookahead) { text := Text.normalize source.toList } calls :=
  (Follows.ofString source).replies calls

end Lookahead

end Template
