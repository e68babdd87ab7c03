import Template.Text.LineBreak
import Template.Window

/-! A window on the input.  It hands out one character at a time and takes back the last few: the
last `depth` results of reading are kept in a ring of slots, the end of the input among them, and
those taken back are handed out again, each at its own position. -/

namespace Template

structure Lookahead.Slot where
  char : Option Char := none
  position : Position := {}
  deriving DecidableEq, Repr

/-- `head` is the slot of the last result handed out, `pending` counts the results taken back and
not handed out again, and `filled` the slots that hold a result. -/
structure Lookahead (depth : Nat) where
  slots : Vector Lookahead.Slot depth
  head : Fin depth
  pending : Nat := 0
  filled : Nat := 0
  input : List Char
  deriving DecidableEq, Repr

namespace Lookahead

abbrev HasSlot (depth : Nat) : Prop := @NeZero Nat Zero.ofOfNat0 depth

variable {depth : Nat} [HasSlot depth]

def ofString (depth : Nat) [HasSlot depth] (source : String) : Lookahead depth :=
  { slots := Vector.replicate depth {}, head := 0, input := source.toList }

/-- The position of the last character handed out.  Where all slots were taken back it is that of
the newest of them, and before the first character the start of the text. -/
def position (r : Lookahead depth) : Position := r.slots[r.head].position

def nextChar : List Char → Option (Char × List Char)
  | [] => none
  | '\r' :: '\n' :: cs => some ('\n', cs)
  | c :: cs => some (if c = '\r' || c = '\x0c' then '\n' else c, cs)

def record (r : Lookahead depth) (slot : Slot) (input : List Char) : Lookahead depth :=
  { r with
    slots := r.slots.set ↑(r.head + 1) slot
    head := r.head + 1
    filled := min (r.filled + 1) depth
    input := input }

def read (r : Lookahead depth) : Option Char × Lookahead depth :=
  match r.pending with
  | pending + 1 => (r.slots[r.head + 1].char, { r with head := r.head + 1, pending := pending })
  | 0 =>
    match nextChar r.input with
    | some (c, input) => (some c, r.record ⟨some c, r.position.advance c⟩ input)
    | none => (none, r.record ⟨none, r.position⟩ [])

/-- Takes back the last `n` characters handed out.  The sum is exact, as it is in builds that check
for overflow: there a sum too large for a word stops the program as well. -/
def takeBack (r : Lookahead depth) (n : Nat) : Except Violation (Lookahead depth) :=
  if r.pending + n ≤ r.filled then
    .ok { r with head := r.head - Fin.ofNat depth n, pending := r.pending + n }
  else .error (.takeBack n r.pending r.filled depth)

def unread (r : Lookahead depth) : Nat := r.pending + r.input.length

instance : Window (Lookahead depth) where
  read := read
  takeBack := takeBack
  position r := (r.position, r)
  unread := unread

theorem normalize_eq_nextChar (cs : List Char) :
    Text.normalize cs = match nextChar cs with
      | some (c, cs) => c :: Text.normalize cs
      | none => [] := by
  fun_cases nextChar cs <;> simp_all [Text.normalize]

end Lookahead

def lookahead : Nat := 4

instance : Lookahead.HasSlot lookahead := ⟨by decide⟩

end Template
