import Template.CharRef.Names

namespace Template.CharRef

inductive Context
  | text
  | attribute
  deriving DecidableEq, Repr

def replacement : Char := '\ufffd'

/-- The characters that the numbers 128 to 159 stand for, those of Windows-1252. -/
def windows1252 : List Char := [
  '\u20ac', '\u0081', '\u201a', '\u0192', '\u201e', '\u2026', '\u2020', '\u2021',
  '\u02c6', '\u2030', '\u0160', '\u2039', '\u0152', '\u008d', '\u017d', '\u008f',
  '\u0090', '\u2018', '\u2019', '\u201c', '\u201d', '\u2022', '\u2013', '\u2014',
  '\u02dc', '\u2122', '\u0161', '\u203a', '\u0153', '\u009d', '\u017e', '\u0178']

def numberChar (v : UInt32) : Char :=
  if 0x80 ≤ v ∧ v ≤ 0x9f then windows1252.getD (v - 0x80).toNat replacement
  else if v ≠ 0 ∧ v.isValidChar then Char.ofNat v.toNat
  else replacement

def digitValue (c : Char) : Nat :=
  if c.isDigit then c.toNat - '0'.toNat
  else if c.isUpper then c.toNat - 'A'.toNat + 10
  else c.toNat - 'a'.toNat + 10

def isDigitOf (radix : Nat) (c : Char) : Bool := c.isAlphanum && digitValue c < radix

def word? (n : Nat) : Option UInt32 := if n < UInt32.size then some (.ofNat n) else none

def appendDigit? (radix : Nat) (v : UInt32) (c : Char) : Option UInt32 := do
  let shifted ← word? (v.toNat * radix)
  word? (shifted.toNat + digitValue c)

def number? (radix : Nat) (digits : List Char) : Option UInt32 :=
  digits.foldlM (appendDigit? radix) 0

/-- A number of more than 32 bits counts as the largest one that has no more. -/
def numberValue (radix : Nat) (digits : List Char) : UInt32 :=
  (number? radix digits).getD 0xffffffff

def radix : List Char → Nat × Nat
  | 'x' :: _ | 'X' :: _ => (16, 1)
  | _ => (10, 0)

def semicolonLength (cs : List Char) : Nat := if cs.head? = some ';' then 1 else 0

def numeric? (cs : List Char) : Option (Char × Nat) :=
  let (base, lead) := radix cs
  let digits := (cs.drop lead).takeWhile (isDigitOf base)
  let length := lead + digits.length
  if digits = [] then none
  else some (numberChar (numberValue base digits), length + semicolonLength (cs.drop length))

/-- The named reference at the start of `cs`, which follows `&`.  In text, a name that is not
known is read as the longest known one it starts with.  In an attribute it is left, and so is a
name that an equals sign follows. -/
def named? (ctx : Context) (cs : List Char) : Option (Char × Nat) :=
  let name := cs.takeWhile Char.isAlphanum
  match cs.drop name.length, ctx with
  | ';' :: _, .text =>
    ((terminated? name).map (·, name.length + 1)).or (legacyFront? name)
  | ';' :: _, .attribute => (terminated? name).map (·, name.length + 1)
  | _, .text => legacyFront? name
  | '=' :: _, .attribute => none
  | _, .attribute => (legacy? name).map (·, name.length)

def reference? (ctx : Context) : List Char → Option (Char × Nat)
  | '#' :: cs => (numeric? cs).map fun (c, n) => (c, n + 1)
  | cs => named? ctx cs

def decode (ctx : Context) : List Char → List Char
  | [] => []
  | c :: cs =>
    if c = '&' then
      match reference? ctx cs with
      | some (d, n) => d :: decode ctx (cs.drop n)
      | none => '&' :: decode ctx cs
    else c :: decode ctx cs
termination_by cs => cs.length
decreasing_by all_goals simp; try omega

@[simp] theorem decode_nil (ctx : Context) : decode ctx [] = [] := by simp [decode]

theorem decode_cons_of_ne {ctx : Context} {c : Char} (h : c ≠ '&') (cs : List Char) :
    decode ctx (c :: cs) = c :: decode ctx cs := by
  simp [decode, h]

theorem decode_of_some {ctx : Context} {cs : List Char} {d : Char} {n : Nat}
    (h : reference? ctx cs = some (d, n)) :
    decode ctx ('&' :: cs) = d :: decode ctx (cs.drop n) := by
  simp [decode, h]

theorem decode_of_none {ctx : Context} {cs : List Char} (h : reference? ctx cs = none) :
    decode ctx ('&' :: cs) = '&' :: decode ctx cs := by
  simp [decode, h]

end Template.CharRef
