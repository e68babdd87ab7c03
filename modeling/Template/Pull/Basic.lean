import Template.SyntaxError
import Template.Text.Classes
import Template.Window

/-! Computations that pull characters out of a window one at a time and give back what they read
too far.  A syntax error leaves the window as it is; where giving back is refused they end. -/

namespace Template

abbrev Pull (ω : Type) := ExceptT SyntaxError (StateT ω (Except Violation))

namespace Pull

variable {ω : Type} [Window ω] {α σ : Type}

def read : Pull ω (Option Char) := modifyGet Window.read

def position : Pull ω Position := modifyGet Window.position

def violate (v : Violation) : Pull ω α := throwThe Violation v

def takeBack (n : Nat) : Pull ω Unit := do
  match Window.takeBack (← get) n with
  | .ok r => set r
  | .error v => violate v

def fail (cause : SyntaxError.Cause) (position : Position) : Pull ω α :=
  throwThe SyntaxError ⟨cause, position⟩

def iterate (step : σ → Pull ω (σ ⊕ α)) : Nat → σ → Pull ω α
  | 0, _ => violate .stalled
  | fuel + 1, s => do
    match ← step s with
    | .inl s => iterate step fuel s
    | .inr a => return a

def loop (step : σ → Pull ω (σ ⊕ α)) (s : σ) : Pull ω α := do
  -- every step but the last pulls a character
  iterate step (Window.unread (← get) + 1) s

def expect (c : Char) : Pull ω Unit := do
  let found ← read
  if found = some c then return else fail (.unexpected found) (← position)

def nameStep (taken : List Char) : Pull ω (List Char ⊕ String) := do
  match ← read with
  | some c =>
    if Text.isNameChar c then return .inl (c :: taken)
    else
      takeBack 1
      return .inr (String.ofList taken.reverse)
  | none =>
    takeBack 1
    return .inr (String.ofList taken.reverse)

def name : Pull ω String := loop nameStep []

def blankStep (_ : Unit) : Pull ω (Unit ⊕ Unit) := do
  match ← read with
  | some c =>
    if Text.isBlank c then return .inl ()
    else
      takeBack 1
      return .inr ()
  | none => return .inr ()

def skipBlanks : Pull ω Unit := loop blankStep ()

end Pull

end Template
