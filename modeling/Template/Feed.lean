import Template.Lookahead
import Template.Pull.Construct

namespace Template

structure Feed (ω : Type) where
  window : ω
  mode : Pull.Mode := .text
  held : Option Token := none
  deriving DecidableEq, Repr

namespace Feed

variable {ω : Type} [Window ω]

def ofString (depth : Nat) [Lookahead.HasSlot depth] (source : String) :
    Feed (Lookahead depth) :=
  { window := Lookahead.ofString depth source }

def token (mode : Pull.Mode) : Pull ω (Token × Pull.Mode × Option Token) :=
  -- only a first turn, through text, may make no token
  Pull.iterate Pull.turnStep 2 mode

/-- One step.  After an error scanning goes on in text, where reading stopped. -/
def next (s : Feed ω) : Except Violation (Lexeme × Feed ω) :=
  match s.held with
  | some t => .ok (.ok t, { s with held := none })
  | none =>
    match token s.mode s.window with
    | .error v => .error v
    | .ok (.error e, r) => .ok (.error e, ⟨r, .text, none⟩)
    | .ok (.ok (t, mode, held), r) => .ok (.ok t, ⟨r, mode, held⟩)

def take : Nat → Feed ω → Except Violation (List Lexeme)
  | 0, _ => .ok []
  | fuel + 1, s => do
    let (l, s) ← s.next
    if l.isEnd then return [l] else return l :: (← take fuel s)

def lexemes (s : Feed ω) : Except Violation (List Lexeme) :=
  -- a character goes with each lexeme before the end of the input
  s.take (Window.unread s.window + 1)

end Feed

end Template
