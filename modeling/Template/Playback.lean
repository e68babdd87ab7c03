import Template.Token
import Template.Violation

namespace Template

structure Playback (σ : Type) where
  source : σ
  last? : Option Lexeme := none
  replaying : Bool := false
  errors : List SyntaxError := []

namespace Playback

variable {σ : Type} {m : Type → Type} [Monad m]

def next (step : σ → m (Lexeme × σ)) (p : Playback σ) : m (Lexeme × Playback σ) :=
  match p.replaying, p.last? with
  | true, some l => pure (l, { p with replaying := false })
  | _, _ => do
    let (l, source) ← step p.source
    pure (l, ⟨source, some l, false, p.errors ++ l.error?.toList⟩)

def stepBack (p : Playback σ) : Except Violation (Playback σ) :=
  if p.last?.isNone then .error .replayAtStart
  else if p.replaying then .error .replayTwice
  else .ok { p with replaying := true }

def firstError (p : Playback σ) (position : Position) : SyntaxError :=
  p.errors.headD ⟨.other "syntax error", position⟩

def tokens (step : σ → Except Violation (Lexeme × σ)) :
    Nat → Playback σ → Except Violation (Except SyntaxError (List Token) × Playback σ)
  | 0, _ => .error .stalled
  | fuel + 1, p => do
    match ← p.next step with
    | (.error e, p) => return (.error (p.firstError e.position), p)
    | (.ok t, p) =>
      if t.kind = .endOfInput then return (.ok [t], p)
      else
        let (ts, p) ← tokens step fuel p
        return (ts.map (t :: ·), p)

theorem next_of_replaying (step : σ → m (Lexeme × σ)) {p : Playback σ} {l : Lexeme}
    (hr : p.replaying = true) (hl : p.last? = some l) :
    p.next step = pure (l, { p with replaying := false }) := by
  simp [next, hr, hl]

theorem next_of_not_replaying (step : σ → m (Lexeme × σ)) {p : Playback σ}
    (hr : p.replaying = false) :
    p.next step = step p.source >>= fun x =>
      pure (x.1, ⟨x.2, some x.1, false, p.errors ++ x.1.error?.toList⟩) := by
  simp [next, hr]

end Playback

end Template
