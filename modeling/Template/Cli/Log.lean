import Template.Document

namespace Template.Cli

inductive Level
  | trace
  | debug
  | warn
  deriving DecidableEq, Repr

def Level.rank : Level → Nat
  | .trace => 0
  | .debug => 1
  | .warn => 2

instance : LT Level := ⟨fun a b => a.rank < b.rank⟩

instance (a b : Level) : Decidable (a < b) := inferInstanceAs (Decidable (a.rank < b.rank))

/-- What the log is told while a command works on a source. -/
inductive Event
  | listing (bytes : Nat)
  | rawText (element : String)
  | malformed (e : SyntaxError)
  | taken (l : Lexeme)
  | complete (nodes : Nat)
  | failed (e : SyntaxError)

namespace Event

def level : Event → Level
  | .taken _ => .trace
  | _ => .debug

theorem level_lt_warn (e : Event) : e.level < .warn := by
  cases e with
  | taken _ => exact (by decide : Level.trace < .warn)
  | _ => exact (by decide : Level.debug < .warn)

def ofLexeme : Lexeme → List Event
  | .ok ⟨.startTag name _, _⟩ => if Element.isRawText name then [.rawText name] else []
  | .ok _ => []
  | .error e => [.malformed e]

def ofListing : List Lexeme → List Event
  | [] => []
  | .ok t :: ls => ofLexeme (.ok t) ++ ofListing ls
  | .error e :: _ => ofLexeme (.error e)

def ofBuilding (b : Document.Builder) : List Lexeme → List Event
  | [] => []
  | .error e :: _ => ofLexeme (.error e) ++ [.taken (.error e)]
  | .ok t :: ls =>
    ofLexeme (.ok t) ++ .taken (.ok t) ::
      if t.kind = .endOfInput then []
      else match b.take t with
        | .ok b => ofBuilding b ls
        | .error _ => []

def ofResult : Except Document.Failure Document → List Event
  | .ok d => [.complete d.nodes.length]
  | .error (.malformed e) => [.failed e]
  | .error (.refused _) => []

end Event

/-- Who keeps the log.  The filter is the one chosen around the program, or else that of a level,
which leaves out all that is below it. -/
structure Logger where
  chosen? : Option (Event → Bool)
  named : Level → Event → Bool
  named_of_lt : ∀ {level e}, e.level < level → named level e = false
  write : List Event → String
  write_nil : write [] = ""

namespace Logger

variable {l : Logger}

def filter (l : Logger) (verbose : Bool) : Event → Bool :=
  l.chosen?.getD (l.named (if verbose then .debug else .warn))

def text (l : Logger) (verbose : Bool) (es : List Event) : String :=
  l.write (es.filter (l.filter verbose))

theorem filter_of_chosen?_eq_none (h : l.chosen? = none) (e : Event) :
    l.filter false e = false := by
  rw [filter, h]
  exact l.named_of_lt e.level_lt_warn

theorem text_eq_empty {verbose : Bool} (h : ∀ e, l.filter verbose e = false) (es : List Event) :
    l.text verbose es = "" := by
  rw [text, List.filter_eq_nil_iff.2 fun e _ => Bool.eq_false_iff.1 (h e), l.write_nil]

end Logger

end Template.Cli
