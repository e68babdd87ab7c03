import Template.Cli.Arguments

namespace Template.Cli

def Event.message : Event → String
  | .listing bytes => "scanning bytes=" ++ toString bytes
  | .rawText element => "entering raw-text mode element=" ++ element
  | .malformed e => "syntax error err=" ++ e.display
  | .taken (.ok t) =>
    "token kind=" ++ Listing.tokenKind Text.Quoted.isPlain t.kind
      ++ " line=" ++ toString t.position.line
  | .taken (.error e) => "token kind=Error line=" ++ toString e.position.line
  | .complete nodes => "parsed document nodes=" ++ toString nodes
  | .failed e => "parse failed err=" ++ e.display

def Logger.plain : Logger where
  chosen? := none
  named level e := !decide (e.level < level)
  named_of_lt h := by rw [decide_eq_true h, Bool.not_true]
  write es := String.join (es.map fun e => e.message ++ "\n")
  write_nil := rfl

def Logger.off : Logger := { Logger.plain with chosen? := some fun _ => false }

/-- A run with the log turned off. -/
def run (env : Environment) (args : List String) : Outcome := execute .standard .off env args

end Template.Cli
