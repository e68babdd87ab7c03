import Template.Cli.Program

/-! Arguments as they are read where the program is run.  Flags may stand before and after the
command, each at most once on either side. -/

namespace Template.Cli

namespace Arguments

inductive Reply
  | misuse
  | help
  | version
  deriving DecidableEq, Repr

inductive Side
  | beforeCommand
  | afterCommand
  deriving DecidableEq, Repr

def Side.version : Side → Reply
  | .beforeCommand => .version
  | .afterCommand => .misuse

def command? : String → Option Command
  | "tokens" => some .tokens
  | "parse" => some .parse
  | "check" => some .check
  | _ => none

def verbose (seen : Bool) : Except Reply Bool := if seen then .error .misuse else .ok true

def letters (side : Side) (seen : Bool) : List Char → Except Reply Bool
  | [] => .ok seen
  | 'v' :: cs => do letters side (← verbose seen) cs
  | 'h' :: _ => .error .help
  | 'V' :: _ => .error side.version
  | _ => .error .misuse

def isFlag (arg : String) : Bool := arg.startsWith "-" && arg ≠ "-"

def flag (side : Side) (seen : Bool) (arg : String) : Except Reply Bool :=
  match arg with
  | "--verbose" => verbose seen
  | "--help" => .error .help
  | "--version" => .error side.version
  | arg => letters side seen (arg.toList.drop 1)

def withPath (r : Request) : List String → Except Reply Request
  | [] => .ok r
  | [path] => if r.path?.isSome then .error .misuse else .ok { r with path? := some path }
  | _ => .error .misuse

def afterCommand (r : Request) (seen : Bool) : List String → Except Reply Request
  | [] => .ok { r with verbose := r.verbose || seen }
  | "--" :: paths => withPath { r with verbose := r.verbose || seen } paths
  | arg :: args =>
    if isFlag arg then
      match flag .afterCommand seen arg with
      | .ok seen => afterCommand r seen args
      | .error reply => .error reply
    else if r.path?.isSome then .error .misuse
    else afterCommand { r with path? := some arg } seen args

def afterHelp : List String → Reply
  | [] => .help
  | [name] => if (command? name).isSome || name = "help" then .help else .misuse
  | _ => .misuse

def beforeCommand (seen : Bool) : List String → Except Reply Request
  | [] => .error .misuse
  | arg :: args =>
    if arg = "--" then .error .misuse
    else if isFlag arg then
      match flag .beforeCommand seen arg with
      | .ok seen => beforeCommand seen args
      | .error reply => .error reply
    else
      match command? arg with
      | some command => afterCommand ⟨seen, command, none⟩ false args
      | none => .error (if arg = "help" then afterHelp args else .misuse)

def versionText : String := "whtml 0.1.0\n"

def usageText : String :=
  "Usage: whtml [-v] <tokens|parse|check> [PATH]\n"
    ++ "Inspects templates.  The source is read from PATH, or from the standard input.\n"

def Reply.outcome : Reply → Outcome
  | .misuse => { code := 2, stderr := usageText }
  | .help => { stdout := usageText }
  | .version => { stdout := versionText }

theorem beforeCommand_name (c : Command) (args : List String) :
    beforeCommand false (c.name :: args) = afterCommand ⟨false, c, none⟩ false args := by
  cases c <;> simp [beforeCommand, isFlag, Command.name, command?]

end Arguments

open Arguments in
def Usage.standard : Usage where
  read args := (beforeCommand false args).mapError Reply.outcome
  read_name c := by
    rw [beforeCommand_name]
    rfl
  read_path c path h := by
    have hflag : isFlag path = false := by simpa [isFlag] using h
    have hdashes : path ≠ "--" := by
      rintro rfl
      exact absurd hflag (by simp [isFlag])
    rw [beforeCommand_name, afterCommand, hflag]
    · rfl
    · exact hdashes
  read_dashes c path := by
    rw [beforeCommand_name]
    rfl

end Template.Cli
