import Template.Cli.Environment
import Template.Cli.Log
import Template.Token.Listing

namespace Template.Cli

inductive Command
  | tokens
  | parse
  | check
  deriving DecidableEq, Repr

def Command.name : Command → String
  | .tokens => "tokens"
  | .parse => "parse"
  | .check => "check"

structure Outcome where
  code : Nat := 0
  stdout : String := ""
  stderr : String := ""
  deriving DecidableEq, Repr

def Outcome.failed (message : String) (stdout : String := "") : Outcome :=
  ⟨1, stdout, "error: " ++ message ++ "\n"⟩

/-- The log goes where messages go, and is written before them. -/
def Outcome.behind (log : String) (o : Outcome) : Outcome := { o with stderr := log ++ o.stderr }

def failureMessage : Document.Failure → String
  | .malformed e => e.display
  | .refused v => v.message

def listTokens (source : String) : Outcome :=
  match Listing.ofLexemes (lexemes source) with
  | (lines, none) => { stdout := String.join lines }
  | (lines, some e) => .failed (SyntaxError.summary [e]) (String.join lines)

/-- Prints tokens as they are scanned, up to the end of the input or the first error, within `fuel`
of them.  The message is about all the errors met so far. -/
def printTokens {σ : Type} (step : σ → Except Violation (Lexeme × σ)) :
    Nat → String → Playback σ → Except Violation (Outcome × Playback σ)
  | 0, _, _ => .error .stalled
  | fuel + 1, printed, p => do
    match ← p.next step with
    | (.error _, p) => return (.failed (SyntaxError.summary p.errors) printed, p)
    | (.ok t, p) =>
      let printed := printed ++ Listing.line t
      if t.kind = .endOfInput then return ({ stdout := printed }, p)
      else printTokens step fuel printed p

def renderDocument (source : String) : Outcome :=
  match Document.parse source with
  | .ok d => { stdout := d.render }
  | .error f => .failed (failureMessage f)

def checkDocument (name source : String) : Outcome :=
  match Document.parse source with
  | .ok _ => { stderr := "OK: " ++ name ++ "\n" }
  | .error f => .failed (failureMessage f)

def Command.run (command : Command) (path? : Option String) (source : String) : Outcome :=
  match command with
  | .tokens => listTokens source
  | .parse => renderDocument source
  | .check => checkDocument (displayName path?) source

def Command.events (command : Command) (source : String) : List Event :=
  match command with
  | .tokens => .listing source.utf8ByteSize :: Event.ofListing (lexemes source)
  | .parse | .check =>
    Event.ofBuilding {} (lexemes source) ++ Event.ofResult (Document.parse source)

structure Request where
  verbose : Bool
  command : Command
  path? : Option String
  deriving DecidableEq, Repr

/-- How arguments are read: as a request, or as what is answered in place of one. -/
structure Usage where
  read : List String → Except Outcome Request
  read_name : ∀ c : Command, read [c.name] = .ok ⟨false, c, none⟩
  read_path : ∀ (c : Command) path, (path.startsWith "-" → path = "-") →
    read [c.name, path] = .ok ⟨false, c, some path⟩
  read_dashes : ∀ (c : Command) path, read [c.name, "--", path] = .ok ⟨false, c, some path⟩

def Request.answer (r : Request) (logger : Logger) (env : Environment) : Outcome :=
  match env.source r.path? with
  | .ok source =>
    (r.command.run r.path? source).behind (logger.text r.verbose (r.command.events source))
  | .error e => .failed e.message

def execute (usage : Usage) (logger : Logger) (env : Environment) (args : List String) : Outcome :=
  match usage.read args with
  | .ok r => r.answer logger env
  | .error o => o

end Template.Cli
