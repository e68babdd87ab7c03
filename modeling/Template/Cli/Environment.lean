namespace Template.Cli

inductive Entry
  | missing
  | directory
  | file (content : ByteArray)

structure Environment where
  stdin : ByteArray
  entry : String → Entry

inductive SourceError
  | missing (path : String)
  | directory (path : String)
  | notUtf8 (name : String)
  deriving DecidableEq, Repr

def SourceError.message : SourceError → String
  | .missing path => "file not found: " ++ path
  | .directory path => "reading " ++ path ++ ": Is a directory (os error 21)"
  | .notUtf8 name => "reading " ++ name ++ ": stream did not contain valid UTF-8"

def text (name : String) (content : ByteArray) : Except SourceError String :=
  match String.fromUTF8? content with
  | some s => .ok s
  | none => .error (.notUtf8 name)

def isStdin (path? : Option String) : Bool := path?.all (· = "-")

def Environment.source (env : Environment) (path? : Option String) :
    Except SourceError String :=
  let path := path?.getD "-"
  if isStdin path? then text "stdin" env.stdin
  else
    match env.entry path with
    | .missing => .error (.missing path)
    | .directory => .error (.directory path)
    | .file content => text path content

def displayName (path? : Option String) : String :=
  if isStdin path? then "<stdin>" else path?.getD "-"

end Template.Cli
