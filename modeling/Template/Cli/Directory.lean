import Template.Cli.Environment

/-! A working directory held in memory, its files named by their paths below it, and the little
that is known of the system around it. -/

namespace Template.Cli

structure Directory where
  files : List (String × String)

namespace Directory

/-- The names from the root to the working directory.  It stands in `/tmp` and has no name: a path
from outside cannot lead into it. -/
def location : List String := ["tmp", ""]

def known (d : Directory) : List (List String × String) :=
  (["dev", "null"], "") :: d.files.map fun f => (location ++ f.1.splitOn "/", f.2)

def isDirectory (d : Directory) (names : List String) : Bool :=
  names.isPrefixOf location ||
    d.known.any fun f => names.isPrefixOf f.1 && names.length < f.1.length

def walk (d : Directory) : List String → List String → Option (List String)
  | here, [] => some here
  | here, name :: names =>
    if d.isDirectory here.reverse then
      if name = "" || name = "." then d.walk here names
      else if name = ".." then d.walk here.tail names
      else d.walk (name :: here) names
    else none

def maxPathBytes : Nat := 4095

def entry (d : Directory) (path : String) : Entry :=
  if path = "" || maxPathBytes < path.utf8ByteSize then .missing
  else
    match d.walk (if path.startsWith "/" then [] else location.reverse) (path.splitOn "/") with
    | none => .missing
    | some here =>
      match d.known.lookup here.reverse with
      | some content => .file content.toUTF8
      | none => if d.isDirectory here.reverse then .directory else .missing

end Directory

end Template.Cli
