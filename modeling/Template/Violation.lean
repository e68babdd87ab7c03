namespace Template

inductive Violation
  | takeBack (count pending buffered depth : Nat)
  | stalled
  | replayAtStart
  | replayTwice
  | rootAsChild
  | ownChild
  | attachedChild
  | descendantAsParent
  | outOfBounds (size index : Nat)
  deriving DecidableEq, Repr

def Violation.message : Violation → String
  | .takeBack n pending buffered depth =>
    "pushback(" ++ toString n ++ ") exceeds lookahead: " ++ toString pending ++ " pending, "
      ++ toString buffered ++ " buffered, depth " ++ toString depth
  | .stalled => "scanning loop without progress"
  | .replayAtStart => "unscan called before any token was scanned"
  | .replayTwice => "unscan called twice without an intervening scan"
  | .rootAsChild => "append_child called with the root as child"
  | .ownChild => "append_child called with a node as its own child"
  | .attachedChild => "append_child called for an attached child node"
  | .descendantAsParent => "append_child called with a descendant of the child as parent"
  | .outOfBounds size index =>
    "index out of bounds: the len is " ++ toString size ++ " but the index is " ++ toString index

end Template
