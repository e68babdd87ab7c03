import Template.CharRef
import Template.Pull.Basic
import Template.Token

namespace Template.Pull

variable {ω : Type} [Window ω]

def mustacheStep (opened : Position) (taken : List Char) :
    Pull ω (List Char ⊕ String) := do
  match ← read with
  | none => fail (.unexpected none) opened
  | some '\n' => fail (.unexpected (some '\n')) opened
  | some '}' =>
    if (← read) = some '}' then
      if taken = [] then fail .emptyMustache (← position)
      else return .inr (String.ofList taken.reverse)
    else
      takeBack 1
      return .inl ('}' :: taken)
  | some c => return .inl (c :: taken)

def mustacheBody : Pull ω String := do loop (mustacheStep (← position)) []

/-- One more character or mustache of a value in quotes `q`; `taken` holds its characters,
backwards, and its expressions. -/
def quotedStep (q : Char) (opened : Position) (taken : List Char × List String) :
    Pull ω ((List Char × List String) ⊕ (String × List String)) := do
  match ← read with
  | none => fail (.unexpected none) opened
  | some '\n' => fail (.unexpected (some '\n')) opened
  | some '{' =>
    if (← read) = some '{' then
      let expression ← mustacheBody
      return .inl (placeholder.reverse ++ taken.1, taken.2 ++ [expression])
    else
      takeBack 1
      return .inl ('{' :: taken.1, taken.2)
  | some c =>
    if c = q then
      return .inr (String.ofList (CharRef.decode .attribute taken.1.reverse), taken.2)
    else return .inl (c :: taken.1, taken.2)

def quotedValue (q : Char) : Pull ω (String × List String) := do
  loop (quotedStep q (← position)) ([], [])

def keyed (start : Position) : Pull ω Attribute := do
  let key ← name
  if (← read) = some '=' then
    match ← read with
    | some '{' =>
      expect '{'
      return ⟨.mustache key (← mustacheBody), start⟩
    | some '"' =>
      let (value, mustaches) ← quotedValue '"'
      return ⟨.string key value mustaches, start⟩
    | some '\'' =>
      let (value, mustaches) ← quotedValue '\''
      return ⟨.string key value mustaches, start⟩
    | found => fail (.unexpected found) (← position)
  else
    takeBack 1
    return ⟨.bool key, start⟩

def variadic (start : Position) : Pull ω Attribute := do
  let second ← read
  let third ← read
  if second = some '.' ∧ third = some '.' then
    expect '{'
    expect '{'
    return ⟨.variadic (← mustacheBody), start⟩
  else
    takeBack 2
    fail (.unexpected (some '.')) start

def attributeStep (taken : List Attribute) :
    Pull ω (List Attribute ⊕ List Attribute) := do
  skipBlanks
  let found ← read
  let start ← position
  match found with
  | none => return .inr taken
  | some '.' => return .inl (taken ++ [← variadic start])
  | some '>' | some '/' =>
    takeBack 1
    return .inr taken
  | some c =>
    if Text.isNameStart c then
      takeBack 1
      return .inl (taken ++ [← keyed start])
    else fail (.unexpected (some c)) start

end Template.Pull
