import Template.CharRef
import Template.Scan.Basic
import Template.Text.Classes

namespace Template.Scan

def name : Scan String := do return String.ofList (← takeWhile Text.isNameChar)

def endsMustache : List Char → Bool
  | '\n' :: _ => true
  | '}' :: '}' :: _ => true
  | _ => false

theorem endsMustache_cons (x : Char) (cs : List Char) :
    endsMustache (x :: cs) = (x = '\n' || (x = '}' && cs.head? = some '}') : Bool) := by
  by_cases hbreak : x = '\n'
  · subst hbreak
    rfl
  by_cases hbrace : x = '}'
  · subst hbrace
    cases cs with
    | nil => rfl
    | cons y cs => by_cases hy : y = '}' <;> simp [endsMustache, hy]
  · simp [endsMustache, hbreak, hbrace]

/-- Reads an expression and the `}}` after it.  The position at the start is that of the second
opening brace, and blame for a body without its end falls there. -/
def mustacheBody : Scan String := do
  let opened ← position
  let body ← takeBefore endsMustache
  match ← read with
  | some '}' =>
    skip 1
    require (body ≠ []) .emptyMustache (← position)
    return String.ofList body
  | found => fail (.unexpected found) opened

def endsLiteral (q : Char) : List Char → Bool
  | '{' :: '{' :: _ => true
  | c :: _ => c = q || c = '\n'
  | [] => false

theorem endsLiteral_cons (q x : Char) (cs : List Char) :
    endsLiteral q (x :: cs) =
      ((x = '{' && cs.head? = some '{') || x = q || x = '\n' : Bool) := by
  by_cases hbrace : x = '{'
  · subst hbrace
    cases cs with
    | nil => simp [endsLiteral]
    | cons y cs => by_cases hy : y = '{' <;> simp [endsLiteral, hy]
  · simp [endsLiteral, hbrace]

def embedded (q : Char) : Scan (Option (List Char × String)) := do
  let rest := (← get).rest
  let literal := Text.before (endsLiteral q) rest
  if ['{', '{'].isPrefixOf (rest.drop literal.length) then
    skip (literal.length + 2)
    return some (literal, ← mustacheBody)
  return none

def quotedValue (q : Char) : Scan (String × List String) := do
  let opened ← position
  let pieces ← many (embedded q)
  let literal ← takeBefore (endsLiteral q)
  let close ← read
  require (close = some q) (.unexpected close) opened
  let value := pieces.flatMap (fun p => p.1 ++ placeholder) ++ literal
  return (String.ofList (CharRef.decode .attribute value), pieces.map (·.2))

def keyed : Scan Attribute := do
  let start ← nextPosition
  let key ← name
  if (← peek) ≠ some '=' then return ⟨.bool key, start⟩
  skip 1
  match ← read with
  | some '{' =>
    expect '{'
    return ⟨.mustache key (← mustacheBody), start⟩
  | some '"' =>
    let (value, mustaches) ← quotedValue '"'
    return ⟨.string key value mustaches, start⟩
  | some '\'' =>
    let (value, mustaches) ← quotedValue '\''
    return ⟨.string key value mustaches, start⟩
  | found => fail (.unexpected found) (← position)

def variadic : Scan Attribute := do
  let start ← nextPosition
  skip 1
  require (['.', '.'].isPrefixOf (← get).rest) (.unexpected (some '.')) start
  skip 2
  expect '{'
  expect '{'
  return ⟨.variadic (← mustacheBody), start⟩

def attribute? : Scan (Option Attribute) := do
  let _ ← takeWhile Text.isBlank
  match ← peek with
  | none | some '>' | some '/' => return none
  | some '.' => some <$> variadic
  | some c =>
    if Text.isNameStart c then some <$> keyed
    else
      skip 1
      fail (.unexpected (some c)) (← position)

/-- Only a blank opens the attribute list. -/
def attributes : Scan (List Attribute) := do
  if (← peek).any Text.isBlank then many attribute? else return []

end Template.Scan
