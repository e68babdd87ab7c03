import Template.Pull.Attribute

namespace Template

/-- What comes next, with the position of the first character of a construct already entered. -/
inductive Pull.Mode
  | text
  | startTag (start : Position)
  | endTag (start : Position)
  | comment (start : Position)
  | mustache (start : Position)
  | rawText (name : String)
  | endOfInput
  deriving DecidableEq, Repr

/-- The outcome of one turn: a token unless there was none to make, what comes next, and a token
to be given out before that. -/
structure Pull.Turn where
  token : Option Token
  mode : Pull.Mode := .text
  held : Option Token := none
  deriving DecidableEq, Repr

namespace Pull

variable {ω : Type} [Window ω]

def opening (start : Position) : Pull ω (Option Mode) := do
  match ← read with
  | some '/' => return some (.endTag start)
  | some '!' =>
    let first ← read
    let second ← read
    if first = some '-' ∧ second = some '-' then return some (.comment start)
    else
      takeBack 3
      return none
  | some c =>
    takeBack 1
    return if Text.isNameStart c then some (.startTag start) else none
  | none =>
    takeBack 1
    return none

def entered (c : Char) (start : Position) : Pull ω (Option Mode) := do
  match c with
  | '<' => opening start
  | '{' =>
    if (← read) = some '{' then return some (.mustache start)
    else
      takeBack 1
      return none
  | _ => return none

def finishText (taken : List Char × Option Position) (mode : Mode) : Turn :=
  { token := taken.2.map fun start =>
      ⟨.text (String.ofList (CharRef.decode .text taken.1.reverse)), start⟩
    mode := mode }

def textStep (taken : List Char × Option Position) :
    Pull ω ((List Char × Option Position) ⊕ Turn) := do
  match ← read with
  | none => return .inr (finishText taken .endOfInput)
  | some '\n' =>
    skipBlanks
    return .inl taken
  | some c =>
    let here ← position
    match ← entered c here with
    | some mode => return .inr (finishText taken mode)
    | none => return .inl (c :: taken.1, taken.2.or (some here))

def text : Pull ω Turn := loop textStep ([], none)

def startTagStep (name : String) (start : Position) (attributes : List Attribute) :
    Pull ω (List Attribute ⊕ Turn) := do
  let found ← read
  let here ← position
  match found with
  | some '/' =>
    let next ← read
    if next = some '>' then return .inr { token := some ⟨.selfClosingTag name attributes, start⟩ }
    else
      takeBack 1
      fail (.unclosedSlash next) here
  | some '>' =>
    if Element.isVoid name then
      return .inr { token := some ⟨.selfClosingTag name attributes, start⟩ }
    else if Element.isRawText name then
      return .inr { token := some ⟨.startTag name attributes, start⟩, mode := .rawText name }
    else return .inr { token := some ⟨.startTag name attributes, start⟩ }
  | found =>
    if found.any Text.isBlank then return .inl (← loop attributeStep attributes)
    else fail (.unexpected found) here

def startTag (start : Position) : Pull ω Turn := do
  loop (startTagStep (← name) start) []

def endTag (start : Position) : Pull ω Turn := do
  let name ← name
  expect '>'
  if Element.isVoid name then fail (.voidClosingTag name) start
  else return { token := some ⟨.endTag name, start⟩ }

def commentStep (taken : List Char) : Pull ω (List Char ⊕ String) := do
  match ← read with
  | none => return .inr (String.ofList taken.reverse)
  | some '-' =>
    let first ← read
    let second ← read
    if first = some '-' ∧ second = some '>' then return .inr (String.ofList taken.reverse)
    else
      takeBack 2
      return .inl ('-' :: taken)
  | some c => return .inl (c :: taken)

def comment (start : Position) : Pull ω Turn := do
  return { token := some ⟨.comment (← loop commentStep []), start⟩ }

def mustache (start : Position) : Pull ω Turn := do
  return { token := some ⟨.mustache (← mustacheBody), start⟩ }

/-- A raw body ends at `stop`: the closing tag is held back if text stands before it. -/
def finishRawText (name : String) (taken : List Char × Option Position) (stop : Position) :
    Turn :=
  match taken.2 with
  | none => { token := some ⟨.endTag name, stop⟩ }
  | some start =>
    { token := some ⟨.text (String.ofList taken.1.reverse), start⟩
      held := some ⟨.endTag name, stop⟩ }

def rawTextStep (name : String) (taken : List Char × Option Position) :
    Pull ω ((List Char × Option Position) ⊕ Turn) := do
  match ← read with
  | none => fail (.unexpected none) (← position)
  | some '<' =>
    let here ← position
    let start := taken.2.or (some here)
    if (← read) = some '/' then
      let candidate ← Pull.name
      let passed := (['<', '/'] ++ candidate.toList).reverse ++ taken.1
      if candidate = name then
        if (← read) = some '>' then return .inr (finishRawText name taken here)
        else
          takeBack 1
          return .inl (passed, start)
      else return .inl (passed, start)
    else
      takeBack 1
      return .inl ('<' :: taken.1, start)
  | some c => return .inl (c :: taken.1, taken.2.or (some (← position)))

def rawText (name : String) : Pull ω Turn := loop (rawTextStep name) ([], none)

def turn : Mode → Pull ω Turn
  | .text => text
  | .startTag start => startTag start
  | .endTag start => endTag start
  | .comment start => comment start
  | .mustache start => mustache start
  | .rawText name => rawText name
  | .endOfInput => do
    return { token := some ⟨.endOfInput, ← position⟩, mode := .endOfInput }

def turnStep (mode : Mode) : Pull ω (Mode ⊕ (Token × Mode × Option Token)) := do
  let turn ← turn mode
  match turn.token with
  | some t => return .inr (t, turn.mode, turn.held)
  | none => return .inl turn.mode

end Pull

end Template
