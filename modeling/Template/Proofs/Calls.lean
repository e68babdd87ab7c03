import Template.Cli.Program
import Template.Proofs.Messages
import Template.Proofs.Parsing

namespace Template

section Lexemes

theorem Lexeme.exists_split (ls : List Lexeme) :
    (∃ ts : List Token, ls = ts.map .ok) ∨
      ∃ (ts : List Token) (e : SyntaxError) (rest : List Lexeme),
        ls = ts.map .ok ++ .error e :: rest := by
  induction ls with
  | nil => exact .inl ⟨[], rfl⟩
  | cons l ls ih =>
    cases l with
    | error e => exact .inr ⟨[], e, ls, rfl⟩
    | ok t =>
      rcases ih with ⟨ts, rfl⟩ | ⟨ts, e, rest, rfl⟩
      · exact .inl ⟨t :: ts, rfl⟩
      · exact .inr ⟨t :: ts, e, rest, rfl⟩

theorem Lexeme.mem_of_append_eq {ts us : List Token} {t : Token} {e : SyntaxError}
    {rest rest' : List Lexeme}
    (h : ts.map .ok ++ .ok t :: rest = (us.map .ok ++ .error e :: rest' : List Lexeme)) :
    t ∈ us := by
  induction ts generalizing us with
  | nil =>
    cases us with
    | nil => cases h
    | cons u us =>
      cases h
      exact List.mem_cons_self
  | cons x xs ih =>
    cases us with
    | nil => cases h
    | cons u us => exact List.mem_cons_of_mem _ (ih (List.cons.inj h).2)

end Lexemes

namespace Listing

variable (ts : List Token)

theorem ofLexemes_map : ofLexemes (ts.map .ok) = (ts.map line, none) := by
  induction ts with
  | nil => rfl
  | cons t ts ih => rw [List.map_cons, ofLexemes, ih, List.map_cons]

theorem ofLexemes_error (e : SyntaxError) (rest : List Lexeme) :
    ofLexemes (ts.map .ok ++ .error e :: rest) = (ts.map line, some e) := by
  induction ts with
  | nil => rfl
  | cons t ts ih => rw [List.map_cons, List.cons_append, ofLexemes, ih, List.map_cons]

end Listing

namespace Cli

def Outcome.ofListing (printed : String) : List String × Option SyntaxError → Outcome
  | (lines, none) => { stdout := printed ++ String.join lines }
  | (lines, some e) => .failed (SyntaxError.summary [e]) (printed ++ String.join lines)

theorem Outcome.ofListing_none (printed : String) :
    ofListing printed ([], none) = { stdout := printed } := by
  rw [ofListing, String.join_nil, String.append_empty]

theorem Outcome.ofListing_some (printed : String) (e : SyntaxError) :
    ofListing printed ([], some e) = .failed (SyntaxError.summary [e]) printed := by
  rw [ofListing, String.join_nil, String.append_empty]

theorem Outcome.ofListing_cons (printed line : String) (lines : List String)
    (e? : Option SyntaxError) :
    ofListing printed (line :: lines, e?) = ofListing (printed ++ line) (lines, e?) := by
  cases e? <;> simp [ofListing, String.append_assoc]

theorem listTokens_eq (source : String) :
    listTokens source = .ofListing "" (Listing.ofLexemes (lexemes source)) := by
  rw [listTokens]
  split
  · rename_i lines h
    rw [h, Outcome.ofListing, String.empty_append]
  · rename_i lines e h
    rw [h, Outcome.ofListing, String.empty_append]

section Outcomes

variable {source : String} {ts : List Token} {e : SyntaxError}

def errorLine (e : SyntaxError) : String :=
  "error: " ++ toString (e.position.line + 1) ++ ":" ++ toString e.position.column ++ ": " ++
    e.message

theorem errorLine_eq (e : SyntaxError) : errorLine e = "error: " ++ e.display := by
  simp [errorLine, SyntaxError.display, Position.display, String.append_assoc]

theorem failed_display (e : SyntaxError) (printed : String) :
    Outcome.failed e.display printed = ⟨1, printed, errorLine e ++ "\n"⟩ := by
  rw [Outcome.failed, errorLine_eq]

theorem lineFeed_notMem_errorLine (h : '\n' ∉ e.display.toList) :
    '\n' ∉ (errorLine e).toList := by
  rw [errorLine_eq, String.toList_append, List.mem_append, not_or]
  exact ⟨by decide, h⟩

theorem listTokens_map (h : lexemes source = ts.map .ok) :
    listTokens source = { stdout := String.join (ts.map Listing.line) } := by
  rw [listTokens_eq, h, Listing.ofLexemes_map, Outcome.ofListing, String.empty_append]

theorem listTokens_error {rest : List Lexeme}
    (h : lexemes source = ts.map .ok ++ .error e :: rest) :
    listTokens source = ⟨1, String.join (ts.map Listing.line), errorLine e ++ "\n"⟩ := by
  rw [listTokens_eq, h, Listing.ofLexemes_error, Outcome.ofListing, String.empty_append]
  exact failed_display e _

theorem syntaxErrors_map (h : lexemes source = ts.map .ok) : syntaxErrors source = [] := by
  rw [syntaxErrors, h, filterMap_error?_map]

theorem syntaxErrors_error {rest : List Lexeme}
    (h : lexemes source = ts.map .ok ++ .error e :: rest) :
    (syntaxErrors source).take 1 = [e] := by
  rw [syntaxErrors, h, List.filterMap_append, filterMap_error?_map]
  rfl

theorem syntaxErrors_ne_nil {rest : List Lexeme}
    (h : lexemes source = ts.map .ok ++ .error e :: rest) : syntaxErrors source ≠ [] := by
  intro hnil
  have hfirst := syntaxErrors_error h
  rw [hnil] at hfirst
  cases hfirst

theorem lineFeed_notMem_of_lexemes {rest : List Lexeme}
    (h : lexemes source = ts.map .ok ++ .error e :: rest) : '\n' ∉ (errorLine e).toList := by
  have hmem : .error e ∈ lexemes source := by
    rw [h]
    exact List.mem_append_right _ List.mem_cons_self
  exact lineFeed_notMem_errorLine (Reading.lineFeed_notMem_display hmem)

theorem error?_ofLexemes (source : String) :
    (Listing.ofLexemes (lexemes source)).2.toList = (syntaxErrors source).take 1 := by
  rcases Lexeme.exists_split (lexemes source) with ⟨ts, h⟩ | ⟨ts, e, rest, h⟩
  · rw [syntaxErrors_map h, h, Listing.ofLexemes_map]
    rfl
  · rw [syntaxErrors_error h, h, Listing.ofLexemes_error]
    rfl

end Outcomes

section Sources

variable {env : Environment} {source : String}

theorem text_toUTF8 (name source : String) : text name source.toUTF8 = .ok source := by
  have hdecode : String.fromUTF8? source.toUTF8 = some source := dif_pos source.isValidUTF8
  rw [text, hdecode]

theorem Environment.source_stdin (h : env.stdin = source.toUTF8) {path? : Option String}
    (hpath : isStdin path? = true) : env.source path? = .ok source := by
  rw [Environment.source, if_pos hpath, h, text_toUTF8]

theorem Environment.source_file {path : String} (hpath : path ≠ "-")
    (h : env.entry path = .file source.toUTF8) : env.source (some path) = .ok source := by
  rw [Environment.source, if_neg (by simpa [isStdin] using hpath), Option.getD_some, h]
  exact text_toUTF8 path source

end Sources

/-- One source for all commands: how each of them is called, and where the source is found. -/
structure Call (source : String) where
  usage : Usage
  logger : Command → Logger
  env : Environment
  path? : Option String
  verbose : Command → Bool
  args : Command → List String
  read : ∀ c, usage.read (args c) = .ok ⟨verbose c, c, path?⟩
  found : env.source path? = .ok source

/-- Calls of which nothing is logged. -/
structure Supply (source : String) extends Call source where
  quiet : ∀ c e, (logger c).filter (verbose c) e = false

namespace Call

variable {source : String} {ts : List Token} (k : Call source)

def outcome (c : Command) : Outcome := execute k.usage (k.logger c) k.env (k.args c)

def logged (c : Command) : String := (k.logger c).text (k.verbose c) (c.events source)

theorem outcome_eq (c : Command) :
    k.outcome c = (c.run k.path? source).behind (k.logged c) := by
  rw [outcome, execute, k.read]
  simp only [Request.answer, k.found]
  rfl

theorem tokens_of_ok (h : lexemes source = ts.map .ok) : k.outcome .tokens =
    { stdout := String.join (ts.map Listing.line), stderr := k.logged .tokens } := by
  rw [k.outcome_eq, Command.run, listTokens_map h, Outcome.behind, String.append_empty]

end Call

namespace Supply

variable {source : String} {d : Document} {e : SyntaxError} {ts : List Token}

section Kinds

variable (usage : Usage) (logger : Command → Logger) (env : Environment)

def ofCall (k : Call source) (hverbose : ∀ c, k.verbose c = false)
    (hlog : ∀ c, (k.logger c).chosen? = none) : Supply source where
  toCall := k
  quiet c e := by
    rw [hverbose]
    exact Logger.filter_of_chosen?_eq_none (hlog c) e

def omitted (hlog : ∀ c, (logger c).chosen? = none) (h : env.source none = .ok source) :
    Supply source :=
  ofCall
    { usage, logger, env, path? := none, verbose := fun _ => false, args := fun c => [c.name],
      read := usage.read_name, found := h }
    (fun _ => rfl) hlog

def ofPath (hlog : ∀ c, (logger c).chosen? = none) (path : String)
    (hpath : path.startsWith "-" → path = "-") (h : env.source (some path) = .ok source) :
    Supply source :=
  ofCall
    { usage, logger, env, path? := some path, verbose := fun _ => false
      args := fun c => [c.name, path], read := fun c => usage.read_path c path hpath, found := h }
    (fun _ => rfl) hlog

def ofDashes (hlog : ∀ c, (logger c).chosen? = none) (path : String)
    (h : env.source (some path) = .ok source) : Supply source :=
  ofCall
    { usage, logger, env, path? := some path, verbose := fun _ => false
      args := fun c => [c.name, "--", path], read := fun c => usage.read_dashes c path, found := h }
    (fun _ => rfl) hlog

end Kinds

variable (s : Supply source)

theorem logged_eq (c : Command) : s.logged c = "" := Logger.text_eq_empty (s.quiet c) _

theorem outcome_eq (c : Command) : s.outcome c = c.run s.path? source := by
  rw [s.toCall.outcome_eq, s.logged_eq, Outcome.behind, String.empty_append]

theorem tokens_of_ok (h : lexemes source = ts.map .ok) :
    s.outcome .tokens = { stdout := String.join (ts.map Listing.line) } :=
  (s.outcome_eq .tokens).trans (listTokens_map h)

theorem tokens_of_error {rest : List Lexeme}
    (h : lexemes source = ts.map .ok ++ .error e :: rest) :
    s.outcome .tokens = ⟨1, String.join (ts.map Listing.line), errorLine e ++ "\n"⟩ :=
  (s.outcome_eq .tokens).trans (listTokens_error h)

theorem parse_of_ok (h : Document.parse source = .ok d) :
    s.outcome .parse = { stdout := d.render } := by
  rw [s.outcome_eq, Command.run, renderDocument, h]

theorem parse_of_error (h : Document.parse source = .error (.malformed e)) :
    s.outcome .parse = ⟨1, "", errorLine e ++ "\n"⟩ := by
  rw [s.outcome_eq, Command.run, renderDocument, h]
  exact failed_display e ""

theorem check_of_ok (h : Document.parse source = .ok d) :
    s.outcome .check = { stderr := "OK: " ++ displayName s.path? ++ "\n" } := by
  rw [s.outcome_eq, Command.run, checkDocument, h]

theorem check_of_error (h : Document.parse source = .error (.malformed e)) :
    s.outcome .check = ⟨1, "", errorLine e ++ "\n"⟩ := by
  rw [s.outcome_eq, Command.run, checkDocument, h]
  exact failed_display e ""

end Supply

end Cli

end Template
