import Template.Cli.Run
import Template.Proofs.Listings
import Template.Proofs.Safety

namespace Template

namespace Document

/-- What becomes of a source: there is a document, its tags are at fault and nothing else is, the
first error is that of a lexeme, or a closing tag is at fault before such an error. -/
inductive Verdict (source : String) : Prop
  | complete (ts : List Token) (d : Document) : lexemes source = ts.map .ok →
      parse source = .ok d → Verdict source
  | unbalanced (ts : List Token) (e : SyntaxError) : lexemes source = ts.map .ok →
      parse source = .error (.malformed e) → Verdict source
  | lexical (ts : List Token) (e : SyntaxError) (rest : List Lexeme) :
      lexemes source = ts.map .ok ++ .error e :: rest →
      parse source = .error (.malformed e) → Verdict source
  | overtaken (ts : List Token) (e : SyntaxError) (rest : List Lexeme) (name : String)
      (p : Position) : lexemes source = ts.map .ok ++ .error e :: rest → ⟨.endTag name, p⟩ ∈ ts →
      parse source = .error (.malformed ⟨.unmatchedClosingTag name, p⟩) → Verdict source

theorem verdict (source : String) : Verdict source := by
  obtain ⟨ts, b, s, ls, p, h, hls, hstop⟩ := exists_progress source
  cases hstop with
  | finished hfin =>
    rw [hfin] at hls
    have hall : lexemes source = (ts ++ [⟨.endOfInput, p⟩] : List Token).map .ok := by
      rw [hls, List.map_append]
      rfl
    cases hnames : s.names with
    | nil => exact .complete _ _ hall (by rw [h.run _ hls, h.shows.run_end hnames])
    | cons name names =>
      exact .unbalanced _ _ hall (by rw [h.run _ hls, h.shows.run_unclosed hnames])
  | lexical e rest hfin =>
    rw [hfin, List.append_assoc, List.cons_append] at hls
    exact .lexical ts e _ hls (by rw [h.run _ hls]; rfl)
  | unmatched name p' rest hname hfin =>
    rw [hfin, List.append_assoc, List.cons_append] at hls
    have hparse : parse source = .error (.malformed ⟨.unmatchedClosingTag name, p'⟩) := by
      rw [h.run _ hls, h.shows.run_unmatched hname]
    rcases Lexeme.exists_split (lexemes source) with ⟨us, hus⟩ | ⟨us, e, rest', hus⟩
    · exact .unbalanced us _ hus hparse
    · exact .overtaken us e rest' name p' hus (Lexeme.mem_of_append_eq (hls.symm.trans hus)) hparse

theorem ok_or_malformed (source : String) :
    (∃ d, parse source = .ok d) ∨ ∃ e, parse source = .error (.malformed e) := by
  cases verdict source with
  | complete ts d _ hparse => exact .inl ⟨d, hparse⟩
  | unbalanced ts e _ hparse => exact .inr ⟨e, hparse⟩
  | lexical ts e rest _ hparse => exact .inr ⟨e, hparse⟩
  | overtaken ts e rest name p _ _ hparse => exact .inr ⟨_, hparse⟩

end Document

section Printing

variable {ω : Type} [Window ω] [Tracking ω] {p : Playback (Feed ω)} {s : Reading}

open Cli (Outcome printTokens)

theorem Playback.Follows.printTokens {fuel : Nat} (h : p.Follows s) (herrors : p.errors = [])
    (hfuel : s.lexemes.length ≤ fuel) (printed : String) :
    ∃ q, Cli.printTokens Feed.next fuel printed p =
        .ok (.ofListing printed (Listing.ofLexemes s.lexemes), q) ∧
      q.errors = (Listing.ofLexemes s.lexemes).2.toList := by
  induction fuel generalizing p s printed with
  | zero =>
    obtain ⟨ls, e, hls, -⟩ := s.exists_lexemes_eq
    rw [hls, List.length_append] at hfuel
    cases hfuel
  | succ fuel ih =>
    obtain ⟨q, hq, hfollows, -, herrors'⟩ := h.next
    rw [herrors, List.nil_append] at herrors'
    rw [Cli.printTokens, hq]
    by_cases hend : s.next.1.isEnd = true
    · rw [Reading.lexemes_of_isEnd hend]
      obtain ⟨e, he⟩ := Lexeme.isEnd_iff.1 hend
      rw [he] at herrors' ⊢
      refine ⟨q, ?_, herrors'⟩
      rw [Listing.ofLexemes, Listing.ofLexemes, Outcome.ofListing_cons, Outcome.ofListing_none]
      rfl
    · rw [Reading.lexemes_of_not_isEnd hend]
      rw [Reading.lexemes_of_not_isEnd hend, List.length_cons] at hfuel
      cases hl : s.next.1 with
      | error e =>
        rw [hl] at herrors'
        refine ⟨q, ?_, herrors'⟩
        change Except.ok (Outcome.failed (SyntaxError.summary q.errors) printed, q) = _
        rw [Listing.ofLexemes, Outcome.ofListing_some, herrors']
        rfl
      | ok t =>
        rw [hl] at herrors' hend
        have hkind : t.kind ≠ .endOfInput := fun hkind => hend ((Lexeme.isEnd_ok t).2 hkind)
        obtain ⟨r, hr, hrecorded⟩ :=
          ih hfollows herrors' (Nat.le_of_succ_le_succ hfuel) (printed ++ Listing.line t)
        refine ⟨r, ?_, hrecorded⟩
        rw [Listing.ofLexemes, Outcome.ofListing_cons]
        exact (if_neg hkind).trans hr

end Printing

namespace Cli

open Document (Builder)

def tokenLine (t : Token) : String :=
  toString (t.position.line + 1) ++ ":" ++ toString t.position.column ++ "\t" ++
    Listing.tokenKind Text.Quoted.isPlain t.kind ++ "\n"

theorem line_eq_tokenLine : Listing.line = tokenLine := by
  funext t
  rfl

def approved (path? : Option String) : Outcome :=
  { stderr := "OK: " ++ displayName path? ++ "\n" }

structure Agree {source : String} (s : Supply source) : Prop where
  check_iff : (s.outcome .check).code = 0 ↔ (s.outcome .parse).code = 0
  parse_iff : (s.outcome .parse).code = 0 ↔ ∃ d, Document.parse source = .ok d
  rejected : (s.outcome .parse).code ≠ 0 → ∃ e,
    Document.parse source = .error (.malformed e) ∧ '\n' ∉ (errorLine e).toList ∧
      s.outcome .parse = ⟨1, "", errorLine e ++ "\n"⟩ ∧
      s.outcome .check = ⟨1, "", errorLine e ++ "\n"⟩
  tokens_iff : (s.outcome .tokens).code = 0 ↔ syntaxErrors source = []
  /-- Listing fails with the first error, behind the tokens before it, which can be read off what is
  printed.  The others then fail too, and with the same error unless there is a closing tag before
  it that does not match. -/
  stopped : (s.outcome .tokens).code ≠ 0 → ∃ (ts : List Token) (e : SyntaxError)
      (rest : List Lexeme), lexemes source = ts.map .ok ++ .error e :: rest ∧
    '\n' ∉ (errorLine e).toList ∧
    s.outcome .tokens = ⟨1, String.join (ts.map tokenLine), errorLine e ++ "\n"⟩ ∧
    (∀ us, Listing.printed Text.Quoted.isPlain us = (s.outcome .tokens).stdout → us = ts) ∧
    (s.outcome .parse).code = 1 ∧ (s.outcome .check).code = 1 ∧
    ((s.outcome .parse).stderr = (s.outcome .tokens).stderr ∨
      ∃ name p, ⟨.endTag name, p⟩ ∈ ts ∧
        Document.parse source = .error (.malformed ⟨.unmatchedClosingTag name, p⟩))
  scanned : ∃ p q,
    printTokens Feed.next ((Text.normalize source.toList).length + 1) ""
        { source := Feed.ofString lookahead source } = .ok (s.outcome .tokens, p) ∧
      p.errors = (syntaxErrors source).take 1 ∧
    Builder.scan Feed.next ((Text.normalize source.toList).length + 1) {}
        { source := Feed.ofString lookahead source } = .ok (Document.parse source, q)
  independent : ∀ s' : Supply source,
    s'.outcome .tokens = s.outcome .tokens ∧ s'.outcome .parse = s.outcome .parse ∧
      (s'.outcome .check = s.outcome .check ∨
        s.outcome .check = approved s.path? ∧ s'.outcome .check = approved s'.path?)
  /-- Nor does a log, which is written before all else that goes to the same place. -/
  logged : ∀ k : Call source,
    k.outcome .tokens = (s.outcome .tokens).behind (k.logged .tokens) ∧
      k.outcome .parse = (s.outcome .parse).behind (k.logged .parse) ∧
      (k.outcome .check = (s.outcome .check).behind (k.logged .check) ∨
        s.outcome .check = approved s.path? ∧
          k.outcome .check = (approved k.path?).behind (k.logged .check))

section Supplies

variable {source : String} {ts : List Token} {e : SyntaxError} (s : Supply source)

theorem Supply.tokens_stopped {rest : List Lexeme}
    (h : lexemes source = ts.map .ok ++ .error e :: rest) :
    '\n' ∉ (errorLine e).toList ∧
      s.outcome .tokens = ⟨1, String.join (ts.map tokenLine), errorLine e ++ "\n"⟩ ∧
      ∀ us, Listing.printed Text.Quoted.isPlain us = (s.outcome .tokens).stdout → us = ts := by
  have htokens := s.tokens_of_error h
  refine ⟨lineFeed_notMem_of_lexemes h, ?_, ?_⟩
  · rw [htokens, line_eq_tokenLine]
  · intro us hus
    rw [htokens] at hus
    exact Listing.printed_injective _ hus

theorem Supply.outcome_call (k : Call source) :
    k.outcome .tokens = (s.outcome .tokens).behind (k.logged .tokens) ∧
      k.outcome .parse = (s.outcome .parse).behind (k.logged .parse) ∧
      (k.outcome .check = (s.outcome .check).behind (k.logged .check) ∨
        s.outcome .check = approved s.path? ∧
          k.outcome .check = (approved k.path?).behind (k.logged .check)) := by
  simp only [k.outcome_eq, s.outcome_eq]
  refine ⟨rfl, rfl, ?_⟩
  rcases Document.ok_or_malformed source with ⟨d, h⟩ | ⟨e, h⟩
  · simp only [Command.run, checkDocument, h]
    exact .inr ⟨rfl, rfl⟩
  · simp only [Command.run, checkDocument, h]
    exact .inl trivial

end Supplies

end Cli

end Template
