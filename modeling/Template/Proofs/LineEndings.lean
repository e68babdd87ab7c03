import Template.Cli.Program
import Template.Proofs.Safety

/-! Texts that differ in how their line breaks are written.  Two playbacks, each over a window of
its own, that stand at one place of the text with its line breaks read as line feeds yield the
same, and stand at one place again.  So nothing that is done with the one text tells it from the
other. -/

namespace Template

namespace Playback

inductive Call
  | scan
  | stepBack

def session {σ : Type} (step : σ → Except Violation (Lexeme × σ)) :
    List Call → Playback σ → Except Violation (List Lexeme × Playback σ)
  | [], p => .ok ([], p)
  | .scan :: calls, p => do
    let (l, p) ← p.next step
    let (ls, p) ← session step calls p
    return (l :: ls, p)
  | .stepBack :: calls, p => do session step calls (← p.stepBack)

variable {ω ω' : Type} [Window ω] [Tracking ω] [Window ω'] [Tracking ω']

/-- Both stand at one place of one text, and hold the same lexeme and the same errors. -/
structure InStep (p : Playback (Feed ω)) (p' : Playback (Feed ω')) : Prop where
  source : ∃ s, p.source.Matches s ∧ p'.source.Matches s
  last : p.last? = p'.last?
  replaying : p.replaying = p'.replaying
  errors : p.errors = p'.errors

variable {p : Playback (Feed ω)} {p' : Playback (Feed ω')} {α β : Type}

inductive SameOutcome : Except Violation (α × Playback (Feed ω)) →
    Except Violation (α × Playback (Feed ω')) → Prop
  | ok {a : α} {p : Playback (Feed ω)} {p' : Playback (Feed ω')} :
    InStep p p' → SameOutcome (.ok (a, p)) (.ok (a, p'))
  | refused {v : Violation} : SameOutcome (.error v) (.error v)

namespace SameOutcome

variable {x : Except Violation (α × Playback (Feed ω))}
  {x' : Except Violation (α × Playback (Feed ω'))}

theorem of_eq {a a' : α} (ha : a = a') (h : InStep p p') :
    SameOutcome (.ok (a, p)) (.ok (a', p')) := by
  rw [ha]
  exact .ok h

theorem ite {y : Except Violation (α × Playback (Feed ω))}
    {y' : Except Violation (α × Playback (Feed ω'))} {c : Prop} [Decidable c]
    (hx : SameOutcome x x') (hy : SameOutcome y y') :
    SameOutcome (if c then x else y) (if c then x' else y') := by
  split
  · exact hx
  · exact hy

theorem bind {f : α × Playback (Feed ω) → Except Violation (β × Playback (Feed ω))}
    {f' : α × Playback (Feed ω') → Except Violation (β × Playback (Feed ω'))}
    (h : SameOutcome x x')
    (hf : ∀ a {p p'}, InStep p p' → SameOutcome (f (a, p)) (f' (a, p'))) :
    SameOutcome (x >>= f) (x' >>= f') := by
  cases h with
  | ok hstep => exact hf _ hstep
  | refused => exact .refused

theorem map_eq (h : SameOutcome x x') :
    x.map (fun r => (r.1, r.2.errors)) = x'.map fun r => (r.1, r.2.errors) := by
  cases h with
  | ok hstep => rw [Except.map, Except.map, hstep.errors]
  | refused => rfl

theorem map_fst_eq (h : SameOutcome x x') : x.map Prod.fst = x'.map Prod.fst := by
  cases h with
  | ok hstep => rfl
  | refused => rfl

end SameOutcome

namespace InStep

theorem firstError_eq (h : InStep p p') (position : Position) :
    p.firstError position = p'.firstError position := by
  rw [firstError, firstError, h.errors]

theorem next (h : InStep p p') : SameOutcome (p.next Feed.next) (p'.next Feed.next) := by
  obtain ⟨f, last?, replaying, errors⟩ := p
  obtain ⟨f', last?', replaying', errors'⟩ := p'
  obtain ⟨⟨s, hf, hf'⟩, hlast, hreplaying, herrors⟩ := h
  cases hlast
  cases hreplaying
  cases herrors
  by_cases hheld : replaying = true ∧ last?.isSome = true
  · obtain ⟨rfl, hsome⟩ := hheld
    obtain ⟨l, rfl⟩ := Option.isSome_iff_exists.1 hsome
    exact .ok ⟨⟨s, hf, hf'⟩, rfl, rfl, rfl⟩
  · obtain ⟨g, hg, hmatches⟩ := hf.next
    obtain ⟨g', hg', hmatches'⟩ := hf'.next
    have hread : SameOutcome
        (Feed.next f >>= fun x =>
          pure (x.1, ⟨x.2, some x.1, false, errors ++ x.1.error?.toList⟩))
        (Feed.next f' >>= fun x =>
          pure (x.1, ⟨x.2, some x.1, false, errors ++ x.1.error?.toList⟩)) := by
      rw [hg, hg']
      exact .ok ⟨⟨_, hmatches, hmatches'⟩, rfl, rfl, rfl⟩
    cases replaying with
    | false => exact hread
    | true =>
      cases last? with
      | none =>
        -- nothing is there to replay, so the next lexeme is read
        exact hread
      | some l => exact absurd ⟨rfl, rfl⟩ hheld

theorem stepBack (h : InStep p p') :
    (∃ q q', p.stepBack = .ok q ∧ p'.stepBack = .ok q' ∧ InStep q q') ∨
      ∃ v, p.stepBack = .error v ∧ p'.stepBack = .error v := by
  rw [Playback.stepBack, Playback.stepBack, h.replaying]
  have hnone : p.last?.isNone = p'.last?.isNone := congrArg Option.isNone h.last
  rw [hnone]
  split
  · exact .inr ⟨_, rfl, rfl⟩
  · split
    · exact .inr ⟨_, rfl, rfl⟩
    · exact .inl ⟨_, _, rfl, rfl, h.source, h.last, rfl, h.errors⟩

theorem session (h : InStep p p') (calls : List Call) :
    SameOutcome (p.session Feed.next calls) (p'.session Feed.next calls) := by
  induction calls generalizing p p' with
  | nil => exact .ok h
  | cons c calls ih =>
    cases c with
    | scan =>
      apply h.next.bind
      intro l p p' h
      apply (ih h).bind
      intro ls p p' h
      exact .ok h
    | stepBack =>
      rw [Playback.session, Playback.session]
      obtain ⟨q, q', hq, hq', h⟩ | ⟨v, hp, hp'⟩ := h.stepBack
      · rw [hq, hq']
        exact ih h
      · rw [hp, hp']
        exact .refused

theorem tokens (h : InStep p p') (fuel : Nat) :
    SameOutcome (p.tokens Feed.next fuel) (p'.tokens Feed.next fuel) := by
  induction fuel generalizing p p' with
  | zero => exact .refused
  | succ fuel ih =>
    apply h.next.bind
    intro l p p' h
    cases l with
    | error e => exact .of_eq (congrArg Except.error (h.firstError_eq e.position)) h
    | ok t =>
      refine .ite (.ok h) ?_
      apply (ih h).bind
      intro ts p p' h
      exact .ok h

end InStep

theorem Follows.scans_errors {s : Reading} (h : p.Follows s) (k : Nat) :
    ∃ ls q, p.scans Feed.next k = .ok (ls, q) ∧
      q.errors = p.errors ++ ls.filterMap Lexeme.error? := by
  induction k generalizing p s with
  | zero => exact ⟨[], p, rfl, (List.append_nil _).symm⟩
  | succ k ih =>
    obtain ⟨r, hr, hfollows, -, herrors⟩ := h.next
    obtain ⟨ls, q, hq, herrors'⟩ := ih hfollows
    refine ⟨s.next.1 :: ls, q, ?_, ?_⟩
    · rw [scans_succ hr, hq]
      rfl
    · rw [herrors', herrors, List.append_assoc]
      cases s.next.1 <;> rfl

end Playback

open Playback (InStep SameOutcome)

namespace Document.Builder

variable {ω ω' : Type} [Window ω] [Tracking ω] [Window ω'] [Tracking ω']
  {p : Playback (Feed ω)} {p' : Playback (Feed ω')}

theorem scan_inStep (h : InStep p p') (b : Builder) (fuel : Nat) :
    SameOutcome (b.scan Feed.next fuel p) (b.scan Feed.next fuel p') := by
  induction fuel generalizing b p p' with
  | zero => exact .refused
  | succ fuel ih =>
    apply h.next.bind
    intro l p p' h
    cases l with
    | error e =>
      have herror := congrArg Failure.malformed (h.firstError_eq e.position)
      exact .of_eq (congrArg Except.error herror) h
    | ok t =>
      refine .ite (.ok h) ?_
      cases b.take t with
      | ok b => exact ih h b
      | error f => exact .ok h

end Document.Builder

open Document (Builder)

namespace Playback

def ofString (source : String) : Playback (Feed (Lookahead lookahead)) :=
  { source := .ofString lookahead source }

theorem inStep_ofString {s s' : String} (h : Reading.ofString s = Reading.ofString s') :
    InStep (ofString s) (ofString s') where
  source := ⟨.ofString s, (follows_ofString s).source, h ▸ (follows_ofString s').source⟩
  last := rfl
  replaying := rfl
  errors := rfl

theorem scans_to_end (source : String) :
    ∃ p, (ofString source).scans Feed.next (lexemes source).length = .ok (lexemes source, p) ∧
      p.errors = syntaxErrors source := by
  obtain ⟨p, -, hscans, -⟩ := (follows_ofString source).scans_lexemes
  obtain ⟨ls, q, hq, herrors⟩ := (follows_ofString source).scans_errors (lexemes source).length
  obtain ⟨rfl, rfl⟩ := Prod.mk.inj (Except.ok.inj (hscans.symm.trans hq))
  exact ⟨p, hscans, herrors⟩

end Playback

/-- Nothing that is done with the one text tells it from the other. -/
structure Indistinct (s s' : String) : Prop where
  replies : ∀ calls, Lookahead.replies Lookahead.call (.ofString lookahead s) calls =
    Lookahead.replies Lookahead.call (.ofString lookahead s') calls
  sessions : ∀ calls,
    ((Playback.ofString s).session Feed.next calls).map (fun r => (r.1, r.2.errors)) =
      ((Playback.ofString s').session Feed.next calls).map fun r => (r.1, r.2.errors)
  scanned : ∃ p p',
    (Playback.ofString s).scans Feed.next (lexemes s).length = .ok (lexemes s, p) ∧
      (Playback.ofString s').scans Feed.next (lexemes s).length = .ok (lexemes s, p') ∧
      p.errors = syntaxErrors s ∧ p'.errors = syntaxErrors s
  tokenized : ∀ fuel, ((Playback.ofString s).tokens Feed.next fuel).map Prod.fst =
    ((Playback.ofString s').tokens Feed.next fuel).map Prod.fst
  built : ∀ fuel, (Builder.scan Feed.next fuel {} (.ofString s)).map Prod.fst =
    (Builder.scan Feed.next fuel {} (.ofString s')).map Prod.fst
  completed : ∀ fuel, (lexemes s).length ≤ fuel →
    ((Playback.ofString s).tokens Feed.next fuel).map Prod.fst = .ok (tokens s) ∧
      (Builder.scan Feed.next fuel {} (.ofString s)).map Prod.fst = .ok (Document.parse s)
  tokens : tokens s = tokens s'
  parsed : Document.parse s = Document.parse s'
  rendered : (Document.parse s).map Document.render = (Document.parse s').map Document.render
  outcome : ∀ (command : Cli.Command) path?, command.run path? s = command.run path? s'

section Indistinct

variable {s s' : String}

theorem Reading.ofString_congr (h : Text.normalize s.toList = Text.normalize s'.toList) :
    Reading.ofString s = Reading.ofString s' := by
  rw [ofString, h, ofString]

theorem lexemes_congr (h : Text.normalize s.toList = Text.normalize s'.toList) :
    lexemes s = lexemes s' :=
  congrArg Reading.lexemes (Reading.ofString_congr h)

theorem Document.parse_congr (h : Text.normalize s.toList = Text.normalize s'.toList) :
    parse s = parse s' :=
  congrArg ofLexemes (lexemes_congr h)

theorem indistinct (h : Text.normalize s.toList = Text.normalize s'.toList) :
    Indistinct s s' where
  replies := by
    intro calls
    rw [(Lookahead.Follows.ofString s).replies calls, h,
      ← (Lookahead.Follows.ofString s').replies calls]
  sessions := by
    intro calls
    exact ((Playback.inStep_ofString (Reading.ofString_congr h)).session calls).map_eq
  scanned := by
    obtain ⟨p, hp, herrors⟩ := Playback.scans_to_end s
    obtain ⟨p', hp', herrors'⟩ := Playback.scans_to_end s'
    rw [syntaxErrors, ← lexemes_congr h, ← syntaxErrors] at herrors'
    rw [← lexemes_congr h] at hp'
    exact ⟨p, p', hp, hp', herrors, herrors'⟩
  tokenized := by
    intro fuel
    exact ((Playback.inStep_ofString (Reading.ofString_congr h)).tokens fuel).map_fst_eq
  built := by
    intro fuel
    have hstep := Playback.inStep_ofString (Reading.ofString_congr h)
    exact (Builder.scan_inStep hstep {} fuel).map_fst_eq
  completed := by
    intro fuel hfuel
    have hfollows := Playback.follows_ofString s
    obtain ⟨p, -, hp, -⟩ := hfollows.tokens rfl hfuel
    obtain ⟨q, -, hq, -⟩ := Builder.scan_eq {} hfollows rfl hfuel
    exact ⟨congrArg _ hp, congrArg _ hq⟩
  tokens := congrArg (List.mapM id) (lexemes_congr h)
  parsed := Document.parse_congr h
  rendered := by rw [Document.parse_congr h]
  outcome := by
    intro command path?
    cases command with
    | tokens => simp only [Cli.Command.run, Cli.listTokens, lexemes_congr h]
    | parse => simp only [Cli.Command.run, Cli.renderDocument, Document.parse_congr h]
    | check => simp only [Cli.Command.run, Cli.checkDocument, Document.parse_congr h]

theorem indistinct_returns :
    Text.normalize "<style>a\r\r\nb</style><p\x0c/\r".toList =
        Text.normalize "<style>a\n\nb</style><p\n/\n".toList ∧
      Indistinct "<style>a\r\r\nb</style><p\x0c/\r" "<style>a\n\nb</style><p\n/\n" := by
  have h : Text.normalize "<style>a\r\r\nb</style><p\x0c/\r".toList =
    Text.normalize "<style>a\n\nb</style><p\n/\n".toList := by decide +kernel
  exact ⟨h, indistinct h⟩

end Indistinct

end Template
