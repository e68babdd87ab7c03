import Template.Proofs.Ahead
import Template.Proofs.Concatenation
import Template.Proofs.LineEndings

namespace Template

namespace Lexeme

def isError (l : Lexeme) : Bool := l.error?.isSome

theorem map_position_error? (ls : List Lexeme) :
    (ls.filter isError).map position = (ls.filterMap error?).map SyntaxError.position := by
  induction ls with
  | nil => rfl
  | cons l ls ih =>
    cases l with
    | ok t => exact ih
    | error e => exact congrArg (e.position :: ·) ih

theorem error?_move (base : Position) (l : Lexeme) :
    (l.move base).error? = l.error?.map (SyntaxError.move base) := by
  cases l <;> rfl

theorem filterMap_error?_move (base : Position) (ls : List Lexeme) :
    (ls.map (Lexeme.move base)).filterMap error? =
      (ls.filterMap error?).map (SyntaxError.move base) := by
  rw [List.filterMap_map, List.map_filterMap]
  exact congrArg (List.filterMap · ls) (funext (error?_move base))

end Lexeme

theorem mapM_eq_ok_iff {ls : List Lexeme} {ts : List Token} :
    ls.mapM id = .ok ts ↔ ls = ts.map .ok := by
  constructor
  · exact eq_map_of_mapM
  · rintro rfl
    exact mapM_ok ts

theorem mapM_eq_error_iff {ls : List Lexeme} {e : SyntaxError} :
    ls.mapM id = .error e ↔ (ls.filterMap Lexeme.error?).head? = some e := by
  induction ls with
  | nil =>
    constructor
    · intro h
      cases h
    · intro h
      cases h
  | cons l ls ih =>
    rw [List.mapM_cons]
    cases l with
    | error e' =>
      change Except.error e' = .error e ↔ some e' = some e
      rw [Except.error.injEq, Option.some.injEq]
    | ok t =>
      rw [List.filterMap_cons_none (f := Lexeme.error?) rfl, ← ih]
      cases hls : ls.mapM id with
      | error e' => exact Iff.rfl
      | ok ts =>
        constructor
        · intro h
          cases h
        · intro h
          cases h

theorem tokens_eq_ok_iff {source : String} {ts : List Token} :
    tokens source = .ok ts ↔ syntaxErrors source = [] ∧ lexemes source = ts.map .ok := by
  rw [tokens, mapM_eq_ok_iff, syntaxErrors]
  constructor
  · intro hts
    refine ⟨?_, hts⟩
    rw [hts, filterMap_error?_map]
  · exact And.right

theorem tokens_eq_error_iff {source : String} {e : SyntaxError} :
    tokens source = .error e ↔ (syntaxErrors source).head? = some e :=
  mapM_eq_error_iff

namespace Reading

theorem mode_of_next_error {s u : Reading} {e : SyntaxError} (h : s.next = (.error e, u)) :
    u.mode = .markup := by
  rw [next] at h
  split at h
  · cases h
  · cases h
    rfl

theorem place_ofString {done rest : List Char} (h : Text.Clean rest) :
    (ofString (.ofList rest)).place (.ofRead done) [] = ⟨.markup, ⟨.ofRead done, rest⟩⟩ := by
  rw [ofString, String.toList_ofList, Text.normalize_eq_self h.1 h.2]
  simp [place, Cursor.place]

end Reading

namespace Playback

section Scans

variable {ω : Type} [Window ω] [Tracking ω] {ω' : Type} [Window ω'] [Tracking ω']
  {p : Playback (Feed ω)} {s : Reading}

theorem StandsAt.follows {text done : List Char} (h : p.StandsAt text done s)
    (hfresh : p.replaying = false) : p.Follows s :=
  ⟨h.source, hfresh⟩

theorem StandsAt.scans {text done : List Char} (h : p.StandsAt text done s)
    (hfresh : p.replaying = false) (k : Nat) :
    ∃ ls q done' s', p.scans Feed.next k = .ok (ls, q) ∧ q.StandsAt text done' s' ∧
      q.replaying = false := by
  induction k generalizing p done s with
  | zero => exact ⟨[], p, done, s, rfl, h, hfresh⟩
  | succ k ih =>
    obtain ⟨q, done', hq, hstands, hfresh', -⟩ := h.next hfresh rfl
    obtain ⟨ls, r, done'', s'', hr, hrest⟩ := ih hstands hfresh'
    refine ⟨s.next.1 :: ls, r, done'', s'', ?_, hrest⟩
    rw [scans_succ hq, hr]
    rfl

theorem Follows.errors_of_scans {k : Nat} {ls : List Lexeme} {q : Playback (Feed ω)}
    (h : p.Follows s) (hq : p.scans Feed.next k = .ok (ls, q)) :
    q.errors = p.errors ++ ls.filterMap Lexeme.error? := by
  obtain ⟨ls', q', hq', herrors⟩ := h.scans_errors k
  obtain ⟨rfl, rfl⟩ := Prod.mk.inj (Except.ok.inj (hq.symm.trans hq'))
  exact herrors

theorem Follows.scans_place {p' : Playback (Feed ω')} {base : Position} (h : p.Follows s)
    (h' : p'.Follows (s.place base [])) (k : Nat) :
    ∃ ls q q', p.scans Feed.next k = .ok (ls, q) ∧
      p'.scans Feed.next k = .ok (ls.map (Lexeme.move base), q') := by
  induction k generalizing p p' s with
  | zero => exact ⟨[], p, p', rfl, rfl⟩
  | succ k ih =>
    obtain ⟨q, hq, hfollows, -⟩ := h.next
    obtain ⟨q', hq', hfollows', -⟩ := h'.next
    rw [Reading.next_place_nil] at hq' hfollows'
    obtain ⟨ls, r, r', hr, hr'⟩ := ih hfollows hfollows'
    refine ⟨s.next.1 :: ls, r, r', ?_, ?_⟩
    · rw [scans_succ hq, hr]
      rfl
    · rw [scans_succ hq', hr']
      rfl

end Scans

/-- Nothing is kept of what was read but where it ends: the text that is left is scanned as one of
its own, with its positions moved behind `done`. -/
structure RestartsBehind (done : List Char) (p : Playback (Feed (Lookahead lookahead))) : Prop where
  mode : p.source.mode = .text
  held : p.source.held = none
  replaying : p.replaying = false
  alone : ∀ k, ∃ ls q q', p.scans Feed.next k = .ok (ls.map (Lexeme.move (.ofRead done)), q) ∧
    (ofString (.ofList p.source.ahead)).scans Feed.next k = .ok (ls, q') ∧
      q.errors = p.errors ++ q'.errors.map (SyntaxError.move (.ofRead done))

structure Recovers (source : String) : Prop where
  recorded : ∀ k, ∃ ls p, (ofString source).scans Feed.next k = .ok (ls, p) ∧
    p.errors = ls.filterMap Lexeme.error? ∧
      p.errors.map SyntaxError.position = (ls.filter Lexeme.isError).map Lexeme.position
  kept : ∀ {k ls p l q}, (ofString source).scans Feed.next k = .ok (ls, p) →
    p.next Feed.next = .ok (l, q) → q.errors = p.errors ++ l.error?.toList
  tokenized : ∃ ls e p, (ofString source).scans Feed.next (ls.length + 1) =
      .ok (ls ++ [.ok ⟨.endOfInput, e⟩], p) ∧
    (∀ l ∈ ls, l.isEnd = false) ∧ ls.length ≤ (Text.normalize source.toList).length ∧
      ∀ fuel > ls.length, ∃ o q, (ofString source).tokens Feed.next fuel = .ok (o, q) ∧
        (∀ ts, o = .ok ts ↔ p.errors = [] ∧ ls ++ [.ok ⟨.endOfInput, e⟩] = ts.map .ok) ∧
          ∀ e, o = .error e ↔ p.errors.head? = some e
  restarted : ∀ {k ls p e q}, (ofString source).scans Feed.next k = .ok (ls, p) →
    p.next Feed.next = .ok (.error e, q) →
      ∃ done, Text.normalize source.toList = done ++ q.source.ahead ∧ q.RestartsBehind done

section Recovers

variable {source : String} {done : List Char} {p q : Playback (Feed (Lookahead lookahead))}
  {s : Reading} {e : SyntaxError}

theorem StandsAt.restarts (h : p.StandsAt (Text.normalize source.toList) done s)
    (hfresh : p.replaying = false) (hq : p.next Feed.next = .ok (.error e, q)) :
    ∃ done', Text.normalize source.toList = done' ++ q.source.ahead ∧
      q.RestartsBehind done' := by
  obtain ⟨l, s', hnext⟩ : ∃ l s', s.next = (l, s') := ⟨_, _, rfl⟩
  obtain ⟨q', done', hq', hstands, hfresh', -, -, hgoesOn⟩ := h.next hfresh hnext
  obtain ⟨rfl, rfl⟩ := Prod.mk.inj (Except.ok.inj (hq'.symm.trans hq))
  obtain ⟨hmode, hheld⟩ := hgoesOn
  refine ⟨done', hstands.text_eq, hmode, hheld, hfresh', ?_⟩
  intro k
  have hclean : Text.Clean q'.source.ahead := by
    apply (Text.clean_normalize source.toList).of_subset
    rw [hstands.text_eq]
    exact List.subset_append_right done' _
  have hplace : s' = (Reading.ofString (.ofList q'.source.ahead)).place (.ofRead done') [] := by
    rw [Reading.place_ofString hclean, ← hstands.cursor_eq, ← Reading.mode_of_next_error hnext]
  have hfollows := hstands.follows hfresh'
  rw [hplace] at hfollows
  have hstart := follows_ofString (.ofList q'.source.ahead)
  obtain ⟨ls, r', r, hr', hr⟩ := hstart.scans_place hfollows k
  refine ⟨ls, r, r', hr, hr', ?_⟩
  rw [hfollows.errors_of_scans hr, hstart.errors_of_scans hr', Lexeme.filterMap_error?_move]
  rfl

theorem exists_tokens_eq {fuel : Nat} (hfuel : (lexemes source).length ≤ fuel) :
    ∃ q, (ofString source).tokens Feed.next fuel = .ok (Template.tokens source, q) := by
  obtain ⟨q, -, hq, -⟩ := (follows_ofString source).tokens rfl hfuel
  exact ⟨q, hq⟩

/-- No error gets lost and none leaves a trace, whatever the source. -/
theorem recovers (source : String) : Recovers source where
  recorded := by
    intro k
    obtain ⟨ls, p, hp, herrors⟩ := (follows_ofString source).scans_errors k
    rw [List.nil_append] at herrors
    refine ⟨ls, p, hp, herrors, ?_⟩
    rw [herrors, Lexeme.map_position_error?]
  kept := by
    intro k ls p l q hp hq
    obtain ⟨ls', p', s, hp', hfollows⟩ := (follows_ofString source).scans k
    obtain ⟨-, rfl⟩ := Prod.mk.inj (Except.ok.inj (hp.symm.trans hp'))
    obtain ⟨q', hq', -, -, herrors⟩ := hfollows.next
    obtain ⟨rfl, rfl⟩ := Prod.mk.inj (Except.ok.inj (hq.symm.trans hq'))
    exact herrors
  tokenized := by
    obtain ⟨ls, e, hls, hnotEnd⟩ : ∃ ls e, lexemes source = _ ∧ _ :=
      (Reading.ofString source).exists_lexemes_eq
    obtain ⟨p, hp, herrors⟩ := scans_to_end source
    have hlength : (lexemes source).length ≤ _ := (Reading.ofString source).length_lexemes_le
    rw [hls, List.length_append] at hp hlength
    refine ⟨ls, e, p, hp, hnotEnd, Nat.le_of_succ_le_succ hlength, ?_⟩
    intro fuel hfuel
    have henough : (lexemes source).length ≤ fuel := by
      rw [hls, List.length_append]
      exact hfuel
    obtain ⟨q, hq⟩ := exists_tokens_eq henough
    rw [← hls, herrors]
    exact ⟨_, q, hq, fun _ => tokens_eq_ok_iff, fun _ => tokens_eq_error_iff⟩
  restarted := by
    intro k ls p e q hp hq
    obtain ⟨ls', p', done, s, hp', hstands, hfresh⟩ := (standsAt_ofString source).scans rfl k
    obtain ⟨-, rfl⟩ := Prod.mk.inj (Except.ok.inj (hp.symm.trans hp'))
    exact hstands.restarts hfresh hq

example :
    ((ofString "<b a=\"\x7b\x7b\x7d\x7d\">c</b>").scans Feed.next 3).map Prod.fst =
      .ok [.error ⟨.emptyMustache, ⟨0, 10⟩⟩, .ok ⟨.text "\">c", ⟨0, 11⟩⟩,
        .ok ⟨.endTag "b", ⟨0, 14⟩⟩] := by
  decide +kernel

end Recovers

end Playback

end Template
