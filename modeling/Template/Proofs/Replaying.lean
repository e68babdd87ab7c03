import Template.Proofs.LineEndings

namespace Template.Playback

inductive Reply
  | lexeme (l : Lexeme)
  | steppedBack
  | refused (v : Violation)
  deriving DecidableEq

namespace Reply

def lexeme? : Reply → Option Lexeme
  | .lexeme l => some l
  | .steppedBack => none
  | .refused _ => none

def isStepBack : Reply → Bool
  | .lexeme _ => false
  | .steppedBack => true
  | .refused _ => false

def isAccepted : Reply → Bool
  | .lexeme _ => true
  | .steppedBack => true
  | .refused _ => false

def latest? (rs : List Reply) : Option Lexeme := (rs.filterMap lexeme?).getLast?

def EndInStepBack (rs : List Reply) : Prop := (rs.filter isAccepted).getLast? = some .steppedBack

/-- The lexemes that are left without the steps back and the scans that replay one; `replaying`
tells whether the first scan does. -/
def unreplayed (replaying : Bool) : List Reply → List Lexeme
  | [] => []
  | .lexeme l :: rs => if replaying then unreplayed false rs else l :: unreplayed false rs
  | .steppedBack :: rs => unreplayed true rs
  | .refused _ :: rs => unreplayed replaying rs

theorem latest?_cons (r : Reply) (rs : List Reply) :
    latest? (r :: rs) = (latest? rs).or r.lexeme? := by
  cases r with
  | lexeme l =>
    rw [latest?, List.filterMap_cons_some (f := lexeme?) (b := l) rfl, List.getLast?_cons, latest?,
      lexeme?]
    cases (rs.filterMap lexeme?).getLast? <;> rfl
  | steppedBack => exact (Option.or_none).symm
  | refused v => exact (Option.or_none).symm

theorem eq_steppedBack_iff {r : Reply} : r = .steppedBack ↔ r.isStepBack = true := by
  cases r <;> simp [isStepBack]

theorem getLast?_isAccepted_cons (r : Reply) (rs : List Reply) (b : Bool) :
    ((r :: rs).filter isAccepted).getLast?.elim b isStepBack =
      (rs.filter isAccepted).getLast?.elim (if r.isAccepted then r.isStepBack else b)
        isStepBack := by
  by_cases h : r.isAccepted = true
  · rw [List.filter_cons_of_pos h, List.getLast?_cons, if_pos h]
    cases (rs.filter isAccepted).getLast? <;> rfl
  · rw [List.filter_cons_of_neg h, if_neg h]

end Reply

section Run

variable {σ : Type} (step : σ → Except Violation (Lexeme × σ))

def call (p : Playback σ) : Call → Reply × Playback σ
  | .scan =>
    match p.next step with
    | .ok (l, q) => (.lexeme l, q)
    | .error v => (.refused v, p)
  | .stepBack =>
    match p.stepBack with
    | .ok q => (.steppedBack, q)
    | .error v => (.refused v, p)

def run : Playback σ → List Call → List Reply × Playback σ
  | p, [] => ([], p)
  | p, c :: calls =>
    let (r, q) := p.call step c
    let (rs, q) := run q calls
    (r :: rs, q)

variable {step} {p : Playback σ} {c : Call} {v : Violation}

theorem call_of_refused (h : (p.call step c).1 = .refused v) : (p.call step c).2 = p := by
  cases c with
  | scan =>
    rw [call] at h ⊢
    split at h
    · cases h
    · rfl
  | stepBack =>
    rw [call] at h ⊢
    split at h
    · cases h
    · rfl

theorem call_stepBack (step : σ → Except Violation (Lexeme × σ)) (p : Playback σ) :
    p.call step .stepBack =
      if p.last? = none then (.refused .replayAtStart, p)
      else if p.replaying = true then (.refused .replayTwice, p)
      else (.steppedBack, { p with replaying := true }) := by
  obtain ⟨source, last?, replaying, errors⟩ := p
  cases last? <;> cases replaying <;> rfl

end Run

section Leads

variable {σ : Type} {step : σ → Except Violation (Lexeme × σ)} {p q p' : Playback σ} {c : Call}
  {r : Reply} {rs : List Reply}

def resumed (p : Playback σ) : Playback σ := { p with replaying := false }

theorem resumed_eq_self (h : p.replaying = false) : p.resumed = p := by
  obtain ⟨source, last?, replaying, errors⟩ := p
  cases h
  rfl

def Sound (p : Playback σ) : Prop := p.replaying = true → p.last?.isSome = true

structure Leads (step : σ → Except Violation (Lexeme × σ)) (p : Playback σ) (rs : List Reply)
    (q : Playback σ) : Prop where
  sound : q.Sound
  last : q.last? = (Reply.latest? rs).or p.last?
  replaying : q.replaying = (rs.filter Reply.isAccepted).getLast?.elim p.replaying Reply.isStepBack
  scans : p.resumed.scans step (Reply.unreplayed p.replaying rs).length =
    .ok (Reply.unreplayed p.replaying rs, q.resumed)

theorem Leads.nil (h : p.Sound) : Leads step p [] p := ⟨h, rfl, rfl, rfl⟩

theorem Leads.scan {l : Lexeme} (h : p.Sound) (hq : p.next step = .ok (l, q))
    (hrest : q.Sound → Leads step q rs p') : Leads step p (.lexeme l :: rs) p' := by
  cases hreplaying : p.replaying with
  | true =>
    obtain ⟨l', hlast⟩ := Option.isSome_iff_exists.1 (h hreplaying)
    rw [next_of_replaying step hreplaying hlast] at hq
    cases hq
    obtain ⟨hsound, hlast', hreplaying', hscans⟩ := hrest fun h => nomatch h
    refine ⟨hsound, ?_, ?_, ?_⟩
    · rw [hlast', hlast, Reply.latest?_cons, Option.or_assoc]
      rfl
    · rw [hreplaying', Reply.getLast?_isAccepted_cons]
      rfl
    · rw [hreplaying]
      exact hscans
  | false =>
    have hnext := hq
    rw [next_of_not_replaying step hreplaying] at hq
    cases hsource : step p.source with
    | error v =>
      rw [hsource] at hq
      cases hq
    | ok r =>
      rw [hsource] at hq
      cases hq
      obtain ⟨hsound, hlast', hreplaying', hscans⟩ := hrest fun h => nomatch h
      refine ⟨hsound, ?_, ?_, ?_⟩
      · rw [hlast', Reply.latest?_cons]
        cases Reply.latest? rs <;> rfl
      · rw [hreplaying', Reply.getLast?_isAccepted_cons]
        rfl
      · rw [resumed_eq_self hreplaying, hreplaying]
        change p.scans step ((Reply.unreplayed false rs).length + 1) = _
        rw [scans_succ hnext]
        exact congrArg (Except.map _) hscans

theorem Leads.stepBack (hq : p.stepBack = .ok q) (hrest : q.Sound → Leads step q rs p') :
    Leads step p (.steppedBack :: rs) p' := by
  rw [Playback.stepBack] at hq
  split at hq
  · cases hq
  · rename_i hlast
    split at hq
    · cases hq
    · cases hq
      obtain ⟨hsound, hlast', hreplaying', hscans⟩ :=
        hrest fun _ => by simpa [Option.isSome_iff_ne_none] using hlast
      refine ⟨hsound, ?_, ?_, hscans⟩
      · rw [hlast', Reply.latest?_cons, Reply.lexeme?, Option.or_none]
      · rw [hreplaying', Reply.getLast?_isAccepted_cons]
        rfl

theorem Leads.refused {v : Violation} (h : Leads step p rs p') :
    Leads step p (.refused v :: rs) p' := by
  refine ⟨h.sound, ?_, ?_, h.scans⟩
  · rw [h.last, Reply.latest?_cons, Reply.lexeme?, Option.or_none]
  · rw [h.replaying, Reply.getLast?_isAccepted_cons]
    rfl

theorem Leads.call (h : p.Sound) (hc : p.call step c = (r, q))
    (hrest : q.Sound → Leads step q rs p') : Leads step p (r :: rs) p' := by
  cases c with
  | scan =>
    rw [Playback.call] at hc
    split at hc
    · cases hc
      exact .scan h ‹_› hrest
    · cases hc
      exact (hrest h).refused
  | stepBack =>
    rw [Playback.call] at hc
    split at hc
    · cases hc
      exact .stepBack ‹_› hrest
    · cases hc
      exact (hrest h).refused

theorem leads_run (h : p.Sound) (calls : List Call) :
    Leads step p (p.run step calls).1 (p.run step calls).2 := by
  induction calls generalizing p with
  | nil => exact .nil h
  | cons c calls ih => exact .call h rfl ih

end Leads

/-- Where the calls lead, a step back is accepted or refused as the replies tell, and the run is one
of scans alone but for the lexemes that are replayed. -/
structure Replays (source : String) (rs : List Reply) (p : Playback (Feed (Lookahead lookahead))) :
    Prop where
  current : p.last? = Reply.latest? rs
  scanned : ∃ l, (p.call Feed.next .scan).1 = .lexeme l
  replayed : Reply.EndInStepBack rs → ∃ l, Reply.latest? rs = some l ∧
    p.call Feed.next .scan = (.lexeme l, { p with replaying := false })
  atStart : (p.call Feed.next .stepBack).1 = .refused .replayAtStart ↔ Reply.latest? rs = none
  twice : (p.call Feed.next .stepBack).1 = .refused .replayTwice ↔ Reply.EndInStepBack rs
  accepted : (p.call Feed.next .stepBack).1 = .steppedBack ↔
    Reply.latest? rs ≠ none ∧ ¬ Reply.EndInStepBack rs
  unchanged : ∀ c v, (p.call Feed.next c).1 = .refused v → (p.call Feed.next c).2 = p
  plain : ∃ q, (ofString source).scans Feed.next (Reply.unreplayed false rs).length =
      .ok (Reply.unreplayed false rs, q) ∧ q.source = p.source ∧ q.errors = p.errors

section Run

variable {source : String} {rs : List Reply} {p : Playback (Feed (Lookahead lookahead))}

theorem sound_ofString (source : String) : (ofString source).Sound := by
  intro h
  cases h

theorem Leads.replaying_iff (h : Leads Feed.next (ofString source) rs p) :
    p.replaying = true ↔ Reply.EndInStepBack rs := by
  rw [h.replaying, Reply.EndInStepBack]
  cases (rs.filter Reply.isAccepted).getLast? with
  | none =>
    constructor
    · intro h
      cases h
    · intro h
      cases h
  | some r => rw [Option.some.injEq, Reply.eq_steppedBack_iff, Option.elim_some]

theorem Leads.last_eq (h : Leads Feed.next (ofString source) rs p) :
    p.last? = Reply.latest? rs :=
  h.last.trans Option.or_none

theorem Leads.exists_matches (h : Leads Feed.next (ofString source) rs p) :
    ∃ s, p.source.Matches s := by
  have hscans : (ofString source).scans Feed.next _ = _ := h.scans
  obtain ⟨ls, q, s, hq, hfollows⟩ :=
    (follows_ofString source).scans (Reply.unreplayed false rs).length
  obtain ⟨-, rfl⟩ := Prod.mk.inj (Except.ok.inj (hscans.symm.trans hq))
  exact ⟨s, hfollows.source⟩

theorem Leads.replays (h : Leads Feed.next (ofString source) rs p) : Replays source rs p where
  current := h.last_eq
  scanned := by
    obtain ⟨s, hmatches⟩ := h.exists_matches
    obtain ⟨l, q, -, hq, -, -⟩ := next_of_matches hmatches h.sound
    exact ⟨l, by rw [Playback.call, hq]⟩
  replayed := by
    intro hend
    have hreplaying := h.replaying_iff.2 hend
    obtain ⟨l, hl⟩ := Option.isSome_iff_exists.1 (h.sound hreplaying)
    refine ⟨l, h.last_eq ▸ hl, ?_⟩
    rw [Playback.call, next_of_replaying Feed.next hreplaying hl]
    rfl
  atStart := by
    rw [call_stepBack, ← h.last_eq]
    by_cases hnone : p.last? = none
    · simp [hnone]
    · cases p.replaying <;> simp [hnone]
  twice := by
    rw [call_stepBack, ← h.replaying_iff]
    by_cases hnone : p.last? = none
    · -- nothing is replayed where nothing was scanned
      have hsome := h.sound
      rw [Sound, hnone] at hsome
      cases hreplaying : p.replaying with
      | false => simp [hnone]
      | true => cases hsome hreplaying
    · cases p.replaying <;> simp [hnone]
  accepted := by
    rw [call_stepBack, ← h.replaying_iff, ← h.last_eq]
    by_cases hnone : p.last? = none
    · simp [hnone]
    · cases p.replaying <;> simp [hnone]
  unchanged _ _ hrefused := call_of_refused hrefused
  plain := ⟨p.resumed, h.scans, rfl, rfl⟩

/-- Whatever is called, and in whatever order, a step back replays one lexeme and leaves no other
trace. -/
theorem replays_run (source : String) (calls : List Call) :
    Replays source ((ofString source).run Feed.next calls).1
      ((ofString source).run Feed.next calls).2 :=
  (leads_run (sound_ofString source) calls).replays

example :
    let calls := [.stepBack, .scan, .scan, .stepBack, .stepBack, .scan, .scan]
    ((ofString "<title>x</title>").run Feed.next calls).1 =
      [.refused .replayAtStart, .lexeme (.ok ⟨.startTag "title" [], ⟨0, 1⟩⟩),
        .lexeme (.ok ⟨.text "x", ⟨0, 8⟩⟩), .steppedBack, .refused .replayTwice,
        .lexeme (.ok ⟨.text "x", ⟨0, 8⟩⟩), .lexeme (.ok ⟨.endTag "title", ⟨0, 9⟩⟩)] := by
  decide +kernel

end Run

end Template.Playback
