import Template.Proofs.Leftmost

namespace Template

section Openings

inductive Opening.Stands : Opening → List Char → Prop
  | endTag {cs : List Char} : Stands .endTag ('<' :: '/' :: cs)
  | comment {cs : List Char} : Stands .comment ('<' :: '!' :: '-' :: '-' :: cs)
  | startTag {x : Char} {cs : List Char} : x.isAlpha ∨ x = '_' → Stands .startTag ('<' :: x :: cs)
  | mustache {cs : List Char} : Stands .mustache ('{' :: '{' :: cs)

theorem Opening.of?_eq_some_iff {opening : Opening} {cs : List Char} :
    of? cs = some opening ↔ opening.Stands cs := by
  constructor
  · intro h
    rw [of?.eq_def] at h
    split at h
    · cases h
      exact .endTag
    · cases h
      exact .comment
    · split at h
      · rename_i hstart
        cases h
        exact .startTag (by simpa [Text.isNameStart] using hstart)
      · cases h
    · cases h
      exact .mustache
    · cases h
  · intro h
    cases h with
    | endTag => rfl
    | comment => rfl
    | mustache => rfl
    | @startTag x cs hx =>
      have hslash : x ≠ '/' := by
        rintro rfl
        exact absurd hx (by decide)
      have hbang : x ≠ '!' := by
        rintro rfl
        exact absurd hx (by decide)
      rw [of?_angle hslash hbang, if_pos (by simpa [Text.isNameStart] using hx)]

theorem Scan.opens_iff {cs : List Char} :
    opens cs = true ↔ ∃ opening : Opening, opening.Stands cs := by
  rw [opens, Option.isSome_iff_exists]
  exact exists_congr fun _ => Opening.of?_eq_some_iff

def Token.Kind.opening? : Token.Kind → Option Opening
  | .endTag _ => some .endTag
  | .comment _ => some .comment
  | .startTag _ _ => some .startTag
  | .selfClosingTag _ _ => some .startTag
  | .mustache _ => some .mustache
  | .text _ => none
  | .endOfInput => none

theorem Token.Kind.opening?_tagKind (name : String) (attributes : List Attribute) :
    (Scan.tagKind name attributes).opening? = some .startTag := by
  rw [Scan.tagKind]
  split <;> rfl

end Openings

namespace Text

/-- The text without its line breaks: each line feed goes with the blanks that follow it. -/
def deleteBreaks : List Char → List Char
  | [] => []
  | '\n' :: cs => deleteBreaks (cs.dropWhile isBlank)
  | c :: cs => c :: deleteBreaks cs
termination_by cs => cs.length
decreasing_by
  · exact Nat.lt_succ_of_le (List.dropWhile_suffix isBlank).length_le
  · exact Nat.lt_succ_self _

theorem stripLayout_eq_deleteBreaks (cs : List Char) : stripLayout cs = deleteBreaks cs := by
  fun_induction deleteBreaks cs with
  | case1 => rfl
  | case2 cs ih =>
    rw [← ih]
    have hblank : ∀ x ∈ cs.takeWhile isBlank, isBlank x = true :=
      List.all_eq_true.1 List.all_takeWhile
    have hstrip := stripLayout_break hblank (head?_dropWhile isBlank cs)
    rwa [List.takeWhile_append_dropWhile] at hstrip
  | case3 c cs hc ih => rw [stripLayout_cons hc, ih]

/-- The text is a run that opens nothing, and what follows it is nothing or opens something. -/
structure Run (cs run rest : List Char) : Prop where
  eq : cs = run ++ rest
  quiet : ∀ n < run.length, ∀ opening : Opening, ¬ opening.Stands (cs.drop n)
  stops : rest = [] ∨ ∃ opening : Opening, opening.Stands rest

theorem run_before (cs : List Char) :
    Run cs (before Scan.opens cs) (cs.drop (before Scan.opens cs).length) := by
  refine ⟨(before_append_drop _ cs).symm, ?_, ?_⟩
  · intro n hn opening hstands
    have hquiet := before_minimal Scan.opens cs hn
    rw [Scan.opens_iff.2 ⟨opening, hstands⟩] at hquiet
    cases hquiet
  · exact (drop_before Scan.opens cs).imp_right Scan.opens_iff.1

theorem Run.before_eq {cs run rest : List Char} (h : Run cs run rest) :
    before Scan.opens cs = run := by
  rw [h.eq]
  apply before_append_stop
  · intro n hn
    rw [← h.eq, Bool.eq_false_iff, Ne, Scan.opens_iff]
    rintro ⟨opening, hopening⟩
    exact h.quiet n hn opening hopening
  · exact h.stops.imp_right Scan.opens_iff.2

theorem exists_lead {run : List Char} (h : deleteBreaks run ≠ []) :
    ∃ lead x kept, run = lead ++ x :: kept ∧ deleteBreaks lead = [] ∧
      deleteBreaks (lead ++ [x]) ≠ [] ∧ (leadingLayout run).length = lead.length := by
  rw [← stripLayout_eq_deleteBreaks] at h
  obtain ⟨hlt, hlead, hkept⟩ := leadingLayout_spec h
  generalize (leadingLayout run).length = n at hlt hlead hkept
  rw [stripLayout_eq_deleteBreaks] at hlead hkept
  refine ⟨run.take n, run[n], run.drop (n + 1), ?_, hlead, ?_, ?_⟩
  · rw [← List.drop_eq_getElem_cons hlt, List.take_append_drop]
  · rwa [List.take_append_getElem hlt]
  · rw [List.length_take, Nat.min_eq_left (Nat.le_of_lt hlt)]

end Text

namespace Scan

theorem textToken?_eq_none {run : List Char} (h : Text.deleteBreaks run = []) (c : Cursor) :
    textToken? c run = none := by
  rw [textToken?, Text.stripLayout_eq_deleteBreaks, h]

theorem exists_textToken? {run : List Char} (h : Text.deleteBreaks run ≠ [])
    (done rest : List Char) :
    ∃ lead x kept, run = lead ++ x :: kept ∧ Text.deleteBreaks lead = [] ∧
      Text.deleteBreaks (lead ++ [x]) ≠ [] ∧
      textToken? ⟨.ofRead done, run ++ rest⟩ run =
        some ⟨.text (String.ofList (CharRef.decode .text (Text.deleteBreaks run))),
          .ofRead (done ++ lead ++ [x])⟩ := by
  obtain ⟨lead, x, kept, rfl, hlead, hkept, hlength⟩ := Text.exists_lead h
  refine ⟨lead, x, kept, rfl, hlead, hkept, ?_⟩
  rw [textToken?, Text.stripLayout_eq_deleteBreaks, hlength, List.append_assoc, Cursor.skip_ofRead,
    List.cons_append, Cursor.nextPosition_ofRead_cons]
  split
  · rename_i hnil
    exact absurd hnil h
  · rfl

theorem opening?_of_body {c d : Cursor} {opening : Opening} {start : Position} {t : Token}
    (ho : Opening.of? c.rest = some opening)
    (h : body opening start (c.skip opening.width) = .ok t d) :
    t.kind.opening? = some opening ∧ t.position = start := by
  cases opening with
  | endTag =>
    obtain ⟨name, rfl, -, -⟩ := endTag_eq_ok h
    exact ⟨rfl, rfl⟩
  | comment =>
    obtain ⟨data, rfl, -, -⟩ := comment_eq_ok h
    exact ⟨rfl, rfl⟩
  | mustache =>
    obtain ⟨e, rfl, -, -⟩ := mustache_eq_ok h
    exact ⟨rfl, rfl⟩
  | startTag =>
    obtain ⟨name, as, e, -, -, -, hend⟩ := startTag_eq_ok (isNameStart_of_startTag ho) h
    rcases hend with ⟨-, rfl, -⟩ | ⟨-, rfl, -⟩
    · exact ⟨Token.Kind.opening?_tagKind name as, rfl⟩
    · exact ⟨rfl, rfl⟩

end Scan

namespace Pull.Mode

theorem behind_ne_text (c : Cursor) : behind c ≠ .text := by
  rw [behind]
  cases Opening.of? c.rest with
  | none => exact Mode.noConfusion
  | some opening => cases opening <;> exact Mode.noConfusion

theorem behind_of_stands {done rest : List Char} {opening : Opening} (h : opening.Stands rest) :
    behind ⟨.ofRead done, rest⟩ = ofOpening (.ofRead (done ++ rest.take 1)) opening := by
  rw [behind, Opening.of?_eq_some_iff.2 h, Option.elim_some, Cursor.nextPosition_ofRead]

end Pull.Mode

namespace Feed

open Pull (At)

variable {ω : Type} [Window ω] [Tracking ω] {w : ω} {c : Cursor}

theorem Matches.at_of_text {s : Reading} (h : Matches ⟨w, .text, none⟩ s) :
    ∃ c, s = ⟨.markup, c⟩ ∧ At w c 0 := by
  generalize hf : (⟨w, .text, none⟩ : Feed ω) = f at h
  cases h with
  | text hw =>
    cases hf
    exact ⟨_, rfl, hw⟩
  | @behind w' c hc hw =>
    exact absurd (congrArg Feed.mode hf).symm (Pull.Mode.behind_ne_text c)
  | rawText hraw hw => cases hf
  | held hclose hw => cases hf

theorem iterate_of_makes {mode : Pull.Mode} {step : Lexeme × Reading}
    (h : Pull.Pulls (Pull.turnStep mode) w (Makes (ω := ω) step)) (fuel : Nat) :
    Pull.iterate Pull.turnStep (fuel + 1) mode w = Pull.iterate Pull.turnStep 1 mode w := by
  obtain ⟨o, w', d, hturn, -, hmakes⟩ := h
  rw [Pull.iterate, Pull.iterate]
  rcases o with e | mode' | r
  · rw [Pull.bind_error hturn, Pull.bind_error hturn]
  · exact hmakes.elim
  · rw [Pull.bind_ok hturn, Pull.bind_ok hturn]

theorem next_text (h : At w c 0) :
    ∃ w', At w' (Pull.entry (c.skip (Text.before Scan.opens c.rest).length)) 0 ∧
      Feed.next ⟨w, .text, none⟩ =
        let f : Feed ω := ⟨w', .behind (c.skip (Text.before Scan.opens c.rest).length), none⟩
        match Scan.textToken? c (Text.before Scan.opens c.rest) with
        | some t => .ok (.ok t, f)
        | none => f.next := by
  have hdrop := Text.drop_before Scan.opens c.rest
  rw [← Cursor.rest_skip] at hdrop
  obtain ⟨o, w', d, htext, hd, hends⟩ := Pull.pulls_text h
  rw [Pull.textEnd_start] at hends
  generalize Text.before Scan.opens c.rest = run at *
  cases o with
  | error e => cases hends
  | ok turn =>
    cases hends
    refine ⟨w', hd, ?_⟩
    have hturn : Pull.turnStep .text w = _ := Pull.bind_ok htext
    cases hrun : Scan.textToken? c run with
    | some t =>
      rw [hrun] at hturn
      have htoken : token .text w = _ := Pull.bind_ok hturn
      rw [next, htoken]
      rfl
    | none =>
      rw [hrun] at hturn
      have htoken : token .text w = token (.behind (c.skip run.length)) w' :=
        (Pull.bind_ok hturn).trans (iterate_of_makes (makes_behind hdrop hd) 1).symm
      simp only [next, htoken]

end Feed

def Lexeme.Opened (opening : Opening) (start : Position) : Lexeme → Prop
  | .ok t => t.kind.opening? = some opening ∧ t.position = start
  | .error _ => True

namespace Reading

variable {done rest : List Char}

theorem opened_next {opening : Opening} (h : opening.Stands rest) :
    (next ⟨.markup, ⟨.ofRead done, rest⟩⟩).1.Opened opening (.ofRead (done ++ rest.take 1)) := by
  have ho := Opening.of?_eq_some_iff.2 h
  have hopens := Scan.opens_iff.2 ⟨opening, h⟩
  have hmarkup := Scan.markup_of_opens (c := ⟨.ofRead done, rest⟩) (.inr hopens)
  rw [Scan.construct_apply, ho, Cursor.nextPosition_ofRead] at hmarkup
  rw [next, Mode.token, hmarkup]
  split
  · rename_i t d hbody
    exact Scan.opening?_of_body (c := ⟨.ofRead done, rest⟩) ho hbody
  · trivial

end Reading

namespace Playback

variable {source : String} {p : Playback (Feed (Lookahead lookahead))}

/-- In text, scanning comes to the first place that opens something, or to the end of the input.
What is left of the run before it without its line breaks is decoded into a text token, unless it
is nothing; the construct that opens there is scanned next, in the same step if there is no
token. -/
theorem scans_run (hreached : p.Reached Feed.next (.ofString lookahead source))
    (hfresh : p.replaying = false) (hmode : p.source.mode = .text) (hheld : p.source.held = none) :
    ∃ done run rest f, Text.normalize source.toList = done ++ p.source.ahead ∧
      Text.Run p.source.ahead run rest ∧
      (f.held = none ∧ f.ahead = rest ∧ ∃ l g, f.next = .ok (l, g) ∧
        (rest = [] → f.mode = .endOfInput ∧ l = .ok ⟨.endOfInput, .ofRead (done ++ run)⟩) ∧
        ∀ opening : Opening, opening.Stands rest →
          f.mode = Pull.Mode.ofOpening (.ofRead (done ++ run ++ rest.take 1)) opening ∧
          l.Opened opening (.ofRead (done ++ run ++ rest.take 1))) ∧
      (Text.deleteBreaks run = [] →
        p.next Feed.next = ({ p with source := f } : Playback _).next Feed.next) ∧
      (Text.deleteBreaks run ≠ [] → ∃ lead x kept t, run = lead ++ x :: kept ∧
        Text.deleteBreaks lead = [] ∧ Text.deleteBreaks (lead ++ [x]) ≠ [] ∧
        t = ⟨.text (String.ofList (CharRef.decode .text (Text.deleteBreaks run))),
          .ofRead (done ++ lead ++ [x])⟩ ∧
        p.next Feed.next = .ok (.ok t, ⟨f, some (.ok t), false, p.errors⟩)) := by
  obtain ⟨done, s, hstands⟩ := hreached.standsAt_ofString
  obtain ⟨⟨w, mode, held⟩, last?, replaying, errors⟩ := p
  cases hmode
  cases hheld
  cases hfresh
  obtain ⟨c, rfl, hw⟩ := hstands.source.at_of_text
  obtain rfl : c = _ := hstands.cursor_eq
  generalize hahead : (⟨w, .text, none⟩ : Feed _).ahead = ahead at hstands hw ⊢
  have hrun := Text.run_before ahead
  have hdrop := Text.drop_before Scan.opens ahead
  obtain ⟨w', hw', hnext⟩ := Feed.next_text hw
  simp only at hw' hnext
  generalize Text.before Scan.opens ahead = run at hrun hdrop hw' hnext
  generalize ahead.drop run.length = rest at hrun hdrop
  obtain rfl := hrun.eq
  rw [Cursor.skip_ofRead] at hw' hnext
  have hmatches : Feed.Matches ⟨w', .behind ⟨.ofRead (done ++ run), rest⟩, none⟩ _ :=
    .behind hdrop hw'
  obtain ⟨g, hg, -⟩ := hmatches.next
  refine ⟨done, run, rest, _, hahead ▸ hstands.text_eq, hrun,
    ⟨rfl, hmatches.ahead_eq, _, g, hg, ?_, ?_⟩, ?_, ?_⟩
  · rintro rfl
    rw [Reading.next_of_rest_eq_nil]
    exact ⟨rfl, rfl⟩
  · intro opening hopening
    exact ⟨Pull.Mode.behind_of_stands hopening, Reading.opened_next hopening⟩
  · intro hnil
    rw [Scan.textToken?_eq_none hnil] at hnext
    rw [next_of_not_replaying Feed.next rfl, next_of_not_replaying Feed.next rfl, hnext]
  · intro hkept
    obtain ⟨lead, x, kept, hlead, hnone, hsome, htoken⟩ := Scan.exists_textToken? hkept done rest
    rw [htoken] at hnext
    refine ⟨lead, x, kept, _, hlead, hnone, hsome, rfl, ?_⟩
    rw [next_eq rfl hnext, Lexeme.error?, Option.toList_none, List.append_nil]

theorem scans_run_lone_angle :
    let start : Playback (Feed (Lookahead lookahead)) :=
      { source := .ofString lookahead "\n a <\n\t\x7b\x7bx\x7d\x7d" }
    ∃ f, start.next Feed.next =
        .ok (.ok ⟨.text "a <", ⟨1, 2⟩⟩, ⟨f, some (.ok ⟨.text "a <", ⟨1, 2⟩⟩), false, []⟩) ∧
      f.mode = .mustache ⟨2, 2⟩ ∧ f.ahead = "\x7b\x7bx\x7d\x7d".toList := by
  intro start
  obtain ⟨done, run, rest, f, htext, hrun, ⟨-, hrest, l, g, -, -, hopening⟩, -, htoken⟩ :=
    scans_run (p := start) .start rfl rfl rfl
  have hahead : start.source.ahead = "\n a <\n\t\x7b\x7bx\x7d\x7d".toList :=
    (standsAt_ofString _).source.ahead_eq
  rw [hahead] at htext hrun
  obtain rfl : done = [] := List.append_cancel_right htext.symm
  obtain rfl : run = "\n a <\n\t".toList := hrun.before_eq.symm.trans (by decide +kernel)
  obtain rfl : "\x7b\x7bx\x7d\x7d".toList = rest :=
    (List.append_right_inj "\n a <\n\t".toList).1 hrun.eq
  have hkept : Text.deleteBreaks "\n a <\n\t".toList = "a <".toList := by
    rw [← Text.stripLayout_eq_deleteBreaks]
    decide +kernel
  obtain ⟨-, -, -, t, -, -, -, -, hnext⟩ := htoken (by rw [hkept]; decide)
  have hread : (Reading.ofString "\n a <\n\t\x7b\x7bx\x7d\x7d").next =
      (.ok ⟨.text "a <", ⟨1, 2⟩⟩, ⟨.markup, ⟨⟨2, 1⟩, "\x7b\x7bx\x7d\x7d".toList⟩⟩) := by decide +kernel
  obtain ⟨q, -, hq, -⟩ := (standsAt_ofString _).next rfl hread
  rw [hq] at hnext
  cases hnext
  exact ⟨f, hq, (hopening _ .mustache).1, hrest⟩

end Playback

end Template
