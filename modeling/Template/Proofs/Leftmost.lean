import Template.Proofs.Ahead

namespace Template

namespace Text

variable {p : List Char → Bool} {mark cs front rest : List Char}

theorem before_append_stop (hfront : ∀ n < front.length, p ((front ++ rest).drop n) = false)
    (hrest : rest = [] ∨ p rest = true) : before p (front ++ rest) = front := by
  induction front with
  | nil =>
    rcases hrest with rfl | hrest
    · rfl
    · exact before_of_pos hrest
  | cons x front ih =>
    have hx : p (x :: (front ++ rest)) = false := hfront 0 (Nat.succ_pos _)
    rw [List.cons_append, before_of_neg hx, ih]
    intro n hn
    exact hfront (n + 1) (Nat.succ_lt_succ hn)

theorem eq_false_of_before {u v : List Char} (h : cs = u ++ v)
    (hlt : u.length < (before p cs).length) : p v = false := by
  have hminimal := before_minimal p cs hlt
  rwa [h, List.drop_left] at hminimal

/-- The mark stands behind `front` and nowhere before that; `rest` follows it. -/
structure First (mark cs front rest : List Char) : Prop where
  eq : cs = front ++ (mark ++ rest)
  least : ∀ u v, cs = u ++ (mark ++ v) → front.length ≤ u.length

theorem First.before_eq (h : First mark cs front rest) : before mark.isPrefixOf cs = front := by
  rw [h.eq]
  apply before_append_stop
  · intro n hn
    rw [← h.eq, Bool.eq_false_iff]
    intro hprefix
    obtain ⟨v, hv⟩ := List.isPrefixOf_iff_prefix.1 hprefix
    have hsplit : cs = cs.take n ++ (mark ++ v) := by rw [hv, List.take_append_drop]
    have hle := h.least _ _ hsplit
    rw [List.length_take] at hle
    omega
  · exact .inr (List.isPrefixOf_iff_prefix.2 (List.prefix_append mark rest))

theorem first_of_before (h : cs = before mark.isPrefixOf cs ++ (mark ++ rest)) :
    First mark cs (before mark.isPrefixOf cs) rest := by
  refine ⟨h, ?_⟩
  intro u v huv
  by_contra hlt
  have hnot := eq_false_of_before huv (Nat.lt_of_not_le hlt)
  rw [Bool.eq_false_iff] at hnot
  exact hnot (List.isPrefixOf_iff_prefix.2 (List.prefix_append mark v))

theorem exists_first (hmark : mark ≠ []) (h : mark <:+: cs) :
    ∃ front rest, First mark cs front rest := by
  have hsplit := before_append_drop mark.isPrefixOf cs
  rcases drop_before mark.isPrefixOf cs with hnil | hprefix
  · obtain ⟨u, v, huv⟩ := h
    rw [List.append_assoc] at huv
    rw [hnil, List.append_nil] at hsplit
    have hlt : u.length < (before mark.isPrefixOf cs).length := by
      have hpos := List.length_pos_iff.2 hmark
      rw [hsplit, ← huv, List.length_append, List.length_append]
      omega
    have hnot := eq_false_of_before huv.symm hlt
    rw [Bool.eq_false_iff] at hnot
    exact absurd (List.isPrefixOf_iff_prefix.2 (List.prefix_append mark v)) hnot
  · obtain ⟨rest, hrest⟩ := List.isPrefixOf_iff_prefix.1 hprefix
    rw [← hrest] at hsplit
    exact ⟨_, rest, first_of_before hsplit.symm⟩

theorem before_eq_self (h : ¬ mark <:+: cs) : before mark.isPrefixOf cs = cs := by
  have hsplit := before_append_drop mark.isPrefixOf cs
  rcases drop_before mark.isPrefixOf cs with hnil | hprefix
  · rwa [hnil, List.append_nil] at hsplit
  · exact absurd ((List.isPrefixOf_iff_prefix.1 hprefix).isInfix.trans
      (List.drop_suffix _ _).isInfix) h

end Text

namespace Reading

open Scan (closingTag)

variable {name : String} {done cs body rest : List Char}

theorem next_rawText_of_first (h : Text.First (closingTag name) cs body rest) (hbody : body ≠ []) :
    next ⟨.rawText name, ⟨.ofRead done, cs⟩⟩ =
      (.ok ⟨.text (String.ofList body), .ofRead (done ++ body.take 1)⟩,
        ⟨.rawText name, ⟨.ofRead (done ++ body), closingTag name ++ rest⟩⟩) := by
  have hbefore := h.before_eq
  obtain rfl := h.eq
  have hclose : (closingTag name).isPrefixOf (closingTag name ++ rest) = true :=
    List.isPrefixOf_iff_prefix.2 (List.prefix_append _ _)
  rw [next, Mode.token, Scan.rawText_apply]
  simp only [hbefore, Cursor.skip_ofRead, if_pos hclose, if_neg hbody, Mode.after,
    Cursor.nextPosition_ofRead, List.take_append_of_le_length (List.length_pos_iff.2 hbody)]

theorem next_closingTag (name : String) (done rest : List Char) :
    next ⟨.rawText name, ⟨.ofRead done, closingTag name ++ rest⟩⟩ =
      (.ok ⟨.endTag name, .ofRead (done ++ ['<'])⟩,
        ⟨.markup, ⟨.ofRead (done ++ closingTag name), rest⟩⟩) := by
  have hclose : (closingTag name).isPrefixOf (closingTag name ++ rest) = true :=
    List.isPrefixOf_iff_prefix.2 (List.prefix_append _ _)
  rw [next, Mode.token, Scan.rawText_apply]
  simp only [Text.before_of_pos hclose, List.length_nil, Cursor.skip_zero, if_pos hclose, if_true,
    Cursor.skip_ofRead, Cursor.nextPosition_ofRead, Mode.after]
  rfl

theorem next_rawText_unclosed (h : ¬ closingTag name <:+: cs) :
    next ⟨.rawText name, ⟨.ofRead done, cs⟩⟩ =
      (.error ⟨.unexpected none, .ofRead (done ++ cs)⟩, ⟨.markup, ⟨.ofRead (done ++ cs), []⟩⟩) := by
  have hskip := Cursor.skip_ofRead done cs []
  rw [List.append_nil] at hskip
  have hnot : ¬ (closingTag name).isPrefixOf [] = true := Bool.false_ne_true
  rw [next, Mode.token, Scan.rawText_apply]
  simp only [Text.before_eq_self h, hskip, if_neg hnot]

theorem next_of_rest_eq_nil (done : List Char) :
    next ⟨.markup, ⟨.ofRead done, []⟩⟩ =
      (.ok ⟨.endOfInput, .ofRead done⟩, ⟨.markup, ⟨.ofRead done, []⟩⟩) := by
  rw [next, Mode.token, Scan.markup_of_rest_eq_nil rfl]
  rfl

end Reading

namespace Playback

open Scan (closingTag)

variable {source : String} {p : Playback (Feed (Lookahead lookahead))}

theorem StandsAt.mode_eq {name : String} {text done : List Char} {s : Reading}
    {attributes : List Attribute} {start : Position} (h : p.StandsAt text done s)
    (hlast : p.last? = some (.ok ⟨.startTag name attributes, start⟩))
    (hraw : Element.isRawText name = true) :
    s = ⟨.rawText name, ⟨.ofRead done, p.source.ahead⟩⟩ := by
  obtain ⟨s₀, hs⟩ := h.last _ hlast
  have hcursor := h.cursor_eq
  rw [Reading.next] at hs
  split at hs
  · cases hs
    simp only [Reading.Mode.after, hraw, if_true] at hcursor ⊢
    rw [hcursor]
  · cases hs

theorem StandsAt.next_closingTag {text done front : List Char} {name : String} {rest : List Char}
    (h : p.StandsAt text done ⟨.rawText name, ⟨.ofRead front, closingTag name ++ rest⟩⟩)
    (hfresh : p.replaying = false) :
    ∃ q, p.next Feed.next = .ok (.ok ⟨.endTag name, .ofRead (front ++ ['<'])⟩, q) ∧
      q.source.ahead = rest ∧ q.source.mode = .text ∧ q.source.held = none ∧
        q.errors = p.errors := by
  obtain ⟨q, done', hq, hstands, -, -, herrors, hgoesOn⟩ :=
    h.next hfresh (Reading.next_closingTag name front rest)
  obtain ⟨hmode, hheld⟩ := hgoesOn fun data hdata => Token.Kind.noConfusion hdata
  exact ⟨q, hq, hstands.source.ahead_eq, hmode, hheld, herrors.trans (List.append_nil _)⟩

/-- Behind the start tag of a raw-text element, what comes before the first place where its closing
tag stands is one text, as it was written, and scanning goes on in text behind that tag.  Where its
closing tag stands nowhere there is one error, at the end of the input. -/
theorem scans_rawText {name : String} {attributes : List Attribute} {start : Position}
    (hreached : p.Reached Feed.next (.ofString lookahead source)) (hfresh : p.replaying = false)
    (hlast : p.last? = some (.ok ⟨.startTag name attributes, start⟩))
    (hraw : Element.isRawText name = true) :
    ∃ done, Text.normalize source.toList = done ++ p.source.ahead ∧
      (∀ body rest, Text.First (closingTag name) p.source.ahead body rest → ∃ q,
        (if body = [] then
          p.scans Feed.next 1 = .ok ([.ok ⟨.endTag name, .ofRead (done ++ ['<'])⟩], q)
        else p.scans Feed.next 2 = .ok (
          [.ok ⟨.text (String.ofList body), .ofRead (done ++ body.take 1)⟩,
            .ok ⟨.endTag name, .ofRead (done ++ body ++ ['<'])⟩], q)) ∧
        q.source.ahead = rest ∧ q.source.mode = .text ∧ q.source.held = none ∧
          q.errors = p.errors) ∧
      (¬ closingTag name <:+: p.source.ahead → ∃ e q,
        e.message = "unexpected end of input" ∧ e.position = .ofRead (done ++ p.source.ahead) ∧
        p.scans Feed.next 2 =
          .ok ([.error e, .ok ⟨.endOfInput, .ofRead (done ++ p.source.ahead)⟩], q) ∧
        q.errors = p.errors ++ [e]) := by
  obtain ⟨done, s, hstands⟩ := hreached.standsAt_ofString
  obtain rfl := hstands.mode_eq hlast hraw
  refine ⟨done, hstands.text_eq, ?_, ?_⟩
  · intro body rest hfirst
    by_cases hbody : body = []
    · subst hbody
      rw [hfirst.eq, List.nil_append] at hstands
      obtain ⟨q, hq, hgoesOn⟩ := hstands.next_closingTag hfresh
      refine ⟨q, ?_, hgoesOn⟩
      rw [if_pos rfl, scans_succ hq]
      rfl
    · obtain ⟨p', done', hp', hstands', hfresh', -, herrors', -⟩ :=
        hstands.next hfresh (Reading.next_rawText_of_first hfirst hbody)
      obtain ⟨q, hq, hahead, hmode, hheld, herrors⟩ := hstands'.next_closingTag hfresh'
      refine ⟨q, ?_, hahead, hmode, hheld, ?_⟩
      · rw [if_neg hbody, scans_succ hp', scans_succ hq]
        rfl
      · exact herrors.trans (herrors'.trans (List.append_nil _))
  · intro hnot
    obtain ⟨p', done', hp', hstands', hfresh', -, herrors', -⟩ :=
      hstands.next hfresh (Reading.next_rawText_unclosed hnot)
    obtain ⟨q, done'', hq, -, -, -, herrors, -⟩ :=
      hstands'.next hfresh' (Reading.next_of_rest_eq_nil _)
    refine ⟨⟨.unexpected none, .ofRead (done ++ p.source.ahead)⟩, q, rfl, rfl, ?_, ?_⟩
    · rw [scans_succ hp', scans_succ hq]
      rfl
    · rw [herrors, herrors']
      exact List.append_nil _

theorem scans_rawText_title :
    let start : Playback (Feed (Lookahead lookahead)) :=
      { source := .ofString lookahead "<title>a</title ></b></title>x" }
    ∃ p q, start.next Feed.next = .ok (.ok ⟨.startTag "title" [], ⟨0, 1⟩⟩, p) ∧
      p.scans Feed.next 2 = .ok (
        [.ok ⟨.text "a</title ></b>", ⟨0, 8⟩⟩, .ok ⟨.endTag "title", ⟨0, 22⟩⟩], q) ∧
      q.source.ahead = ['x'] := by
  intro start
  have hread : (Reading.ofString "<title>a</title ></b></title>x").next =
      (.ok ⟨.startTag "title" [], ⟨0, 1⟩⟩,
        ⟨.rawText "title", ⟨⟨0, 7⟩, "a</title ></b></title>x".toList⟩⟩) := by decide +kernel
  obtain ⟨p, done, hp, hstands, hfresh, hlast, -⟩ := (standsAt_ofString _).next rfl hread
  obtain ⟨done', htext, hfirst, -⟩ := scans_rawText (.scan .start hp) hfresh hlast (by decide)
  have hahead := hstands.source.ahead_eq
  have hdone : done' = "<title>".toList := by
    rw [hahead] at htext
    exact (List.append_cancel_right htext).symm
  rw [hahead, hdone] at hfirst
  obtain ⟨q, hq, hrest, -⟩ := hfirst "a</title ></b>".toList ['x']
    (Text.first_of_before (by decide +kernel))
  exact ⟨p, q, hp, hq, hrest⟩

end Playback

end Template
