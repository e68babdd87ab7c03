import Template.Proofs.Ahead
import Template.Proofs.Attributes
import Template.Proofs.Inertness

namespace Template

namespace Scan

inductive TagEnd : List Char → Bool → List Char → Prop
  | angle {rest : List Char} : TagEnd ('>' :: rest) false rest
  | slash {rest : List Char} : TagEnd ('/' :: '>' :: rest) true rest

/-- The text starts with what may follow the name of a tag; `rest` is what follows the tag. -/
inductive TagAt : List Char → List Attribute.Kind → Bool → List Char → Prop
  | bare {cs rest : List Char} {slash : Bool} : TagEnd cs slash rest → TagAt cs [] slash rest
  | spaced {x : Char} {cs mid rest : List Char} {ks : List Attribute.Kind} {slash : Bool} :
    Text.isBlank x = true → AttributesAt cs ks mid → TagEnd mid slash rest →
    TagAt (x :: cs) ks slash rest

def endedTag (name : String) (slash : Bool) (as : List Attribute) : Token.Kind :=
  if slash = true ∨ Element.isVoid name = true then .selfClosingTag name as else .startTag name as

theorem endedTag_true (name : String) (as : List Attribute) :
    endedTag name true as = .selfClosingTag name as := if_pos (.inl rfl)

theorem endedTag_false (name : String) (as : List Attribute) :
    endedTag name false as = tagKind name as := by
  rw [endedTag, tagKind]
  cases Element.isVoid name <;> rfl

section Ends

variable {cs mid rest : List Char} {ks : List Attribute.Kind} {slash : Bool} {c d e : Cursor}
  {as : List Attribute} {name : String} {start : Position} {t : Token}

theorem TagEnd.many_eq (h : TagEnd cs slash rest) (p : Position) :
    many attribute? ⟨p, cs⟩ = .ok [] ⟨p, cs⟩ := by
  cases h with
  | angle => exact many_of_none rfl
  | slash => exact many_of_none rfl

theorem TagEnd.not_blank (h : TagEnd cs slash rest) : cs.head?.any Text.isBlank = false := by
  cases h <;> rfl

theorem TagEnd.ne_nil (h : TagEnd cs slash rest) : cs ≠ [] := by
  cases h <;> exact List.cons_ne_nil _ _

theorem TagEnd.startTagEnd_eq (h : TagEnd d.rest slash rest) (hattributes : attributes c = .ok as d)
    (name : String) (start : Position) :
    ∃ e, Pull.startTagEnd name start [] c = .ok ⟨endedTag name slash as, start⟩ e ∧
      e.rest = rest := by
  obtain ⟨p, cs⟩ := d
  rw [Pull.startTagEnd, hattributes]
  cases h with
  | angle =>
    rw [endedTag_false]
    exact ⟨_, rfl, rfl⟩
  | slash =>
    rw [endedTag_true]
    exact ⟨_, rfl, rfl⟩

theorem attributes_of_blank {x : Char} (hx : Text.isBlank x = true) (p : Position)
    (cs : List Char) : attributes ⟨p, x :: cs⟩ = many attribute? ⟨p, x :: cs⟩ := by
  rw [Pull.attributes_apply, List.head?_cons, Option.any_some, if_pos hx]

theorem AttributesAt.attributes_item (h : AttributesAt cs ks rest) {x : Char}
    (hx : Text.isBlank x = true) (p : Position) :
    ∃ q, Cursor.Reaches ⟨p, x :: cs⟩ ⟨q, rest⟩ ∧
      (∀ e d, attribute? ⟨q, rest⟩ = .error e d → attributes ⟨p, x :: cs⟩ = .error e d) ∧
      ∀ a d as f, attribute? ⟨q, rest⟩ = .ok (some a) d → attributes ⟨p, x :: cs⟩ = .ok as f →
        ∃ ks', as.map Attribute.kind = ks ++ a.kind :: ks' := by
  obtain ⟨front, q, rfl, hreaches, hmany⟩ := (AttributesAt.blank hx h).many_eq p
  rw [← attributes_of_blank hx] at hmany
  refine ⟨q, hreaches, ?_, ?_⟩
  · intro e d hitem
    rw [hmany, many_of_error hitem]
  · intro a d as f hitem has
    rw [hmany, many_of_some hitem (Pull.length_lt_of_attribute? hitem)] at has
    cases hrest : many attribute? d with
    | error e d' =>
      rw [hrest] at has
      cases has
    | ok bs d' =>
      rw [hrest] at has
      cases has
      exact ⟨bs.map Attribute.kind, by rw [List.map_append, List.map_cons]⟩

theorem TagAt.startTagEnd_eq (h : TagAt cs ks slash rest) (p : Position) (name : String)
    (start : Position) :
    ∃ as e, Pull.startTagEnd name start [] ⟨p, cs⟩ = .ok ⟨endedTag name slash as, start⟩ e ∧
      as.map Attribute.kind = ks ∧ e.rest = rest := by
  cases h with
  | bare hend =>
    have hattributes : attributes ⟨p, cs⟩ = .ok [] ⟨p, cs⟩ := by
      rw [Pull.attributes_apply, hend.not_blank, if_neg Bool.false_ne_true]
    obtain ⟨e, he, hrest⟩ := hend.startTagEnd_eq hattributes name start
    exact ⟨[], e, he, rfl, hrest⟩
  | @spaced x cs mid rest ks slash hx hmany hend =>
    obtain ⟨as, q, hkinds, -, hitems⟩ := (AttributesAt.blank hx hmany).many_eq p
    simp only [hend.many_eq, List.append_nil] at hitems
    have hattributes := (attributes_of_blank hx p cs).trans hitems
    obtain ⟨e, he, hrest⟩ := hend.startTagEnd_eq hattributes name start
    exact ⟨as, e, he, hkinds, hrest⟩

theorem tagEnd_of_startTagEnd (h : Pull.startTagEnd name start [] c = .ok t d) :
    ∃ as e slash, attributes c = .ok as e ∧ TagEnd e.rest slash d.rest ∧
      t = ⟨endedTag name slash as, start⟩ := by
  rw [Pull.startTagEnd] at h
  split at h
  · cases h
  · rename_i as e hattributes
    refine ⟨as, e, ?_⟩
    simp only at h
    split at h
    · rename_i hangle
      obtain ⟨xs, hxs⟩ := List.head?_eq_some_iff.1 hangle
      cases h
      rw [Cursor.rest_skip, hxs]
      exact ⟨false, hattributes, .angle, by rw [endedTag_false]; rfl⟩
    · rename_i hslash
      split at h
      · rename_i hangle
        cases h
        rw [Cursor.rest_eq_cons_cons hslash hangle]
        exact ⟨true, hattributes, .slash, by rw [endedTag_true]; rfl⟩
      · cases h
    · cases h

theorem startTagEnd_eq_ok (h : Pull.startTagEnd name start [] c = .ok t d) :
    ∃ slash as, TagAt c.rest (as.map Attribute.kind) slash d.rest ∧
      t = ⟨endedTag name slash as, start⟩ := by
  obtain ⟨as, e, slash, hattributes, hend, rfl⟩ := tagEnd_of_startTagEnd h
  refine ⟨slash, as, ?_, rfl⟩
  rw [Pull.attributes_apply] at hattributes
  split at hattributes
  · rename_i hblank
    obtain ⟨x, hx, hblank⟩ := (Option.any_eq_true _ _).1 hblank
    obtain ⟨xs, hxs⟩ := List.head?_eq_some_iff.1 hx
    rw [Pull.many_attribute?_skip hxs hblank] at hattributes
    have hmany := attributesAt_of_many hattributes hend.ne_nil
    rw [Cursor.rest_skip, hxs] at hmany
    rw [hxs]
    exact .spaced hblank hmany hend
  · cases hattributes
    exact .bare hend

theorem endedTag_ne_text (name : String) (slash : Bool) (as : List Attribute) (data : String) :
    endedTag name slash as ≠ .text data := by
  rw [endedTag]
  split <;> exact Token.Kind.noConfusion

end Ends

end Scan

section Tags

variable {lead cs : List Char} {name : String}

theorem Reading.next_behind_layout (opening : Opening) (hlead : Text.IsLayout lead)
    (ho : Opening.of? (opening.lead ++ cs) = some opening) (done : List Char) :
    next ⟨.markup, ⟨.ofRead done, lead ++ (opening.lead ++ cs)⟩⟩ =
      match Scan.body opening (.ofRead (done ++ lead ++ opening.lead.take 1))
        ⟨.ofRead (done ++ lead ++ opening.lead), cs⟩ with
      | .ok t d => (.ok t, ⟨Mode.after .markup t.kind, d⟩)
      | .error e d => (.error e, ⟨.markup, d⟩) := by
  have hbefore : Text.before Scan.opens (lead ++ (opening.lead ++ cs)) = lead := by
    rw [hlead.quiet, Text.before_of_pos (Opening.opens_of_of? ho), List.append_nil]
  have hnone : Scan.textToken? ⟨.ofRead done, lead ++ (opening.lead ++ cs)⟩ lead = none := by
    rw [Scan.textToken?, hlead.stripLayout_eq_nil]
  have hopened : (⟨.ofRead (done ++ lead), opening.lead ++ cs⟩ : Cursor).skip opening.width =
      ⟨.ofRead (done ++ lead ++ opening.lead), cs⟩ := by
    cases opening <;> exact Cursor.skip_ofRead (done ++ lead) _ cs
  have htake : (opening.lead ++ cs).take 1 = opening.lead.take 1 := by cases opening <;> rfl
  have hmarkup : Scan.markup ⟨.ofRead done, lead ++ (opening.lead ++ cs)⟩ =
      Scan.body opening (.ofRead (done ++ lead ++ opening.lead.take 1))
        ⟨.ofRead (done ++ lead ++ opening.lead), cs⟩ := by
    simp only [Scan.markup_apply, hbefore, hnone, Cursor.skip_ofRead, Scan.construct_apply, ho,
      hopened, Cursor.nextPosition_ofRead, htake]
  have hnext : next ⟨.markup, ⟨.ofRead done, lead ++ (opening.lead ++ cs)⟩⟩ =
      match Scan.markup ⟨.ofRead done, lead ++ (opening.lead ++ cs)⟩ with
      | .ok t d => (.ok t, ⟨Mode.after .markup t.kind, d⟩)
      | .error e d => (.error e, ⟨.markup, d⟩) := rfl
  rw [hmarkup] at hnext
  exact hnext

theorem Reading.next_startTag (hlead : Text.IsLayout lead) (hname : IsName name)
    (hcs : cs.head?.any Text.isNameChar = false) (done : List Char) :
    next ⟨.markup, ⟨.ofRead done, lead ++ '<' :: (name.toList ++ cs)⟩⟩ =
      match Pull.startTagEnd name (.ofRead (done ++ lead ++ ['<'])) []
        ⟨.ofRead (done ++ lead ++ '<' :: name.toList), cs⟩ with
      | .ok t d => (.ok t, ⟨Mode.after .markup t.kind, d⟩)
      | .error e d => (.error e, ⟨.markup, d⟩) := by
  have ho : Opening.of? (Opening.startTag.lead ++ (name.toList ++ cs)) = some .startTag :=
    hname.opens cs
  have hnamed := Cursor.skip_ofRead (done ++ lead ++ ['<']) name.toList cs
  rw [List.append_assoc (done ++ lead)] at hnamed
  have hbody (start : Position) :
      Scan.body .startTag start ⟨.ofRead (done ++ lead ++ ['<']), name.toList ++ cs⟩ =
        Pull.startTagEnd name start [] ⟨.ofRead (done ++ lead ++ '<' :: name.toList), cs⟩ := by
    rw [Scan.body, Pull.startTag_eq, Text.takeWhile_append hname.chars hcs, hnamed,
      String.ofList_toList]
    rfl
  refine (next_behind_layout .startTag hlead ho done).trans ?_
  rw [Opening.lead, hbody]
  rfl

end Tags

section Scanning

variable {lead cs : List Char} {name : String}

theorem Feed.Matches.mode_eq_markup {ω : Type} [Window ω] [Tracking ω] {f : Feed ω} {s : Reading}
    (h : f.Matches s) (hmode : ∀ n, f.mode ≠ .rawText n)
    (hclose : ¬ Opening.endTag.lead <+: s.cursor.rest) : s.mode = .markup := by
  cases h with
  | text hw => rfl
  | behind hc hw => rfl
  | @rawText w c n hraw hw => exact absurd rfl (hmode n)
  | @held w c n hprefix hw =>
    obtain ⟨rest, hrest⟩ := List.isPrefixOf_iff_prefix.1 hprefix
    refine absurd ⟨n.toList ++ ['>'] ++ rest, ?_⟩ hclose
    rw [← hrest, Scan.closingTag]
    simp only [Opening.lead, List.append_assoc]

theorem not_endTag_lead (hlead : Text.IsLayout lead) (h : ¬ Opening.endTag.lead <+: cs) :
    ¬ Opening.endTag.lead <+: lead ++ cs := by
  rintro ⟨rest, hrest⟩
  rcases hlead with rfl | ⟨ws, rfl, -⟩
  · exact h ⟨rest, hrest⟩
  · cases hrest

namespace Playback

open Scan (TagAt endedTag)

variable {source : String} {p : Playback (Feed (Lookahead lookahead))}

/-- The place of a start tag in what lies ahead: behind a line break with blanks, or at once. -/
structure AtTag (p : Playback (Feed (Lookahead lookahead))) (lead : List Char) (name : String)
    (cs : List Char) : Prop where
  not_rawText : ∀ n, p.source.mode ≠ .rawText n
  layout : Text.IsLayout lead
  isName : IsName name
  whole : cs.head?.any Text.isNameChar = false
  ahead_eq : p.source.ahead = lead ++ '<' :: (name.toList ++ cs)

variable {text done : List Char} {s : Reading} {t : Token} {e : SyntaxError} {d : Cursor}

theorem StandsAt.eq_markup (h : p.StandsAt text done s) (hmode : ∀ n, p.source.mode ≠ .rawText n)
    (hlead : Text.IsLayout lead) (hclose : ¬ Opening.endTag.lead <+: cs)
    (hahead : p.source.ahead = lead ++ cs) : s = ⟨.markup, ⟨.ofRead done, lead ++ cs⟩⟩ := by
  obtain ⟨mode, c⟩ := s
  have hcursor : c = _ := h.cursor_eq
  rw [hahead] at hcursor
  subst hcursor
  obtain rfl : mode = .markup := h.source.mode_eq_markup hmode (not_endTag_lead hlead hclose)
  rfl

theorem AtTag.eq_markup (h : p.AtTag lead name cs) (hstands : p.StandsAt text done s) :
    s = ⟨.markup, ⟨.ofRead done, lead ++ '<' :: (name.toList ++ cs)⟩⟩ := by
  refine hstands.eq_markup h.not_rawText h.layout ?_ h.ahead_eq
  rintro ⟨rest, hrest⟩
  have ho := h.isName.opens cs
  rw [← hrest] at ho
  cases ho

theorem AtTag.next_ok (h : p.AtTag lead name cs) (hstands : p.StandsAt text done s)
    (hfresh : p.replaying = false)
    (hend : Pull.startTagEnd name (.ofRead (done ++ lead ++ ['<'])) []
      ⟨.ofRead (done ++ lead ++ '<' :: name.toList), cs⟩ = .ok t d) :
    ∃ q, p.next Feed.next = .ok (.ok t, q) ∧ q.source.ahead = d.rest ∧
      q.source.mode = .after t.kind ∧ q.source.held = none ∧ q.errors = p.errors := by
  obtain rfl := h.eq_markup hstands
  have hread := Reading.next_startTag h.layout h.isName h.whole done
  rw [hend] at hread
  obtain ⟨q, done', hq, hstands', -, -, herrors, hgoesOn⟩ := hstands.next hfresh hread
  obtain ⟨slash, as, -, rfl⟩ := Scan.startTagEnd_eq_ok hend
  obtain ⟨hmode, hheld⟩ := hgoesOn (Scan.endedTag_ne_text name slash as)
  exact ⟨q, hq, hstands'.source.ahead_eq, hmode, hheld, herrors.trans (List.append_nil _)⟩

theorem AtTag.next_error (h : p.AtTag lead name cs) (hstands : p.StandsAt text done s)
    (hfresh : p.replaying = false)
    (hend : Pull.startTagEnd name (.ofRead (done ++ lead ++ ['<'])) []
      ⟨.ofRead (done ++ lead ++ '<' :: name.toList), cs⟩ = .error e d) :
    ∃ q, p.next Feed.next = .ok (.error e, q) ∧ q.source.ahead = d.rest ∧
      q.source.mode = .text ∧ q.source.held = none ∧ q.errors = p.errors ++ [e] := by
  obtain rfl := h.eq_markup hstands
  have hread := Reading.next_startTag h.layout h.isName h.whole done
  rw [hend] at hread
  obtain ⟨q, done', hq, hstands', -, -, herrors, hmode, hheld⟩ := hstands.next hfresh hread
  exact ⟨q, hq, hstands'.source.ahead_eq, hmode, hheld, herrors⟩

/-- A start tag is scanned just if what stands behind its name is one of the forms of a tag, and
then it holds the attributes that stand there; a tag of any other form is one error. -/
theorem scans_startTag (hreached : p.Reached Feed.next (.ofString lookahead source))
    (hfresh : p.replaying = false) (hat : p.AtTag lead name cs) :
    ∃ done l q, Text.normalize source.toList = done ++ p.source.ahead ∧
      p.next Feed.next = .ok (l, q) ∧ q.source.held = none ∧
      (∀ ks slash rest, TagAt cs ks slash rest → ∃ as, as.map Attribute.kind = ks ∧
        l = .ok ⟨endedTag name slash as, .ofRead (done ++ lead ++ ['<'])⟩ ∧
        q.source.ahead = rest ∧ q.source.mode = .after (endedTag name slash as) ∧
        q.errors = p.errors) ∧
      ((∀ ks slash rest, ¬ TagAt cs ks slash rest) →
        ∃ e, l = .error e ∧ q.source.mode = .text ∧ q.errors = p.errors ++ [e]) := by
  obtain ⟨done, s, hstands⟩ := hreached.standsAt_ofString
  cases hend : Pull.startTagEnd name (.ofRead (done ++ lead ++ ['<'])) []
      ⟨.ofRead (done ++ lead ++ '<' :: name.toList), cs⟩ with
  | ok t d =>
    obtain ⟨q, hq, hahead, hmode, hheld, herrors⟩ := hat.next_ok hstands hfresh hend
    refine ⟨done, _, q, hstands.text_eq, hq, hheld, ?_, ?_⟩
    · intro ks slash rest htag
      obtain ⟨as, d', hend', hkinds, hrest⟩ := htag.startTagEnd_eq _ name _
      rw [hend] at hend'
      cases hend'
      exact ⟨as, hkinds, rfl, hahead.trans hrest, hmode, herrors⟩
    · intro hnone
      obtain ⟨slash, as, htag, -⟩ := Scan.startTagEnd_eq_ok hend
      exact absurd htag (hnone _ slash _)
  | error e d =>
    obtain ⟨q, hq, -, hmode, hheld, herrors⟩ := hat.next_error hstands hfresh hend
    refine ⟨done, _, q, hstands.text_eq, hq, hheld, ?_, ?_⟩
    · intro ks slash rest htag
      obtain ⟨as, d', hend', -, -⟩ := htag.startTagEnd_eq _ name _
      rw [hend] at hend'
      cases hend'
    · intro _
      exact ⟨e, rfl, hmode, herrors⟩

theorem scans_startTag_touching :
    let start : Playback (Feed (Lookahead lookahead)) :=
      { source := .ofString lookahead "<p a='x'b>y" }
    ∃ a b q, start.next Feed.next = .ok (.ok ⟨.startTag "p" [a, b], ⟨0, 1⟩⟩, q) ∧
      a.kind = .string "a" "x" [] ∧ b.kind = .bool "b" ∧ q.source.ahead = ['y'] := by
  intro start
  have hahead : start.source.ahead = "<p a='x'b>y".toList := (standsAt_ofString _).source.ahead_eq
  have hp : IsName "p" := ⟨⟨'p', [], rfl, rfl⟩, List.forall_mem_singleton.2 rfl⟩
  have ha : IsName "a" := ⟨⟨'a', [], rfl, rfl⟩, List.forall_mem_singleton.2 rfl⟩
  have hb : IsName "b" := ⟨⟨'b', [], rfl, rfl⟩, List.forall_mem_singleton.2 rfl⟩
  have hat : start.AtTag [] "p" (' ' :: "a='x'b>y".toList) :=
    ⟨fun n => Pull.Mode.noConfusion, .inl rfl, hp, rfl, hahead⟩
  have hvalue : Scan.QuotedAt '\'' ['x', '\'', 'b', '>', 'y'] [] ['x'] ['b', '>', 'y'] :=
    ⟨.nil, ⟨by decide, by decide, by decide⟩⟩
  have htag : TagAt (' ' :: "a='x'b>y".toList)
      [.string "a" (Scan.quotedText [] ['x']) [], .bool "b"] false ['y'] :=
    .spaced rfl (.cons (.string ha (.inr rfl) hvalue) (.cons (.bool hb rfl) .nil)) .angle
  obtain ⟨done, l, q, htext, hq, -, htag', -⟩ := scans_startTag .start rfl hat
  obtain ⟨as, hkinds, rfl, hrest, -⟩ := htag' _ _ _ htag
  rw [hahead] at htext
  obtain rfl : done = [] := List.append_cancel_right htext.symm
  obtain ⟨a, as, rfl, hstring, has⟩ := List.map_eq_cons_iff.1 hkinds
  obtain ⟨b, as, rfl, hbool, has⟩ := List.map_eq_cons_iff.1 has
  obtain rfl := List.map_eq_nil_iff.1 has
  have hx : Scan.quotedText [] ['x'] = "x" := by decide +kernel
  rw [hx] at hstring
  exact ⟨a, b, q, hq, hstring, hbool, hrest⟩

end Playback

end Scanning

end Template
