import Template.Proofs.Values

namespace Template

namespace Scan

section Body

variable {c d : Cursor} {o : Except SyntaxError String} {opened : Position}
  {r rest front : List Char}

/-- What is read where `r` stands behind the braces of a mustache, the second of them at `opened`:
an expression or an error, with `rest` left to read. -/
structure BodyEnds (opened : Position) (r : List Char) (o : Except SyntaxError String)
    (rest : List Char) : Prop where
  closed : ∀ {e rest'}, MustacheAt r e rest' → o = .ok e ∧ rest = rest'
  empty : ∀ {rest'}, r = '}' :: '}' :: rest' → ∃ e, o = .error e ∧
    e.message = "empty mustache" ∧ e.position = opened.after ['}', '}'] ∧ rest = rest'
  lineEnd : ∀ {front rest'}, r = front ++ '\n' :: rest' → '\n' ∉ front →
    ¬ ['}', '}'] <:+: front → ∃ e, o = .error e ∧
      e.message = "unexpected end of line" ∧ e.position = opened ∧ rest = rest'
  inputEnd : '\n' ∉ r → ¬ ['}', '}'] <:+: r → ∃ e, o = .error e ∧
    e.message = "unexpected end of input" ∧ e.position = opened ∧ rest = []

theorem body_cases (r : List Char) : (∃ e rest, MustacheAt r e rest) ∨
    (∃ rest, r = '}' :: '}' :: rest) ∨
    (∃ front rest, r = front ++ '\n' :: rest ∧ '\n' ∉ front ∧ ¬ ['}', '}'] <:+: front) ∨
    ('\n' ∉ r ∧ ¬ ['}', '}'] <:+: r) := by
  by_cases hclose : ['}', '}'] <:+: r
  · obtain ⟨front, rest, hfirst⟩ := Text.exists_first (List.cons_ne_nil _ _) hclose
    by_cases hbreak : '\n' ∈ front
    · obtain ⟨u, v, rfl, hu⟩ := List.eq_append_cons_of_mem hbreak
      refine .inr (.inr (.inl ⟨u, v ++ (['}', '}'] ++ rest), ?_, hu, ?_⟩))
      · rw [hfirst.eq, List.append_assoc, List.cons_append]
      · rintro ⟨x, y, rfl⟩
        have hle := hfirst.least x (y ++ '\n' :: v ++ (['}', '}'] ++ rest))
          (by rw [hfirst.eq]; simp only [List.append_assoc])
        simp only [List.length_append, List.length_cons] at hle
        omega
    · cases front with
      | nil => exact .inr (.inl ⟨rest, hfirst.eq⟩)
      | cons x front =>
        refine .inl ⟨String.ofList (x :: front), rest, ?_, ?_, ?_⟩
        · rwa [String.toList_ofList]
        · rw [String.toList_ofList]
          exact List.cons_ne_nil _ _
        · rwa [String.toList_ofList]
  · by_cases hbreak : '\n' ∈ r
    · obtain ⟨u, v, rfl, hu⟩ := List.eq_append_cons_of_mem hbreak
      refine .inr (.inr (.inl ⟨u, v, rfl, hu, ?_⟩))
      exact fun h => hclose (h.trans (List.prefix_append u ('\n' :: v)).isInfix)
    · exact .inr (.inr (.inr ⟨hbreak, hclose⟩))

theorem not_infix_concat (h : ¬ ['}', '}'] <:+: front) : ¬ ['}', '}'] <:+: front ++ ['\n'] := by
  rintro ⟨u, v, huv⟩
  rcases List.eq_nil_or_concat v with rfl | ⟨v, x, rfl⟩
  · have hlast := congrArg List.getLast? huv
    simp at hlast
  · rw [List.concat_eq_append, ← List.append_assoc] at huv
    exact h ⟨u, v, (List.append_inj' huv rfl).1⟩

theorem mustacheBody_unclosed (hbreak : '\n' ∉ front) (hclose : ¬ ['}', '}'] <:+: front)
    (hrest : rest = [] ∨ ∃ xs, rest = '\n' :: xs) (hc : c.rest = front ++ rest) :
    mustacheBody c = .error ⟨.unexpected rest.head?, c.position⟩ (c.skip (front.length + 1)) := by
  have hbefore : Text.before endsMustache c.rest = front := by
    rw [hc]
    rcases hrest with rfl | ⟨xs, rfl⟩
    · exact before_endsMustache hbreak (by rwa [List.take_nil, List.append_nil]) (.inl rfl)
    · exact before_endsMustache hbreak (not_infix_concat hclose) (.inr rfl)
  have hhead : (c.skip front.length).rest.head? = rest.head? := by
    rw [Cursor.rest_skip, hc, List.drop_left]
  rw [Pull.mustacheBody_eq, Pull.mustacheEnd, hbefore]
  simp only [hhead, Cursor.skip_skip]
  rcases hrest with rfl | ⟨xs, rfl⟩ <;> rfl

theorem mustacheBody_empty (hc : c.rest = '}' :: '}' :: rest) :
    mustacheBody c = .error ⟨.emptyMustache, c.position.after ['}', '}']⟩ (c.skip 2) := by
  have hbefore : Text.before endsMustache c.rest = [] := by
    rw [hc]
    exact Text.before_of_pos rfl
  have hposition : (c.skip 2).position = c.position.after ['}', '}'] := by
    rw [Cursor.skip, hc]
    rfl
  rw [Pull.mustacheBody_eq, Pull.mustacheEnd, hbefore]
  simp [hc, hposition]

theorem bodyEnds_of_ends (h : Pull.Ends (mustacheBody c) o d) :
    BodyEnds c.position c.rest o d.rest where
  closed he := by
    obtain ⟨e, p, hread, rfl⟩ := he.yields.of_rest (c := c) rfl
    have hends : Pull.Ends (mustacheBody c) (.ok e) ⟨p, _⟩ := hread
    obtain ⟨rfl, rfl⟩ := h.unique hends
    exact ⟨rfl, rfl⟩
  empty hr := by
    have hends : Pull.Ends (mustacheBody c) (.error _) _ := mustacheBody_empty hr
    obtain ⟨rfl, rfl⟩ := h.unique hends
    refine ⟨_, rfl, rfl, rfl, ?_⟩
    rw [Cursor.rest_skip, hr]
    rfl
  lineEnd hr hbreak hclose := by
    have hends : Pull.Ends (mustacheBody c) (.error _) _ :=
      mustacheBody_unclosed hbreak hclose (.inr ⟨_, rfl⟩) hr
    obtain ⟨rfl, rfl⟩ := h.unique hends
    refine ⟨_, rfl, rfl, rfl, ?_⟩
    rw [Cursor.rest_skip, hr, ← List.drop_drop, List.drop_left]
    rfl
  inputEnd hbreak hclose := by
    have hends : Pull.Ends (mustacheBody c) (.error _) _ :=
      mustacheBody_unclosed hbreak hclose (.inl rfl) (List.append_nil _).symm
    obtain ⟨rfl, rfl⟩ := h.unique hends
    refine ⟨_, rfl, rfl, rfl, ?_⟩
    rw [Cursor.rest_skip, List.drop_eq_nil_of_le (Nat.le_succ _)]

end Body

section Attributes

variable {c : Cursor} {cs r : List Char} {holds : String → Attribute.Kind → Prop}

/-- The text starts with an attribute, up to the braces of a mustache in it; `r` follows them.  What
the attribute is with an expression there is what `holds` tells. -/
inductive OpensIn : List Char → (String → Attribute.Kind → Prop) → List Char → Prop
  | value {key : String} {r : List Char} : IsName key →
    OpensIn (key.toList ++ '=' :: '{' :: '{' :: r) (fun e k => k = .mustache key e) r
  | spread {r : List Char} :
    OpensIn ('.' :: '.' :: '.' :: '{' :: '{' :: r) (fun e k => k = .variadic e) r
  | quoted {key : String} {q : Char} {cs l r : List Char} {ps : List (List Char × String)} :
    IsName key → q = '"' ∨ q = '\'' → PiecesAt q cs ps (l ++ '{' :: '{' :: r) → IsLiteral q l →
    l.getLast? ≠ some '{' → OpensIn (key.toList ++ '=' :: q :: cs)
      (fun e k => ∃ ps' l', k = .string key (quotedText (ps ++ (l, e) :: ps') l')
        ((ps ++ (l, e) :: ps').map (·.2))) r

theorem attribute?_eq_variadic (h : c.rest.head? = some '.') :
    attribute? c = (some <$> variadic) c := by
  obtain ⟨p, cs⟩ := c
  obtain ⟨xs, rfl⟩ := List.head?_eq_some_iff.1 h
  rfl

theorem OpensIn.attribute?_eq (h : OpensIn cs holds r) (hc : c.rest = cs) :
    ∃ d, c.Reaches d ∧ d.rest = r ∧
      (∀ e f, mustacheBody d = .error e f → attribute? c = .error e f) ∧
      ∀ e f found g, mustacheBody d = .ok e f → attribute? c = .ok found g →
        ∃ a, found = some a ∧ holds e a.kind := by
  cases h with
  | @value key r hkey =>
    have hstart : c.rest.head?.any Text.isNameStart = true := by
      rw [hc]
      exact head?_name_append hkey _
    have hitem : attribute? c = (some <$> keyed) c := attribute?_eq_keyed hstart c.position
    refine ⟨c.skip (key.toList.length + 3), c.reaches_skip _, rest_skip_valued hc, ?_, ?_⟩
    · intro e f hbody
      rw [hitem, map_apply, keyed_braces hkey hc, map_apply, hbody]
    · intro e f found g hbody hfound
      rw [hitem, map_apply, keyed_braces hkey hc, map_apply, hbody] at hfound
      cases hfound
      exact ⟨_, rfl, rfl⟩
  | spread =>
    have hitem := attribute?_eq_variadic (c := c) (by rw [hc]; rfl)
    refine ⟨c.skip 5, c.reaches_skip _, by rw [Cursor.rest_skip, hc]; rfl, ?_, ?_⟩
    · intro e f hbody
      rw [hitem, map_apply, variadic_braces hc, map_apply, hbody]
    · intro e f found g hbody hfound
      rw [hitem, map_apply, variadic_braces hc, map_apply, hbody] at hfound
      cases hfound
      exact ⟨_, rfl, rfl⟩
  | @quoted key q cs l r ps hkey hq hps hl hlast =>
    have hstart : c.rest.head?.any Text.isNameStart = true := by
      rw [hc]
      exact head?_name_append hkey _
    have hitem : attribute? c = (some <$> keyed) c := attribute?_eq_keyed hstart c.position
    obtain ⟨d, hreaches, hd, herror, hok⟩ :=
      quotedValue_braces hps hl hlast (rest_skip_key hc)
    refine ⟨d, (c.reaches_skip _).trans hreaches, hd, ?_, ?_⟩
    · intro e f hbody
      rw [hitem, map_apply, keyed_quoted hkey hq hc, herror e f hbody]
    · intro e f found g hbody hfound
      rw [hitem, map_apply, keyed_quoted hkey hq hc] at hfound
      cases hvalue : quotedValue q (c.skip (key.toList.length + 2)) with
      | error e' f' =>
        rw [hvalue] at hfound
        cases hfound
      | ok v f' =>
        rw [hvalue] at hfound
        cases hfound
        obtain ⟨ps', l', rfl⟩ := hok e f v g hbody hvalue
        exact ⟨_, rfl, ps', l', rfl⟩

end Attributes

section Comment

variable {c : Cursor} {start : Position}

theorem comment_apply (start : Position) (c : Cursor) :
    comment start c =
      .ok ⟨.comment (String.ofList (Text.before ['-', '-', '>'].isPrefixOf c.rest)), start⟩
        (c.skip ((Text.before ['-', '-', '>'].isPrefixOf c.rest).length + 3)) := by
  rw [← Cursor.skip_skip]
  rfl

end Comment

end Scan

namespace Pull

open Scan (BodyEnds bodyEnds_of_ends)

variable {ω : Type} [Window ω] [Tracking ω] {w : ω} {c : Cursor} {key : String} {r : List Char}

theorem keyed_ends (h : At w c 0) (hkey : IsName key)
    (hc : c.rest = key.toList ++ '=' :: '{' :: '{' :: r) :
    ∃ o w' d, keyed c.nextPosition w =
        .ok (o.map fun e => ⟨.mustache key e, c.nextPosition⟩, w') ∧
      At w' d 0 ∧ BodyEnds (c.skip (key.toList.length + 3)).position r o d.rest := by
  obtain ⟨found, w', d, hkeyed, hd, hends⟩ := pulls_keyed h
  rw [Scan.keyed_braces hkey hc] at hends
  obtain ⟨o, hread, rfl⟩ := exists_ends_of_map hends
  have hbody := bodyEnds_of_ends hread
  rw [Scan.rest_skip_valued hc] at hbody
  exact ⟨o, w', d, hkeyed, hd, hbody⟩

theorem variadic_ends (h : At w (c.skip 1) 0)
    (hc : c.rest = '.' :: '.' :: '.' :: '{' :: '{' :: r) :
    ∃ o w' d, variadic c.nextPosition w =
        .ok (o.map fun e => ⟨.variadic e, c.nextPosition⟩, w') ∧
      At w' d 0 ∧ BodyEnds (c.skip 5).position r o d.rest := by
  obtain ⟨found, w', d, hvariadic, hd, hends⟩ := pulls_variadic h
  rw [Scan.variadic_braces hc] at hends
  obtain ⟨o, hread, rfl⟩ := exists_ends_of_map hends
  have hbody := bodyEnds_of_ends hread
  rw [Cursor.rest_skip, hc] at hbody
  exact ⟨o, w', d, hvariadic, hd, hbody⟩

theorem quotedStep_ends (q : Char) (opened : Position) (taken : List Char × List String)
    (h : At w c 0) (hc : c.rest = '{' :: '{' :: r) :
    ∃ o w' d, quotedStep q opened taken w =
        .ok (o.map fun e => .inl (placeholder.reverse ++ taken.1, taken.2 ++ [e]), w') ∧
      At w' d 0 ∧ BodyEnds (c.skip 2).position r o d.rest := by
  obtain ⟨found, w', d, hstep, hd, o, hends, rfl⟩ := pulls_quotedStep_braces q opened taken hc h
  have hbody := bodyEnds_of_ends hends
  rw [Cursor.rest_skip, hc] at hbody
  exact ⟨o, w', d, hstep, hd, hbody⟩

end Pull

open Scan (AttributesAt BodyEnds MustacheAt OpensIn endedTag)

section Tokens

variable {lead r : List Char}

theorem Reading.next_mustache (hlead : Text.IsLayout lead) (done r : List Char) :
    ∃ o s, next ⟨.markup, ⟨.ofRead done, lead ++ '{' :: '{' :: r⟩⟩ =
        (o.map fun e => ⟨.mustache e, .ofRead (done ++ lead ++ ['{'])⟩, s) ∧
      BodyEnds (.ofRead (done ++ lead ++ ['{', '{'])) r o s.cursor.rest := by
  have ho : Opening.of? (Opening.mustache.lead ++ r) = some .mustache := rfl
  have hnext := next_behind_layout .mustache hlead ho done
  have hbody : ∀ start c, Scan.body .mustache start c =
      ((fun e => ⟨.mustache e, start⟩) <$> Scan.mustacheBody) c := fun _ _ => rfl
  rw [hbody, Scan.map_apply] at hnext
  cases hread : Scan.mustacheBody ⟨.ofRead (done ++ lead ++ Opening.mustache.lead), r⟩ with
  | ok e d =>
    rw [hread] at hnext
    have hends : Pull.Ends (Scan.mustacheBody _) (.ok e) d := hread
    exact ⟨.ok e, _, hnext, Scan.bodyEnds_of_ends hends⟩
  | error e d =>
    rw [hread] at hnext
    have hends : Pull.Ends (Scan.mustacheBody _) (.error e) d := hread
    exact ⟨.error e, _, hnext, Scan.bodyEnds_of_ends hends⟩

theorem Reading.next_comment (hlead : Text.IsLayout lead) (done r : List Char) :
    ∃ s, next ⟨.markup, ⟨.ofRead done, lead ++ '<' :: '!' :: '-' :: '-' :: r⟩⟩ =
        (.ok ⟨.comment (String.ofList (Text.before ['-', '-', '>'].isPrefixOf r)),
          .ofRead (done ++ lead ++ ['<'])⟩, s) ∧
      s.cursor.rest = r.drop ((Text.before ['-', '-', '>'].isPrefixOf r).length + 3) := by
  have ho : Opening.of? (Opening.comment.lead ++ r) = some .comment := rfl
  have hnext := next_behind_layout .comment hlead ho done
  have hbody : ∀ start c, Scan.body .comment start c = Scan.comment start c := fun _ _ => rfl
  rw [hbody, Scan.comment_apply] at hnext
  exact ⟨_, hnext, Cursor.rest_skip _ _⟩

end Tokens

namespace Playback

variable {source name : String} {p : Playback (Feed (Lookahead lookahead))} {x : Char}
  {lead cs mid r : List Char} {ks : List Attribute.Kind}
  {holds : String → Attribute.Kind → Prop}

theorem scans_mustache (hreached : p.Reached Feed.next (.ofString lookahead source))
    (hfresh : p.replaying = false) (hmode : ∀ n, p.source.mode ≠ .rawText n)
    (hlead : Text.IsLayout lead) (hahead : p.source.ahead = lead ++ '{' :: '{' :: r) :
    ∃ done o l q, Text.normalize source.toList = done ++ lead ++ ['{', '{'] ++ r ∧
      l = o.map (fun e => ⟨.mustache e, .ofRead (done ++ lead ++ ['{'])⟩) ∧
      p.next Feed.next = .ok (l, q) ∧ q.errors = p.errors ++ l.error?.toList ∧
      BodyEnds (.ofRead (done ++ lead ++ ['{', '{'])) r o q.source.ahead := by
  obtain ⟨done, s, hstands⟩ := hreached.standsAt_ofString
  have hclose : ¬ Opening.endTag.lead <+: '{' :: '{' :: r := by
    rintro ⟨rest, hrest⟩
    cases hrest
  obtain rfl := hstands.eq_markup hmode hlead hclose hahead
  obtain ⟨o, s', hread, hends⟩ := Reading.next_mustache hlead done r
  obtain ⟨q, done', hq, hstands', -, -, herrors, -⟩ := hstands.next hfresh hread
  rw [← hstands'.source.ahead_eq] at hends
  refine ⟨done, o, _, q, ?_, rfl, hq, herrors, hends⟩
  rw [hstands.text_eq, hahead]
  simp only [List.append_assoc, List.cons_append, List.nil_append]

theorem scans_embedded (hreached : p.Reached Feed.next (.ofString lookahead source))
    (hfresh : p.replaying = false) (hat : p.AtTag lead name (x :: cs))
    (hx : Text.isBlank x = true) (hbefore : AttributesAt cs ks mid) (hopens : OpensIn mid holds r) :
    ∃ read o rest l q, Text.normalize source.toList = read ++ r ∧
      BodyEnds (.ofRead read) r o rest ∧ p.next Feed.next = .ok (l, q) ∧
      (∀ e, o = .error e →
        l = .error e ∧ q.source.ahead = rest ∧ q.errors = p.errors ++ [e]) ∧
      ∀ e t, o = .ok e → l = .ok t → ∃ slash as k ks', t.kind = endedTag name slash as ∧
        as.map Attribute.kind = ks ++ k :: ks' ∧ holds e k := by
  obtain ⟨done, s, hstands⟩ := hreached.standsAt_ofString
  obtain ⟨p', htag, herror, hok⟩ :=
    hbefore.attributes_item hx (.ofRead (done ++ lead ++ '<' :: name.toList))
  obtain ⟨d, hreaches, hd, herror', hok'⟩ := hopens.attribute?_eq (c := ⟨p', mid⟩) rfl
  obtain ⟨front, hfront, hposition⟩ := (htag.trans hreaches).exists_ofRead rfl
  change x :: cs = front ++ d.rest at hfront
  rw [hd] at hfront
  have htext : Text.normalize source.toList = done ++ lead ++ '<' :: name.toList ++ front ++ r := by
    rw [hstands.text_eq, hat.ahead_eq, hfront]
    simp only [List.append_assoc, List.cons_append]
  have hbody : ∀ o f, Pull.Ends (Scan.mustacheBody d) o f →
      BodyEnds (.ofRead (done ++ lead ++ '<' :: name.toList ++ front)) r o f.rest := by
    intro o f hends
    rw [← hposition, ← hd]
    exact Scan.bodyEnds_of_ends hends
  cases hread : Scan.mustacheBody d with
  | error e f =>
    have hend : Pull.startTagEnd name (.ofRead (done ++ lead ++ ['<'])) []
        ⟨.ofRead (done ++ lead ++ '<' :: name.toList), x :: cs⟩ = .error e f := by
      rw [Pull.startTagEnd, herror e f (herror' e f hread)]
    obtain ⟨q, hq, hahead, -, -, herrors⟩ := hat.next_error hstands hfresh hend
    refine ⟨_, .error e, f.rest, _, q, htext, hbody _ f hread, hq, ?_, ?_⟩
    · rintro e' ⟨⟩
      exact ⟨rfl, hahead, herrors⟩
    · rintro e' t ⟨⟩
  | ok e f =>
    cases hend : Pull.startTagEnd name (.ofRead (done ++ lead ++ ['<'])) []
        ⟨.ofRead (done ++ lead ++ '<' :: name.toList), x :: cs⟩ with
    | error e' g =>
      obtain ⟨q, hq, -⟩ := hat.next_error hstands hfresh hend
      refine ⟨_, .ok e, f.rest, _, q, htext, hbody _ f hread, hq, ?_, ?_⟩
      · rintro e' ⟨⟩
      · rintro e' t - ⟨⟩
    | ok t g =>
      obtain ⟨q, hq, -⟩ := hat.next_ok hstands hfresh hend
      obtain ⟨as, e', slash, hattributes, -, rfl⟩ := Scan.tagEnd_of_startTagEnd hend
      refine ⟨_, .ok e, f.rest, _, q, htext, hbody _ f hread, hq, ?_, ?_⟩
      · rintro e' ⟨⟩
      · rintro e t ⟨⟩ ⟨⟩
        cases hitem : Scan.attribute? ⟨p', mid⟩ with
        | error err h => cases hattributes.symm.trans (herror err h hitem)
        | ok found h =>
          obtain ⟨a, rfl, ha⟩ := hok' e f found h hread hitem
          obtain ⟨ks', hks'⟩ := hok a h as e' hitem hattributes
          exact ⟨slash, as, a.kind, ks', rfl, hks', ha⟩

theorem scans_comment (hreached : p.Reached Feed.next (.ofString lookahead source))
    (hfresh : p.replaying = false) (hmode : ∀ n, p.source.mode ≠ .rawText n)
    (hlead : Text.IsLayout lead)
    (hahead : p.source.ahead = lead ++ '<' :: '!' :: '-' :: '-' :: r) :
    ∃ done data q,
      Text.normalize source.toList = done ++ lead ++ ['<', '!', '-', '-'] ++ r ∧
      p.next Feed.next = .ok (.ok ⟨.comment data, .ofRead (done ++ lead ++ ['<'])⟩, q) ∧
      q.errors = p.errors ∧
      (∀ front rest, Text.First ['-', '-', '>'] r front rest →
        data.toList = front ∧ q.source.ahead = rest) ∧
      (¬ ['-', '-', '>'] <:+: r → data.toList = r ∧ q.source.ahead = []) := by
  obtain ⟨done, s, hstands⟩ := hreached.standsAt_ofString
  have hclose : ¬ Opening.endTag.lead <+: '<' :: '!' :: '-' :: '-' :: r := by
    rintro ⟨rest, hrest⟩
    cases hrest
  obtain rfl := hstands.eq_markup hmode hlead hclose hahead
  obtain ⟨s', hread, hrest⟩ := Reading.next_comment hlead done r
  obtain ⟨q, done', hq, hstands', -, -, herrors, -⟩ := hstands.next hfresh hread
  rw [← hstands'.source.ahead_eq] at hrest
  refine ⟨done, _, q, ?_, hq, herrors.trans (List.append_nil _), ?_, ?_⟩
  · rw [hstands.text_eq, hahead]
    simp only [List.append_assoc, List.cons_append, List.nil_append]
  · intro front rest hfirst
    rw [hrest, String.toList_ofList, hfirst.before_eq]
    refine ⟨rfl, ?_⟩
    rw [hfirst.eq, ← List.drop_drop, List.drop_left]
    rfl
  · intro hnone
    rw [hrest, String.toList_ofList, Text.before_eq_self hnone]
    exact ⟨rfl, List.drop_eq_nil_of_le (Nat.le_add_right _ 3)⟩

end Playback

/-- Where the mustaches and comments of a source end.  The text behind the braces of a mustache
tells what is read of it, wherever they stand: behind a key, in a spread, in a value, or by
themselves. -/
structure Terminated (source : String) : Prop where
  exhaustive : ∀ r, (∃ e rest, MustacheAt r e rest) ∨ (∃ rest, r = '}' :: '}' :: rest) ∨
    (∃ front rest, r = front ++ '\n' :: rest ∧ '\n' ∉ front ∧ ¬ ['}', '}'] <:+: front) ∨
    ('\n' ∉ r ∧ ¬ ['}', '}'] <:+: r)
  value : ∀ {w : Lookahead lookahead} {c : Cursor} {key r}, Pull.At w c 0 → IsName key →
    c.rest = key.toList ++ '=' :: '{' :: '{' :: r → ∃ o w' d,
      Pull.keyed c.nextPosition w = .ok (o.map fun e => ⟨.mustache key e, c.nextPosition⟩, w') ∧
      Pull.At w' d 0 ∧ BodyEnds (c.skip (key.toList.length + 3)).position r o d.rest
  spread : ∀ {w : Lookahead lookahead} {c : Cursor} {r}, Pull.At w (c.skip 1) 0 →
    c.rest = '.' :: '.' :: '.' :: '{' :: '{' :: r → ∃ o w' d,
      Pull.variadic c.nextPosition w = .ok (o.map fun e => ⟨.variadic e, c.nextPosition⟩, w') ∧
      Pull.At w' d 0 ∧ BodyEnds (c.skip 5).position r o d.rest
  quoted : ∀ {w : Lookahead lookahead} {c : Cursor} {q opened taken r}, Pull.At w c 0 →
    c.rest = '{' :: '{' :: r → ∃ o w' d, Pull.quotedStep q opened taken w =
        .ok (o.map fun e => .inl (placeholder.reverse ++ taken.1, taken.2 ++ [e]), w') ∧
      Pull.At w' d 0 ∧ BodyEnds (c.skip 2).position r o d.rest
  standalone : ∀ {p : Playback (Feed (Lookahead lookahead))} {lead r},
    p.Reached Feed.next (.ofString lookahead source) → p.replaying = false →
    (∀ n, p.source.mode ≠ .rawText n) → Text.IsLayout lead →
    p.source.ahead = lead ++ '{' :: '{' :: r → ∃ done o l q,
      Text.normalize source.toList = done ++ lead ++ ['{', '{'] ++ r ∧
      l = o.map (fun e => ⟨.mustache e, .ofRead (done ++ lead ++ ['{'])⟩) ∧
      p.next Feed.next = .ok (l, q) ∧ q.errors = p.errors ++ l.error?.toList ∧
      BodyEnds (.ofRead (done ++ lead ++ ['{', '{'])) r o q.source.ahead
  inTag : ∀ {p : Playback (Feed (Lookahead lookahead))} {lead name x cs ks mid holds r},
    p.Reached Feed.next (.ofString lookahead source) → p.replaying = false →
    p.AtTag lead name (x :: cs) → Text.isBlank x = true → AttributesAt cs ks mid →
    OpensIn mid holds r → ∃ read o rest l q, Text.normalize source.toList = read ++ r ∧
      BodyEnds (.ofRead read) r o rest ∧ p.next Feed.next = .ok (l, q) ∧
      (∀ e, o = .error e →
        l = .error e ∧ q.source.ahead = rest ∧ q.errors = p.errors ++ [e]) ∧
      ∀ e t, o = .ok e → l = .ok t → ∃ slash as k ks', t.kind = endedTag name slash as ∧
        as.map Attribute.kind = ks ++ k :: ks' ∧ holds e k
  comment : ∀ {p : Playback (Feed (Lookahead lookahead))} {lead r},
    p.Reached Feed.next (.ofString lookahead source) → p.replaying = false →
    (∀ n, p.source.mode ≠ .rawText n) → Text.IsLayout lead →
    p.source.ahead = lead ++ '<' :: '!' :: '-' :: '-' :: r → ∃ done data q,
      Text.normalize source.toList = done ++ lead ++ ['<', '!', '-', '-'] ++ r ∧
      p.next Feed.next = .ok (.ok ⟨.comment data, .ofRead (done ++ lead ++ ['<'])⟩, q) ∧
      q.errors = p.errors ∧
      (∀ front rest, Text.First ['-', '-', '>'] r front rest →
        data.toList = front ∧ q.source.ahead = rest) ∧
      (¬ ['-', '-', '>'] <:+: r → data.toList = r ∧ q.source.ahead = [])

theorem terminated (source : String) : Terminated source where
  exhaustive := Scan.body_cases
  value := Pull.keyed_ends
  spread := Pull.variadic_ends
  quoted := Pull.quotedStep_ends _ _ _
  standalone := Playback.scans_mustache
  inTag := Playback.scans_embedded
  comment := Playback.scans_comment

theorem terminated_overlapping :
    let braces : Playback (Feed (Lookahead lookahead)) :=
      { source := .ofString lookahead "\x7b\x7ba\x7d\x7d\x7d" }
    let dashes : Playback (Feed (Lookahead lookahead)) :=
      { source := .ofString lookahead "<!----->x" }
    (∃ q, braces.next Feed.next = .ok (.ok ⟨.mustache "a", ⟨0, 1⟩⟩, q) ∧
      q.source.ahead = ['}']) ∧
    ∃ q, dashes.next Feed.next = .ok (.ok ⟨.comment "-", ⟨0, 1⟩⟩, q) ∧ q.source.ahead = ['x'] := by
  intro braces dashes
  constructor
  · have hahead : braces.source.ahead = "\x7b\x7ba\x7d\x7d\x7d".toList :=
      (Playback.standsAt_ofString _).source.ahead_eq
    obtain ⟨done, o, l, q, htext, rfl, hq, -, hends⟩ :=
      (terminated _).standalone (p := braces) .start rfl (fun n => Pull.Mode.noConfusion) (.inl rfl)
        hahead
    obtain rfl : done = [] := by
      rw [List.append_nil, List.append_assoc] at htext
      exact List.append_cancel_right htext.symm
    have hfirst : MustacheAt "a\x7d\x7d\x7d".toList "a" ['}'] :=
      ⟨Text.first_of_before rfl, by decide, by decide⟩
    obtain ⟨rfl, hrest⟩ := hends.closed hfirst
    exact ⟨q, hq, hrest⟩
  · have hahead : dashes.source.ahead =
        [] ++ '<' :: '!' :: '-' :: '-' :: ['-', '-', '-', '>', 'x'] :=
      (Playback.standsAt_ofString _).source.ahead_eq
    have hfirst : Text.First ['-', '-', '>'] ['-', '-', '-', '>', 'x'] ['-'] ['x'] :=
      Text.first_of_before rfl
    obtain ⟨done, data, q, htext, hq, -, hends, -⟩ :=
      (terminated _).comment (p := dashes) .start rfl (fun n => Pull.Mode.noConfusion) (.inl rfl)
        hahead
    obtain rfl : done = [] := by
      rw [List.append_nil, List.append_assoc] at htext
      exact List.append_cancel_right htext.symm
    obtain ⟨hdata, hrest⟩ := hends _ _ hfirst
    obtain rfl : data = "-" := String.toList_inj.1 hdata
    exact ⟨q, hq, hrest⟩

end Template
