import Template.Proofs.StartTags

namespace Template

namespace Scan

variable {cs r rest v : List Char} {ks : List Attribute.Kind} {key : String} {q : Char} {c : Cursor}
  {ps : List (List Char × String)}

theorem keyed_of_quotedAt (hkey : IsName key) (hq : q = '"' ∨ q = '\'')
    (hc : c.rest = key.toList ++ '=' :: q :: r) (h : QuotedAt q r ps v rest) :
    ∃ p, keyed c = .ok ⟨.string key (quotedText ps v) (ps.map (·.2)), c.nextPosition⟩ ⟨p, rest⟩ :=
  keyed_of_yields hkey hq hc (h.yields (ne_brace_of_quote hq))

theorem keyed_of_not_quotedAt (hkey : IsName key) (hq : q = '"' ∨ q = '\'')
    (hc : c.rest = key.toList ++ '=' :: q :: r) (h : ∀ ps v rest, ¬ QuotedAt q r ps v rest) :
    ∃ e d, keyed c = .error e d := by
  rw [keyed_quoted hkey hq hc]
  cases hvalue : quotedValue q (c.skip (key.toList.length + 2)) with
  | error e d => exact ⟨e, d, rfl⟩
  | ok value d =>
    obtain ⟨ps, v, hquoted, -⟩ := quotedAt_of_ok hvalue
    rw [rest_skip_key hc] at hquoted
    exact absurd hquoted (h ps v d.rest)

theorem attributes_of_quotedAt {as : List Attribute} {x : Char} {p : Position} {e : Cursor}
    (hx : Text.isBlank x = true) (hbefore : AttributesAt cs ks (key.toList ++ '=' :: q :: r))
    (hkey : IsName key) (hq : q = '"' ∨ q = '\'') (h : QuotedAt q r ps v rest)
    (hattributes : attributes ⟨p, x :: cs⟩ = .ok as e) :
    ∃ ks', as.map Attribute.kind = ks ++ .string key (quotedText ps v) (ps.map (·.2)) :: ks' := by
  obtain ⟨p', -, -, hitems⟩ := hbefore.attributes_item hx p
  obtain ⟨p'', hkeyed⟩ :=
    keyed_of_quotedAt (c := ⟨p', key.toList ++ '=' :: q :: r⟩) hkey hq rfl h
  have hitem := attribute?_eq_keyed (head?_name_append hkey ('=' :: q :: r)) p'
  rw [map_apply, hkeyed] at hitem
  exact hitems _ _ _ _ hitem hattributes

theorem attributes_of_not_quotedAt {x : Char} (p : Position) (hx : Text.isBlank x = true)
    (hbefore : AttributesAt cs ks (key.toList ++ '=' :: q :: r)) (hkey : IsName key)
    (hq : q = '"' ∨ q = '\'') (h : ∀ ps v rest, ¬ QuotedAt q r ps v rest) :
    ∃ e d, attributes ⟨p, x :: cs⟩ = .error e d := by
  obtain ⟨p', -, herror, -⟩ := hbefore.attributes_item hx p
  obtain ⟨e, d, hkeyed⟩ :=
    keyed_of_not_quotedAt (c := ⟨p', key.toList ++ '=' :: q :: r⟩) hkey hq rfl h
  have hitem := attribute?_eq_keyed (head?_name_append hkey ('=' :: q :: r)) p'
  rw [map_apply, hkeyed] at hitem
  exact ⟨e, d, herror e d hitem⟩

end Scan

open Scan (AttributesAt QuotedAt endedTag quotedText)

variable {key : String} {q : Char} {r : List Char}

theorem Pull.keyed_quoted {ω : Type} [Window ω] [Tracking ω] {w : ω} {c : Cursor} (h : At w c 0)
    (hkey : IsName key) (hq : q = '"' ∨ q = '\'') (hc : c.rest = key.toList ++ '=' :: q :: r) :
    ∃ o w' d, keyed c.nextPosition w = .ok (o, w') ∧ At w' d 0 ∧
      (∀ ps v rest, QuotedAt q r ps v rest →
        o = .ok ⟨.string key (quotedText ps v) (ps.map (·.2)), c.nextPosition⟩ ∧ d.rest = rest) ∧
      ((∀ ps v rest, ¬ QuotedAt q r ps v rest) → ∃ e, o = .error e) := by
  obtain ⟨o, w', d, hkeyed, hd, hends⟩ := pulls_keyed h
  refine ⟨o, w', d, hkeyed, hd, ?_, ?_⟩
  · intro ps v rest hquoted
    obtain ⟨p, hread⟩ := Scan.keyed_of_quotedAt hkey hq hc hquoted
    have hok : Ends (Scan.keyed c) (.ok _) ⟨p, rest⟩ := hread
    obtain ⟨rfl, rfl⟩ := hends.unique hok
    exact ⟨rfl, rfl⟩
  · intro hnone
    obtain ⟨e, d', hread⟩ := Scan.keyed_of_not_quotedAt hkey hq hc hnone
    have herror : Ends (Scan.keyed c) (.error e) d' := hread
    exact ⟨e, (hends.unique herror).1⟩

namespace Playback

variable {source name : String} {p : Playback (Feed (Lookahead lookahead))} {x : Char}
  {lead cs : List Char} {ks : List Attribute.Kind}

/-- A value in quotes is taken apart into literal parts and mustaches, and each literal part is
decoded by itself.  Where it cannot be taken apart there is one error, and no attribute. -/
theorem scans_value (hreached : p.Reached Feed.next (.ofString lookahead source))
    (hfresh : p.replaying = false) (hat : p.AtTag lead name (x :: cs))
    (hx : Text.isBlank x = true) (hbefore : AttributesAt cs ks (key.toList ++ '=' :: q :: r))
    (hkey : IsName key) (hq : q = '"' ∨ q = '\'') :
    (∀ (w : Lookahead lookahead) c, Pull.At w c 0 → c.rest = key.toList ++ '=' :: q :: r →
      ∃ o w' d, Pull.keyed c.nextPosition w = .ok (o, w') ∧ Pull.At w' d 0 ∧
        (∀ ps v rest, QuotedAt q r ps v rest →
          o = .ok ⟨.string key (quotedText ps v) (ps.map (·.2)), c.nextPosition⟩ ∧
            d.rest = rest) ∧
        ((∀ ps v rest, ¬ QuotedAt q r ps v rest) → ∃ e, o = .error e)) ∧
    ∃ l p', p.next Feed.next = .ok (l, p') ∧
      (∀ ps v rest, QuotedAt q r ps v rest → ∀ t, l = .ok t → ∃ slash as ks',
        t.kind = endedTag name slash as ∧
        as.map Attribute.kind = ks ++ .string key (quotedText ps v) (ps.map (·.2)) :: ks') ∧
      ((∀ ps v rest, ¬ QuotedAt q r ps v rest) →
        ∃ e, l = .error e ∧ p'.errors = p.errors ++ [e]) := by
  refine ⟨fun w c hw hc => Pull.keyed_quoted hw hkey hq hc, ?_⟩
  obtain ⟨done, s, hstands⟩ := hreached.standsAt_ofString
  cases hend : Pull.startTagEnd name (.ofRead (done ++ lead ++ ['<'])) []
      ⟨.ofRead (done ++ lead ++ '<' :: name.toList), x :: cs⟩ with
  | ok t d =>
    obtain ⟨p', hp', -⟩ := hat.next_ok hstands hfresh hend
    obtain ⟨as, e, slash, hattributes, -, rfl⟩ := Scan.tagEnd_of_startTagEnd hend
    refine ⟨_, p', hp', ?_, ?_⟩
    · rintro ps v rest hquoted t ⟨⟩
      obtain ⟨ks', hks'⟩ :=
        Scan.attributes_of_quotedAt hx hbefore hkey hq hquoted hattributes
      exact ⟨slash, as, ks', rfl, hks'⟩
    · intro hnone
      obtain ⟨err, f, hfail⟩ := Scan.attributes_of_not_quotedAt _ hx hbefore hkey hq hnone
      cases hattributes.symm.trans hfail
  | error e d =>
    obtain ⟨p', hp', -, -, -, herrors⟩ := hat.next_error hstands hfresh hend
    refine ⟨_, p', hp', ?_, ?_⟩
    · rintro ps v rest hquoted t ⟨⟩
    · intro _
      exact ⟨e, rfl, herrors⟩

theorem scans_value_severed :
    let start : Playback (Feed (Lookahead lookahead)) :=
      { source := .ofString lookahead "<p a=\"&am\x7b\x7b'\"'\x7d\x7dp;\">" }
    ∃ a p, start.next Feed.next = .ok (.ok ⟨.startTag "p" [a], ⟨0, 1⟩⟩, p) ∧
      a.kind = .string "a" (quotedText [("&am".toList, "'\"'")] "p;".toList) ["'\"'"] ∧
      quotedText [("&am".toList, "'\"'")] "p;".toList = "&am%vp;" := by
  intro start
  have hahead : start.source.ahead = "<p a=\"&am\x7b\x7b'\"'\x7d\x7dp;\">".toList :=
    (standsAt_ofString _).source.ahead_eq
  have hp : IsName "p" := ⟨⟨'p', [], rfl, rfl⟩, List.forall_mem_singleton.2 rfl⟩
  have ha : IsName "a" := ⟨⟨'a', [], rfl, rfl⟩, List.forall_mem_singleton.2 rfl⟩
  have hat : start.AtTag [] "p" (' ' :: "a=\"&am\x7b\x7b'\"'\x7d\x7dp;\">".toList) :=
    ⟨fun n => Pull.Mode.noConfusion, .inl rfl, hp, rfl, hahead⟩
  have hmustache : Scan.MustacheAt "'\"'\x7d\x7dp;\">".toList "'\"'" "p;\">".toList :=
    ⟨Text.first_of_before rfl, by decide, by decide⟩
  have hfront : Scan.IsLiteral '"' "&am".toList := ⟨by decide, by decide, by decide⟩
  have hquoted : QuotedAt '"' "&am\x7b\x7b'\"'\x7d\x7dp;\">".toList
      [("&am".toList, "'\"'")] "p;".toList ['>'] :=
    ⟨.cons hfront (by decide) hmustache .nil, ⟨by decide, by decide, by decide⟩⟩
  have hread : (Reading.ofString "<p a=\"&am\x7b\x7b'\"'\x7d\x7dp;\">").next =
      (.ok ⟨.startTag "p" [⟨.string "a" "&am%vp;" ["'\"'"], ⟨0, 4⟩⟩], ⟨0, 1⟩⟩,
        ⟨.markup, ⟨⟨0, 20⟩, []⟩⟩) := by decide +kernel
  obtain ⟨p, -, hp, -⟩ := (standsAt_ofString _).next rfl hread
  obtain ⟨-, l, p', hp', hvalue, -⟩ := scans_value .start rfl hat rfl .nil ha (.inl rfl)
  cases hp.symm.trans hp'
  obtain ⟨slash, as, ks', hkind, hkinds⟩ := hvalue _ _ _ hquoted _ rfl
  cases slash with
  | true => cases hkind
  | false =>
    cases hkind
    exact ⟨_, p, hp, (List.cons.inj hkinds).1, by decide +kernel⟩

end Playback

end Template
