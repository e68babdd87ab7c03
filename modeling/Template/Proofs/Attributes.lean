import Template.Proofs.Finding
import Template.Proofs.Quoting

namespace Template.Scan

def endsKey (x : Char) : Bool := Text.isBlank x || x = '>' || x = '/'

/-- The text starts with an attribute; `rest` is what follows it. -/
inductive AttributeAt : List Char → Attribute.Kind → List Char → Prop
  | bool {key : String} {rest : List Char} : IsName key → rest.head?.any endsKey = true →
    AttributeAt (key.toList ++ rest) (.bool key) rest
  | mustache {key e : String} {cs rest : List Char} : IsName key → MustacheAt cs e rest →
    AttributeAt (key.toList ++ '=' :: '{' :: '{' :: cs) (.mustache key e) rest
  | string {key : String} {q : Char} {cs rest l : List Char} {ps : List (List Char × String)} :
    IsName key → q = '"' ∨ q = '\'' → QuotedAt q cs ps l rest →
    AttributeAt (key.toList ++ '=' :: q :: cs) (.string key (quotedText ps l) (ps.map (·.2))) rest
  | variadic {e : String} {cs rest : List Char} : MustacheAt cs e rest →
    AttributeAt ('.' :: '.' :: '.' :: '{' :: '{' :: cs) (.variadic e) rest

/-- The text starts with blanks and attributes, in any order. -/
inductive AttributesAt : List Char → List Attribute.Kind → List Char → Prop
  | nil {rest : List Char} : AttributesAt rest [] rest
  | blank {x : Char} {cs rest : List Char} {ks : List Attribute.Kind} : Text.isBlank x = true →
    AttributesAt cs ks rest → AttributesAt (x :: cs) ks rest
  | cons {cs mid rest : List Char} {k : Attribute.Kind} {ks : List Attribute.Kind} :
    AttributeAt cs k mid → AttributesAt mid ks rest → AttributesAt cs (k :: ks) rest

section Complete

variable {cs rest : List Char} {k : Attribute.Kind} {ks : List Attribute.Kind} {p : Position}

theorem not_isNameChar_of_endsKey {x : Char} (h : endsKey x = true) :
    Text.isNameChar x = false := by
  simp only [endsKey, Text.isBlank, Bool.or_eq_true, decide_eq_true_eq] at h
  rcases h with ((((rfl | rfl) | rfl) | rfl) | rfl) <;> rfl

theorem ne_brace_of_quote {q : Char} (hq : q = '"' ∨ q = '\'') : q ≠ '{' := by
  rcases hq with rfl | rfl <;> decide

theorem head?_name_append {key : String} (hkey : IsName key) (cs : List Char) :
    (key.toList ++ cs).head?.any Text.isNameStart = true := by
  obtain ⟨x, xs, hxs, hx⟩ := hkey.start
  rw [hxs]
  exact hx

theorem AttributeAt.yields_keyed (h : AttributeAt cs k rest)
    (hstart : cs.head?.any Text.isNameStart = true) :
    Yields keyed cs rest fun a => a.kind = k := by
  cases h with
  | @bool key rest hkey hrest =>
    obtain ⟨x, hx, hends⟩ := (Option.any_eq_true _ _).1 hrest
    obtain ⟨xs, rfl⟩ := List.head?_eq_some_iff.1 hx
    have hequals : x ≠ '=' := by
      rintro rfl
      cases hends
    exact yields_bool hkey (not_isNameChar_of_endsKey hends) hequals xs
  | mustache hkey he => exact yields_valued hkey he.yields
  | string hkey hq hv => exact yields_string hkey hq (hv.yields (ne_brace_of_quote hq))
  | variadic he => cases hstart

theorem AttributeAt.eq_variadic_or (h : AttributeAt cs k rest) :
    (∃ e cs', cs = '.' :: '.' :: '.' :: '{' :: '{' :: cs' ∧ k = .variadic e ∧
      MustacheAt cs' e rest) ∨ cs.head?.any Text.isNameStart = true := by
  cases h with
  | bool hkey => exact .inr (head?_name_append hkey _)
  | mustache hkey => exact .inr (head?_name_append hkey _)
  | string hkey => exact .inr (head?_name_append hkey _)
  | variadic he => exact .inl ⟨_, _, rfl, rfl, he⟩

theorem AttributeAt.yields (h : AttributeAt cs k rest) :
    Yields attribute? cs rest fun o => ∃ a, o = some a ∧ a.kind = k := by
  have hsome : ∀ x : Scan Attribute, (Yields x cs rest fun a => a.kind = k) →
      Yields (some <$> x) cs rest fun o => ∃ a, o = some a ∧ a.kind = k :=
    fun x hx => yields_map (hx.mono fun a ha => ⟨a, rfl, ha⟩)
  intro p
  obtain ⟨e, cs', rfl, rfl, he⟩ | hstart := h.eq_variadic_or
  · exact hsome _ (yields_spread he.yields) p
  · rw [attribute?_eq_keyed hstart]
    exact hsome _ (h.yields_keyed hstart) p

theorem AttributesAt.many_eq (h : AttributesAt cs ks rest) (p : Position) :
    ∃ as q, as.map Attribute.kind = ks ∧ Cursor.Reaches ⟨p, cs⟩ ⟨q, rest⟩ ∧
      many attribute? ⟨p, cs⟩ = match many attribute? ⟨q, rest⟩ with
        | .ok bs d => .ok (as ++ bs) d
        | .error e d => .error e d := by
  induction h generalizing p with
  | @nil rest =>
    refine ⟨[], p, rfl, Cursor.reaches_refl _, ?_⟩
    cases many attribute? ⟨p, rest⟩ <;> rfl
  | @blank x cs rest ks hx _ ih =>
    obtain ⟨as, q, has, hreaches, hmany⟩ := ih (p.advance x)
    have hstep : Cursor.Reaches ⟨p, x :: cs⟩ ⟨p.advance x, cs⟩ := Cursor.reaches_skip _ 1
    exact ⟨as, q, has, hstep.trans hreaches, (Pull.many_attribute?_skip rfl hx).trans hmany⟩
  | @cons cs mid rest k ks hattribute _ ih =>
    obtain ⟨-, q, hitem, a, rfl, ha⟩ := hattribute.yields p
    obtain ⟨as, r, has, hreaches, hmany⟩ := ih q
    refine ⟨a :: as, r, by rw [List.map_cons, ha, has],
      (forward_attribute?.ok hitem).trans hreaches, ?_⟩
    rw [many_of_some hitem (Pull.length_lt_of_attribute? hitem), hmany]
    cases many attribute? ⟨r, rest⟩ <;> rfl

end Complete

section Sound

variable {c d : Cursor} {a : Attribute} {as : List Attribute}

theorem expect_eq_ok {x : Char} (h : expect x c = .ok () d) : c.rest = x :: d.rest := by
  simp only [expect, bind_apply, read_apply, position_apply, require_apply] at h
  split at h
  · rename_i hx
    cases h
    obtain ⟨xs, hxs⟩ := List.head?_eq_some_iff.1 hx
    rw [Cursor.rest_skip, hxs]
    rfl
  · cases h

theorem string_of_ok {key : String} {q : Char} {v : String × List String} (hkey : IsName key)
    (hq : q = '"' ∨ q = '\'') (h : quotedValue q c = .ok v d) :
    AttributeAt (key.toList ++ '=' :: q :: c.rest) (.string key v.1 v.2) d.rest := by
  obtain ⟨ps, l, hquoted, rfl⟩ := quotedAt_of_ok h
  exact .string hkey hq hquoted

theorem rest_eq_name_append (c : Cursor) :
    c.rest = (String.ofList (c.rest.takeWhile Text.isNameChar)).toList ++
      (c.skip (c.rest.takeWhile Text.isNameChar).length).rest := by
  rw [String.toList_ofList, Cursor.rest_skip_takeWhile, List.takeWhile_append_dropWhile]

theorem attributeAt_of_keyed (h : keyed c = .ok a d)
    (hstart : c.rest.head?.any Text.isNameStart = true) :
    AttributeAt c.rest a.kind d.rest ∨ ∃ key, IsName key ∧ a.kind = .bool key ∧
      c.rest = key.toList ++ d.rest ∧ d.rest.head?.any Text.isNameChar = false := by
  have hkey := isName_takeWhile hstart
  have hrest := rest_eq_name_append c
  have hchar : (c.skip (c.rest.takeWhile Text.isNameChar).length).rest.head?.any
      Text.isNameChar = false := by
    rw [Cursor.rest_skip_takeWhile, Text.head?_dropWhile]
  rw [keyed, bind_of_ok (nextPosition_apply c), bind_of_ok (name_apply c)] at h
  generalize String.ofList (c.rest.takeWhile Text.isNameChar) = key at hkey hrest h
  generalize c.skip (c.rest.takeWhile Text.isNameChar).length = e at hrest hchar h
  rw [bind_of_ok (peek_apply e)] at h
  split at h
  · cases h
    exact .inr ⟨key, hkey, rfl, hrest, hchar⟩
  · rename_i hequals
    rw [bind_of_ok (skip_apply 1 e), bind_of_ok (read_apply _), Cursor.skip_skip] at h
    have hvalue : ∀ {q}, (e.skip 1).rest.head? = some q →
        e.rest = '=' :: q :: (e.skip 2).rest :=
      fun hq => Cursor.rest_eq_cons_cons (not_not.1 hequals) hq
    left
    rw [hrest]
    generalize (e.skip 1).rest.head? = found at h hvalue
    split at h
    · rw [hvalue rfl]
      obtain ⟨⟨⟩, e', hexpect, h⟩ := bind_eq_ok.1 h
      obtain ⟨expression, e'', hbody, h⟩ := bind_eq_ok.1 h
      cases h
      rw [expect_eq_ok hexpect]
      exact .mustache hkey (mustacheAt_of_ok hbody)
    · rw [hvalue rfl]
      obtain ⟨v, e', hquoted, h⟩ := bind_eq_ok.1 h
      cases h
      exact string_of_ok hkey (.inl rfl) hquoted
    · rw [hvalue rfl]
      obtain ⟨v, e', hquoted, h⟩ := bind_eq_ok.1 h
      cases h
      exact string_of_ok hkey (.inr rfl) hquoted
    · cases h

theorem attributeAt_of_variadic (h : variadic c = .ok a d) (hdot : c.rest.head? = some '.') :
    AttributeAt c.rest a.kind d.rest := by
  obtain ⟨xs, hxs⟩ := List.head?_eq_some_iff.1 hdot
  obtain ⟨-, -, ys, hys⟩ := variadic_eq_ok h
  rw [variadic, bind_of_ok (nextPosition_apply c), bind_of_ok (skip_apply 1 c),
    bind_of_ok (get_apply _)] at h
  obtain ⟨⟨⟩, e, hrequire, h⟩ := bind_eq_ok.1 h
  rw [require_apply] at hrequire
  split at hrequire
  · cases hrequire
    rw [bind_of_ok (skip_apply 2 _), Cursor.skip_skip] at h
    obtain ⟨⟨⟩, e₁, hfirst, h⟩ := bind_eq_ok.1 h
    obtain ⟨⟨⟩, e₂, hsecond, h⟩ := bind_eq_ok.1 h
    obtain ⟨expression, e₃, hbody, h⟩ := bind_eq_ok.1 h
    cases h
    have hbraces := expect_eq_ok hfirst
    rw [expect_eq_ok hsecond, Cursor.rest_skip] at hbraces
    rw [Cursor.rest_skip] at hys
    have hrest : c.rest = '.' :: '.' :: '.' :: '{' :: '{' :: e₂.rest := by
      rw [hxs] at hys hbraces ⊢
      change ['.', '.'] ++ ys = xs at hys
      subst hys
      change ys = _ at hbraces
      rw [hbraces]
      rfl
    rw [hrest]
    exact .variadic (mustacheAt_of_ok hbody)
  · cases hrequire

theorem attributeAt_of_foundAt (h : a.FoundAt c d) :
    AttributeAt c.rest a.kind d.rest ∨ ∃ key, IsName key ∧ a.kind = .bool key ∧
      c.rest = key.toList ++ d.rest ∧ d.rest.head?.any Text.isNameChar = false := by
  cases h with
  | keyed hstart h => exact attributeAt_of_keyed h hstart
  | variadic hdot h => exact .inl (attributeAt_of_variadic h hdot)

theorem endsKey_of_attribute? {found : Option Attribute} (h : attribute? c = .ok found d)
    (hchar : c.rest.head?.any Text.isNameChar = false) (hne : c.rest ≠ []) :
    c.rest.head?.any endsKey = true := by
  obtain ⟨x, xs, hxs⟩ := List.exists_cons_of_ne_nil hne
  rw [hxs, List.head?_cons, Option.any_some] at hchar ⊢
  by_cases hblank : Text.isBlank x = true
  · rw [endsKey, hblank, Bool.true_or, Bool.true_or]
  · simp only [Pull.attribute?_apply, hxs, List.takeWhile_cons_of_neg hblank, List.length_nil,
      Cursor.rest_skip, List.drop_zero, List.head?_cons] at h
    split at h
    · contradiction
    · rename_i hx
      cases hx
      rfl
    · rename_i hx
      cases hx
      rfl
    · rename_i hx
      cases hx
      cases hchar
    · rename_i hx
      cases hx
      split at h
      · rename_i hstart
        rw [Text.isNameChar_of_isNameStart hstart] at hchar
        cases hchar
      · cases h

theorem endsKey_of_many (h : many attribute? c = .ok as d)
    (hchar : c.rest.head?.any Text.isNameChar = false) (hd : d.rest ≠ []) :
    c.rest.head?.any endsKey = true := by
  have hne := ((forward_many forward_attribute?).ok (x := many attribute?) h).rest_ne_nil hd
  cases hitem : attribute? c with
  | error e d' =>
    rw [many_of_error hitem] at h
    cases h
  | ok found d' => exact endsKey_of_attribute? hitem hchar hne

theorem attributesAt_behind_blanks {cs rest : List Char} {ks : List Attribute.Kind}
    (h : AttributesAt (cs.dropWhile Text.isBlank) ks rest) : AttributesAt cs ks rest := by
  induction cs with
  | nil => exact h
  | cons x cs ih =>
    rw [List.dropWhile_cons] at h
    split at h
    · exact .blank ‹_› (ih h)
    · exact h

theorem attributesAt_of_many (h : many attribute? c = .ok as d) (hd : d.rest ≠ []) :
    AttributesAt c.rest (as.map Attribute.kind) d.rest := by
  fun_induction many attribute? c generalizing as d with
  | case1 c e d hi => cases h
  | case2 c d hi =>
    cases h
    apply attributesAt_behind_blanks
    rw [Pull.eq_skip_of_attribute?_eq_none hi, Cursor.rest_skip_takeWhile]
    exact .nil
  | case3 c a d hi hlt e d' hm ih => cases h
  | case4 c a mid hi hlt as d' hm ih =>
    cases h
    apply attributesAt_behind_blanks
    rw [← Cursor.rest_skip_takeWhile]
    refine .cons ?_ (ih hm hd)
    -- What follows a key alone was read as the rest of the list, so it is a blank or the tag's end.
    obtain hattribute | ⟨key, hkey, hkind, hrest, hchar⟩ :=
      attributeAt_of_foundAt (foundAt_behind_blanks hi)
    · exact hattribute
    · rw [hkind, hrest]
      exact .bool hkey (endsKey_of_many hm hchar hd)
  | case5 c a d hi hlt => exact absurd (Pull.length_lt_of_attribute? hi) hlt

end Sound

end Template.Scan
