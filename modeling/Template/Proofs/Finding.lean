import Template.Forest.Indented
import Template.Proofs.Feeding
import Template.Proofs.Regular

namespace Template

def Opening.lead : Opening → List Char
  | .endTag => ['<', '/']
  | .comment => ['<', '!', '-', '-']
  | .startTag => ['<']
  | .mustache => ['{', '{']

theorem Opening.lead_prefix {opening : Opening} {cs : List Char} (h : of? cs = some opening) :
    opening.lead <+: cs := by
  rw [of?.eq_def] at h
  split at h
  · cases h
    exact List.prefix_append ['<', '/'] _
  · cases h
    exact List.prefix_append ['<', '!', '-', '-'] _
  · split at h
    · cases h
      exact List.prefix_append ['<'] _
    · cases h
  · cases h
    exact List.prefix_append ['{', '{'] _
  · cases h

theorem Opening.rest_eq {opening : Opening} {c : Cursor} (h : of? c.rest = some opening) :
    c.rest = opening.lead ++ (c.skip opening.width).rest := by
  obtain ⟨rest, hrest⟩ := lead_prefix h
  rw [Cursor.rest_skip, ← hrest]
  cases opening <;> rfl

inductive Attribute.FoundAt (a : Attribute) (c d : Cursor) : Prop
  | keyed : c.rest.head?.any Text.isNameStart = true → Scan.keyed c = .ok a d → FoundAt a c d
  | variadic : c.rest.head? = some '.' → Scan.variadic c = .ok a d → FoundAt a c d

inductive Scan.Finds : Cursor → List Attribute → Cursor → Prop
  | nil {c d : Cursor} : c.Reaches d → Finds c [] d
  | cons {c d e f : Cursor} {a : Attribute} {as : List Attribute} : c.Reaches d →
    a.FoundAt d e → Finds e as f → Finds c (a :: as) f

/-- The token is read from its first character, at `c`, up to the second cursor. -/
inductive Token.FoundAt (c : Cursor) : Token → Cursor → Prop
  | endTag {name : String} : Scan.closingTag name <+: c.rest →
    FoundAt c ⟨.endTag name, c.nextPosition⟩ (c.skip (Scan.closingTag name).length)
  | comment {data : String} : Opening.comment.lead ++ data.toList <+: c.rest →
    FoundAt c ⟨.comment data, c.nextPosition⟩ (c.skip (data.toList.length + 7))
  | mustache {expression : String} : Indented.mustache expression <+: c.rest →
    FoundAt c ⟨.mustache expression, c.nextPosition⟩ (c.skip (Indented.mustache expression).length)
  | startTag {name : String} {attributes : List Attribute} {d : Cursor} : IsName name →
    '<' :: name.toList <+: c.rest → Scan.Finds (c.skip (name.toList.length + 1)) attributes d →
    d.rest.head? = some '>' → FoundAt c ⟨Scan.tagKind name attributes, c.nextPosition⟩ (d.skip 1)
  | selfClosingTag {name : String} {attributes : List Attribute} {d : Cursor} : IsName name →
    '<' :: name.toList <+: c.rest → Scan.Finds (c.skip (name.toList.length + 1)) attributes d →
    ['/', '>'] <+: d.rest → FoundAt c ⟨.selfClosingTag name attributes, c.nextPosition⟩ (d.skip 2)

namespace Scan

variable {c d : Cursor}

theorem keyed_eq_ok {a : Attribute} (h : keyed c = .ok a d) :
    a.position = c.nextPosition ∧
      a.key? = some (String.ofList (c.rest.takeWhile Text.isNameChar)) := by
  obtain ⟨start, e, hstart, h⟩ := bind_eq_ok.1 h
  cases hstart
  obtain ⟨key, e, hkey, h⟩ := bind_eq_ok.1 h
  cases hkey
  obtain ⟨found, e, hpeek, h⟩ := bind_eq_ok.1 h
  cases hpeek
  split at h
  · cases h
    exact ⟨rfl, rfl⟩
  · obtain ⟨⟨⟩, e, -, h⟩ := bind_eq_ok.1 h
    obtain ⟨found, e, -, h⟩ := bind_eq_ok.1 h
    split at h
    · obtain ⟨⟨⟩, e, -, h⟩ := bind_eq_ok.1 h
      obtain ⟨expression, e, -, h⟩ := bind_eq_ok.1 h
      cases h
      exact ⟨rfl, rfl⟩
    · obtain ⟨value, e, -, h⟩ := bind_eq_ok.1 h
      cases h
      exact ⟨rfl, rfl⟩
    · obtain ⟨value, e, -, h⟩ := bind_eq_ok.1 h
      cases h
      exact ⟨rfl, rfl⟩
    · obtain ⟨p, e, -, h⟩ := bind_eq_ok.1 h
      cases h

theorem variadic_eq_ok {a : Attribute} (h : variadic c = .ok a d) :
    a.position = c.nextPosition ∧ a.key? = none ∧ ['.', '.'] <+: (c.skip 1).rest := by
  obtain ⟨start, e, hstart, h⟩ := bind_eq_ok.1 h
  cases hstart
  obtain ⟨⟨⟩, e, hskip, h⟩ := bind_eq_ok.1 h
  cases hskip
  obtain ⟨e, e', hget, h⟩ := bind_eq_ok.1 h
  cases hget
  obtain ⟨⟨⟩, e, hrequire, h⟩ := bind_eq_ok.1 h
  obtain ⟨⟨⟩, e', -, h⟩ := bind_eq_ok.1 h
  obtain ⟨⟨⟩, e', -, h⟩ := bind_eq_ok.1 h
  obtain ⟨⟨⟩, e', -, h⟩ := bind_eq_ok.1 h
  obtain ⟨expression, e', -, h⟩ := bind_eq_ok.1 h
  cases h
  refine ⟨rfl, rfl, ?_⟩
  rw [require_apply] at hrequire
  split at hrequire
  · rename_i hdots
    exact List.isPrefixOf_iff_prefix.1 hdots
  · cases hrequire

end Scan

def Attribute.Opens (a : Attribute) (cs : List Char) : Prop :=
  match a.key? with
  | some key => IsName key ∧ key.toList <+: cs
  | none => ['.', '.', '.'] <+: cs

namespace Attribute.FoundAt

variable {a : Attribute} {c d : Cursor}

theorem position_eq (h : a.FoundAt c d) : a.position = c.nextPosition := by
  cases h with
  | keyed _ h => exact (Scan.keyed_eq_ok h).1
  | variadic _ h => exact (Scan.variadic_eq_ok h).1

theorem opens (h : a.FoundAt c d) : a.Opens c.rest := by
  rw [Attribute.Opens]
  cases h with
  | keyed hstart h =>
    rw [(Scan.keyed_eq_ok h).2]
    refine ⟨Scan.isName_takeWhile hstart, ?_⟩
    rw [String.toList_ofList]
    exact List.takeWhile_prefix _
  | variadic hdot h =>
    obtain ⟨xs, hxs⟩ := List.head?_eq_some_iff.1 hdot
    obtain ⟨-, hkey, hdots⟩ := Scan.variadic_eq_ok h
    rw [Cursor.rest_skip, hxs] at hdots
    rw [hkey, hxs]
    exact (List.prefix_append_right_inj ['.']).2 hdots

theorem rest_ne_nil (h : a.FoundAt c d) : c.rest ≠ [] := by
  intro hnil
  cases h with
  | keyed hstart => simp [hnil] at hstart
  | variadic hdot => simp [hnil] at hdot

theorem reaches (h : a.FoundAt c d) : (c.skip 1).Reaches d := by
  cases h with
  | keyed hstart h =>
    have hreaches := Scan.reaches_keyed c
    rw [Scan.stop_of_ok h] at hreaches
    have hpos := Scan.length_name_pos hstart
    refine Cursor.Reaches.trans ?_ hreaches
    rw [← Nat.add_sub_of_le hpos, ← Cursor.skip_skip]
    exact Cursor.reaches_skip _ _
  | variadic _ h =>
    have hreaches := Scan.reaches_variadic c
    rwa [Scan.stop_of_ok h] at hreaches

end Attribute.FoundAt

namespace Scan

variable {c d : Cursor}

theorem foundAt_behind_blanks {a : Attribute} (h : attribute? c = .ok (some a) d) :
    a.FoundAt (c.skip (c.rest.takeWhile Text.isBlank).length) d := by
  have hsome : ∀ {x : Scan Attribute} {e}, (some <$> x) e = .ok (some a) d → x e = .ok a d := by
    intro x e hx
    rw [map_apply] at hx
    split at hx
    · cases hx
      assumption
    · cases hx
  simp only [Pull.attribute?_apply] at h
  split at h
  · cases h
  · cases h
  · cases h
  · exact .variadic ‹_› (hsome h)
  · rename_i x hx
    split at h
    · refine .keyed ?_ (hsome h)
      rw [hx]
      assumption
    · cases h

theorem foundAt_of_attribute? {a : Attribute} (h : attribute? c = .ok (some a) d) :
    ∃ e, c.Reaches e ∧ a.FoundAt e d :=
  ⟨_, c.reaches_skip _, foundAt_behind_blanks h⟩

theorem finds_of_many {as : List Attribute} (h : many attribute? c = .ok as d) :
    Finds c as d := by
  fun_induction many attribute? c generalizing as d with
  | case1 c e d hi => cases h
  | case2 c d hi =>
    cases h
    exact .nil (forward_attribute?.ok hi)
  | case3 c a d hi hlt e d' hm ih => cases h
  | case4 c a d hi hlt as d' hm ih =>
    cases h
    obtain ⟨e, hreaches, hfound⟩ := foundAt_of_attribute? hi
    exact .cons hreaches hfound (ih hm)
  | case5 c a d hi hlt => exact absurd (Pull.length_lt_of_attribute? hi) hlt

theorem finds_of_attributes {as : List Attribute} (h : attributes c = .ok as d) :
    Finds c as d := by
  rw [Pull.attributes_apply] at h
  split at h
  · exact finds_of_many h
  · cases h
    exact .nil c.reaches_refl

theorem prefix_takeWhile {p : Char → Bool} {cs : List Char} {x : Char}
    (h : (cs.drop (cs.takeWhile p).length).head? = some x) : cs.takeWhile p ++ [x] <+: cs := by
  obtain ⟨xs, hxs⟩ := List.head?_eq_some_iff.1 h
  refine ⟨xs, ?_⟩
  have hsplit : cs = cs.takeWhile p ++ cs.drop (cs.takeWhile p).length :=
    List.prefix_iff_eq_append.1 (List.takeWhile_prefix p) |>.symm
  rw [hxs] at hsplit
  rw [List.append_assoc]
  exact hsplit.symm

theorem endTag_eq_ok {start : Position} {t : Token} (h : endTag start c = .ok t d) :
    ∃ name : String, t = ⟨.endTag name, start⟩ ∧ name.toList ++ ['>'] <+: c.rest ∧
      d = c.skip (name.toList.length + 1) := by
  obtain ⟨name, e, hname, h⟩ := bind_eq_ok.1 h
  cases hname
  obtain ⟨⟨⟩, e, hexpect, h⟩ := bind_eq_ok.1 h
  obtain ⟨⟨⟩, e', hrequire, h⟩ := bind_eq_ok.1 h
  cases h
  rw [require_apply] at hrequire
  split at hrequire
  · cases hrequire
    simp only [expect, bind_apply, read_apply, position_apply, require_apply] at hexpect
    split at hexpect
    · rename_i hangle
      cases hexpect
      refine ⟨_, rfl, ?_, ?_⟩
      · rw [String.toList_ofList]
        exact prefix_takeWhile hangle
      · rw [String.toList_ofList, Cursor.skip_skip]
    · cases hexpect
  · cases hrequire

theorem comment_eq_ok {start : Position} {t : Token} (h : comment start c = .ok t d) :
    ∃ data : String, t = ⟨.comment data, start⟩ ∧ data.toList <+: c.rest ∧
      d = c.skip (data.toList.length + 3) := by
  simp only [comment, bind_apply, takeBefore_apply, skip_apply, Cursor.skip_skip,
    pure_apply] at h
  cases h
  refine ⟨_, rfl, ?_, ?_⟩
  · rw [String.toList_ofList]
    exact ⟨_, Text.before_append_drop endsComment c.rest⟩
  · rw [String.toList_ofList]

theorem mustache_eq_ok {start : Position} {t : Token} (h : mustache start c = .ok t d) :
    ∃ e : String, t = ⟨.mustache e, start⟩ ∧ e.toList ++ ['}', '}'] <+: c.rest ∧
      d = c.skip (e.toList.length + 2) := by
  obtain ⟨e, d', hbody, h⟩ := bind_eq_ok.1 h
  cases h
  obtain ⟨-, hbefore, rest, hrest⟩ := mustacheBody_eq_ok hbody
  refine ⟨e, rfl, ⟨rest, ?_⟩, ?_⟩
  · rw [hrest, List.append_assoc]
    rfl
  · simp only [Pull.mustacheBody_eq, Pull.mustacheEnd, hbefore, Cursor.rest_skip] at hbody
    rw [hrest, List.drop_left] at hbody
    simp only [List.head?_cons] at hbody
    split at hbody
    · cases hbody
    · rw [EStateM.Result.ok.injEq] at hbody
      rw [← hbody.2, Cursor.skip_skip]

theorem startTag_eq_ok {start : Position} {t : Token}
    (hstart : c.rest.head?.any Text.isNameStart = true) (h : startTag start c = .ok t d) :
    ∃ (name : String) (attributes : List Attribute) (e : Cursor),
      IsName name ∧ name.toList <+: c.rest ∧ Finds (c.skip name.toList.length) attributes e ∧
        (e.rest.head? = some '>' ∧ t = ⟨tagKind name attributes, start⟩ ∧ d = e.skip 1 ∨
          ['/', '>'] <+: e.rest ∧ t = ⟨.selfClosingTag name attributes, start⟩ ∧
            d = e.skip 2) := by
  rw [Pull.startTag_eq, Pull.startTagEnd] at h
  cases hattributes : attributes (c.skip (c.rest.takeWhile Text.isNameChar).length) with
  | error e d' =>
    rw [hattributes] at h
    cases h
  | ok as e =>
    rw [hattributes] at h
    refine ⟨_, as, e, isName_takeWhile hstart, ?_, ?_, ?_⟩
    · rw [String.toList_ofList]
      exact List.takeWhile_prefix _
    · rw [String.toList_ofList]
      exact finds_of_attributes hattributes
    · simp only [List.nil_append] at h
      split at h
      · cases h
        exact .inl ⟨‹_›, rfl, rfl⟩
      · rename_i hslash
        split at h
        · rename_i hangle
          cases h
          refine .inr ⟨?_, rfl, rfl⟩
          rw [Cursor.rest_eq_cons_cons hslash hangle]
          exact List.prefix_append ['/', '>'] _
        · cases h
      · cases h

theorem foundAt_of_body {opening : Opening} {t : Token} (ho : Opening.of? c.rest = some opening)
    (h : body opening c.nextPosition (c.skip opening.width) = .ok t d) : t.FoundAt c d := by
  have hrest := Opening.rest_eq ho
  cases opening with
  | endTag =>
    obtain ⟨name, rfl, hname, rfl⟩ := endTag_eq_ok h
    have hclose : closingTag name <+: c.rest := by
      rw [hrest, closingTag, List.append_assoc]
      exact (List.prefix_append_right_inj _).2 hname
    have hwidth : (closingTag name).length = Opening.endTag.width + (name.toList.length + 1) := by
      simp [closingTag, Opening.width]
      omega
    rw [Cursor.skip_skip, ← hwidth]
    exact .endTag hclose
  | comment =>
    obtain ⟨data, rfl, hdata, rfl⟩ := comment_eq_ok h
    rw [Cursor.skip_skip, show Opening.comment.width + (data.toList.length + 3) =
      data.toList.length + 7 by simp only [Opening.width]; omega]
    apply Token.FoundAt.comment
    rw [hrest]
    exact (List.prefix_append_right_inj _).2 hdata
  | startTag =>
    obtain ⟨name, as, e, hname, hprefix, hfinds, hend⟩ :=
      startTag_eq_ok (isNameStart_of_startTag ho) h
    have htag : '<' :: name.toList <+: c.rest := by
      rw [hrest]
      exact (List.prefix_append_right_inj ['<']).2 hprefix
    rw [Cursor.skip_skip, Nat.add_comm] at hfinds
    rcases hend with ⟨hangle, rfl, rfl⟩ | ⟨hslash, rfl, rfl⟩
    · exact .startTag hname htag hfinds hangle
    · exact .selfClosingTag hname htag hfinds hslash
  | mustache =>
    obtain ⟨e, rfl, he, rfl⟩ := mustache_eq_ok h
    have hmustache : Indented.mustache e <+: c.rest := by
      rw [hrest, Indented.mustache, List.append_assoc]
      exact (List.prefix_append_right_inj _).2 he
    have hwidth : (Indented.mustache e).length = Opening.mustache.width + (e.toList.length + 2) := by
      simp [Indented.mustache, Opening.width]
      omega
    rw [Cursor.skip_skip, ← hwidth]
    exact .mustache hmustache

inductive Markup (c : Cursor) : Token → Cursor → Prop
  | text {t : Token} : textToken? c (Text.before opens c.rest) = some t →
    Markup c t (c.skip (Text.before opens c.rest).length)
  | construct {t : Token} {d : Cursor} : textToken? c (Text.before opens c.rest) = none →
    t.FoundAt (c.skip (Text.before opens c.rest).length) d → Markup c t d
  | finish {d : Cursor} : textToken? c (Text.before opens c.rest) = none → d.rest = [] →
    d = c.skip (Text.before opens c.rest).length → Markup c ⟨.endOfInput, d.position⟩ d

theorem markup_eq_ok {t : Token} (h : markup c = .ok t d) : Markup c t d := by
  have hdrop := Text.drop_before opens c.rest
  rw [← Cursor.rest_skip] at hdrop
  rw [markup_apply] at h
  cases htext : textToken? c (Text.before opens c.rest) with
  | some t' =>
    rw [htext] at h
    cases h
    exact .text htext
  | none =>
    simp only [htext, construct_apply] at h
    cases ho : Opening.of? (c.skip (Text.before opens c.rest).length).rest with
    | some opening =>
      rw [ho] at h
      exact .construct htext (foundAt_of_body ho h)
    | none =>
      have hnil := (of?_eq_none_iff hdrop).1 ho
      rw [ho] at h
      cases h
      rw [Cursor.nextPosition, Cursor.skip_of_nil hnil]
      exact .finish htext hnil rfl

inductive RawText (name : String) (c : Cursor) : Token → Cursor → Prop
  | text {body : List Char} : body ≠ [] → Text.before (closingTag name).isPrefixOf c.rest = body →
    closingTag name <+: (c.skip body.length).rest →
    RawText name c ⟨.text (String.ofList body), c.nextPosition⟩ (c.skip body.length)
  | endTag : closingTag name <+: c.rest →
    RawText name c ⟨.endTag name, c.nextPosition⟩ (c.skip (closingTag name).length)

theorem rawText_eq_ok {name : String} {t : Token} (h : rawText name c = .ok t d) :
    RawText name c t d := by
  rw [rawText_apply] at h
  simp only at h
  split at h
  · rename_i hclose
    rw [List.isPrefixOf_iff_prefix] at hclose
    split at h
    · rename_i hbody
      rw [hbody] at h hclose
      cases h
      exact .endTag hclose
    · rename_i hbody
      cases h
      exact .text hbody rfl hclose
  · cases h

end Scan

namespace Text

theorem stripLayout_cons {c : Char} (h : c ≠ '\n') (cs : List Char) :
    stripLayout (c :: cs) = c :: stripLayout cs := by
  rw [stripLayout, stripLayoutFrom, if_neg (by simp [h])]
  rfl

theorem leadingLayout_spec {run : List Char} (h : stripLayout run ≠ []) :
    (leadingLayout run).length < run.length ∧
      stripLayout (run.take (leadingLayout run).length) = [] ∧
      stripLayout (run.take ((leadingLayout run).length + 1)) ≠ [] := by
  cases run with
  | nil => exact absurd rfl h
  | cons c cs =>
    by_cases hc : c = '\n'
    · subst hc
      have hws : ∀ x ∈ cs.takeWhile isBlank, isBlank x = true :=
        List.all_eq_true.1 List.all_takeWhile
      have hsplit : cs = cs.takeWhile isBlank ++ cs.dropWhile isBlank :=
        List.takeWhile_append_dropWhile.symm
      have hhead := List.head?_dropWhile_not isBlank cs
      generalize cs.takeWhile isBlank = ws at hws hsplit
      generalize cs.dropWhile isBlank = rest at hsplit hhead
      subst hsplit
      cases rest with
      | nil => exact absurd (stripLayout_break hws rfl) h
      | cons x rest =>
        have hx : isBlank x = false := hhead
        have hstart : (x :: rest).head?.any isBlank = false := hx
        have hbreak : stripLayout ('\n' :: (ws ++ [])) = [] := stripLayout_break hws rfl
        have hkept : stripLayout ('\n' :: (ws ++ [x])) = stripLayout [x] :=
          stripLayout_break hws hx
        rw [leadingLayout_break hws hstart]
        simp only [List.length_cons, List.take_succ_cons, List.take_left, List.length_append]
        refine ⟨by omega, ?_, ?_⟩
        · rwa [List.append_nil] at hbreak
        · rw [List.take_append, List.take_of_length_le (Nat.le_succ _), Nat.add_sub_cancel_left,
            List.take_succ_cons, List.take_zero, hkept,
            stripLayout_cons (by rintro rfl; cases hx)]
          exact List.cons_ne_nil _ _
    · have hlayout : leadingLayout (c :: cs) = [] := by
        rw [leadingLayout, List.head?_cons, if_neg (by simp [hc])]
      rw [hlayout, List.length_nil, List.take_zero, List.take_succ_cons, List.take_zero,
        stripLayout_cons hc]
      exact ⟨Nat.succ_pos _, rfl, List.cons_ne_nil _ _⟩

end Text

def Token.attributes (t : Token) : List Attribute :=
  match t.kind with
  | .startTag _ attributes => attributes
  | .selfClosingTag _ attributes => attributes
  | _ => []

/-- A token of the kind starts with the `k`th of the characters that are left to read.  A text in
markup starts with the first character of its run that is not dropped as layout. -/
def Token.Kind.OpensAt (mode : Reading.Mode) (cs : List Char) (k : Nat) : Token.Kind → Prop
  | .endOfInput => False
  | .text data =>
    match mode with
    | .markup =>
      let run := Text.before Scan.opens cs
      data = String.ofList (CharRef.decode .text (Text.stripLayout run)) ∧
        Text.stripLayout (run.take k) = [] ∧ Text.stripLayout (run.take (k + 1)) ≠ []
    | .rawText name => k = 0 ∧ data.toList = Text.before (Scan.closingTag name).isPrefixOf cs
  | .mustache expression => Indented.mustache expression <+: cs.drop k
  | .comment data => ['<', '!', '-', '-'] ++ data.toList <+: cs.drop k
  | .startTag name _ => '<' :: name.toList <+: cs.drop k
  | .selfClosingTag name _ => '<' :: name.toList <+: cs.drop k
  | .endTag name => Scan.closingTag name <+: cs.drop k

theorem Scan.Finds.of_reaches {c d e : Cursor} {as : List Attribute} (hc : c.Reaches d)
    (h : Finds d as e) : Finds c as e := by
  cases h with
  | nil hd => exact .nil (hc.trans hd)
  | cons hd ha has => exact .cons (hc.trans hd) ha has

theorem Scan.Finds.reaches {c d : Cursor} {as : List Attribute} (h : Finds c as d) :
    c.Reaches d := by
  induction h with
  | nil h => exact h
  | cons hd ha _ ih => exact hd.trans ((Cursor.reaches_skip _ 1).trans (ha.reaches.trans ih))

theorem Cursor.reaches_skip_skip (c : Cursor) {m n : Nat} (h : m ≤ n) :
    (c.skip m).Reaches (c.skip n) := by
  rw [← Nat.add_sub_of_le h, ← skip_skip]
  exact reaches_skip _ _

theorem Token.attributes_tagKind (name : String) (attributes : List Attribute) (p : Position) :
    Token.attributes ⟨Scan.tagKind name attributes, p⟩ = attributes := by
  cases hvoid : Element.isVoid name <;> simp [Token.attributes, Scan.tagKind, hvoid]

theorem Token.Kind.opensAt_tagKind {name : String} {cs : List Char} {k : Nat}
    (h : '<' :: name.toList <+: cs.drop k) (mode : Reading.Mode) (attributes : List Attribute) :
    (Scan.tagKind name attributes).OpensAt mode cs k := by
  rw [Scan.tagKind]
  split
  · exact h
  · exact h

namespace Token.FoundAt

variable {c d : Cursor} {t : Token}

theorem position_eq (h : t.FoundAt c d) : t.position = c.nextPosition := by
  cases h <;> rfl

theorem rest_ne_nil (h : t.FoundAt c d) : c.rest ≠ [] := by
  intro hnil
  cases h with
  | endTag h => simp [hnil, Scan.closingTag] at h
  | comment h => simp [hnil, Opening.lead] at h
  | mustache h => simp [hnil, Indented.mustache] at h
  | startTag _ h => simp [hnil] at h
  | selfClosingTag _ h => simp [hnil] at h

theorem finds (h : t.FoundAt c d) (hne : t.attributes ≠ []) :
    ∃ e, Scan.Finds (c.skip 1) t.attributes e ∧ e.rest ≠ [] ∧ (e.skip 1).Reaches d := by
  cases h with
  | endTag => exact absurd rfl hne
  | comment => exact absurd rfl hne
  | mustache => exact absurd rfl hne
  | @startTag name attributes e _ _ hfinds hangle =>
    rw [attributes_tagKind]
    refine ⟨e, hfinds.of_reaches (c.reaches_skip_skip (Nat.le_add_left 1 _)), ?_, ?_⟩
    · intro hnil
      simp [hnil] at hangle
    · exact Cursor.reaches_refl _
  | @selfClosingTag name attributes e _ _ hfinds hslash =>
    refine ⟨e, hfinds.of_reaches (c.reaches_skip_skip (Nat.le_add_left 1 _)), ?_, ?_⟩
    · intro hnil
      simp [hnil] at hslash
    · exact e.reaches_skip_skip (Nat.le_succ 1)

theorem reaches (h : t.FoundAt c d) : (c.skip 1).Reaches d := by
  cases h with
  | endTag => exact c.reaches_skip_skip (by simp [Scan.closingTag])
  | comment => exact c.reaches_skip_skip (by omega)
  | mustache => exact c.reaches_skip_skip (by simp [Indented.mustache])
  | startTag _ _ hfinds =>
    exact (c.reaches_skip_skip (Nat.le_add_left 1 _)).trans
      (hfinds.reaches.trans (Cursor.reaches_skip _ _))
  | selfClosingTag _ _ hfinds =>
    exact (c.reaches_skip_skip (Nat.le_add_left 1 _)).trans
      (hfinds.reaches.trans (Cursor.reaches_skip _ _))

theorem opensAt {k : Nat} (h : t.FoundAt (c.skip k) d) (mode : Reading.Mode) :
    t.kind.OpensAt mode c.rest k := by
  cases h with
  | endTag h => exact h
  | comment h => exact h
  | mustache h => exact h
  | startTag _ h => exact Kind.opensAt_tagKind h mode _
  | selfClosingTag _ h => exact h

end Token.FoundAt

structure Token.Stands (t : Token) (s u : Reading) (k : Nat) : Prop where
  position : t.position = (s.cursor.skip k).nextPosition
  rest_ne_nil : (s.cursor.skip k).rest ≠ []
  reaches : ((s.cursor.skip k).skip 1).Reaches u.cursor
  opensAt : t.kind.OpensAt s.mode s.cursor.rest k
  finds : t.attributes ≠ [] → ∃ e, Scan.Finds ((s.cursor.skip k).skip 1) t.attributes e ∧
    e.rest ≠ [] ∧ (e.skip 1).Reaches u.cursor

namespace Reading

variable {s u : Reading} {t : Token}

theorem stands_of_foundAt {mode : Mode} {c : Cursor} {k : Nat}
    (h : t.FoundAt (c.skip k) u.cursor) : t.Stands ⟨mode, c⟩ u k where
  position := h.position_eq
  rest_ne_nil := h.rest_ne_nil
  reaches := h.reaches
  opensAt := h.opensAt mode
  finds := h.finds

theorem stands_of_textToken? {c : Cursor}
    (htext : Scan.textToken? c (Text.before Scan.opens c.rest) = some t)
    (hu : u.cursor = c.skip (Text.before Scan.opens c.rest).length) :
    ∃ k, t.Stands ⟨.markup, c⟩ u k := by
  have hlength := Text.length_before_le Scan.opens c.rest
  unfold Scan.textToken? at htext
  split at htext
  · cases htext
  · rename_i data hdata
    obtain ⟨hlt, htake, hkept⟩ := Text.leadingLayout_spec hdata
    cases htext
    refine ⟨(Text.leadingLayout (Text.before Scan.opens c.rest)).length, rfl, ?_, ?_,
      ⟨rfl, htake, hkept⟩, fun hne => absurd rfl hne⟩
    · rw [Cursor.rest_skip, ne_eq, List.drop_eq_nil_iff]
      exact Nat.not_le.2 (Nat.lt_of_lt_of_le hlt hlength)
    · rw [hu, Cursor.skip_skip]
      exact c.reaches_skip_skip hlt

theorem exists_stands (h : s.next = (.ok t, u)) (hkind : t.kind ≠ .endOfInput) :
    ∃ k, t.Stands s u k := by
  obtain ⟨mode, c⟩ := s
  cases mode with
  | markup =>
    obtain ⟨hmarkup, -⟩ := next_markup h
    generalize hu : u.cursor = d at hmarkup
    cases Scan.markup_eq_ok hmarkup with
    | text htext => exact stands_of_textToken? htext hu
    | construct _ hfound => exact ⟨_, stands_of_foundAt (hu ▸ hfound)⟩
    | finish => exact absurd rfl hkind
  | rawText name =>
    cases hraw : Scan.rawText name c with
    | error e d =>
      rw [next, Mode.token, hraw] at h
      cases h
    | ok t' d =>
      rw [next, Mode.token, hraw] at h
      cases h
      have hzero := c.skip_zero
      cases Scan.rawText_eq_ok hraw with
      | @text body hne hbody _ =>
        refine ⟨0, by rw [hzero], ?_, ?_, ⟨rfl, ?_⟩, fun hne => absurd rfl hne⟩
        · intro hnil
          change (c.skip 0).rest = [] at hnil
          rw [hzero] at hnil
          rw [hnil] at hbody
          exact hne hbody.symm
        · rw [hzero]
          exact c.reaches_skip_skip (List.length_pos_iff.2 hne)
        · rw [String.toList_ofList]
          exact hbody.symm
      | endTag hclose =>
        refine ⟨0, stands_of_foundAt ?_⟩
        rw [hzero]
        exact .endTag hclose

/-- Scanning on yields the lexemes, none of which is the end of the input. -/
inductive Scans : Reading → List Lexeme → Reading → Prop
  | nil (s : Reading) : Scans s [] s
  | cons {s u v : Reading} {l : Lexeme} {ls : List Lexeme} : s.next = (l, u) →
    l.isEnd = false → Scans u ls v → Scans s (l :: ls) v

theorem lexemes_eq_cons {l : Lexeme} {ls : List Lexeme} (h : s.lexemes = l :: ls) :
    s.next.1 = l ∧ (l.isEnd = false → s.next.2.lexemes = ls) := by
  by_cases hend : s.next.1.isEnd = true
  · rw [lexemes_of_isEnd hend, List.cons.injEq] at h
    refine ⟨h.1, fun hnot => ?_⟩
    rw [← h.1, hend] at hnot
    cases hnot
  · rw [lexemes_of_not_isEnd hend, List.cons.injEq] at h
    exact ⟨h.1, fun _ => h.2⟩

theorem exists_scans {ls rest : List Lexeme} (h : s.lexemes = ls ++ rest) (hrest : rest ≠ []) :
    ∃ v, Scans s ls v ∧ v.lexemes = rest := by
  induction ls generalizing s with
  | nil => exact ⟨s, .nil s, h⟩
  | cons l ls ih =>
    by_cases hend : s.next.1.isEnd = true
    · rw [lexemes_of_isEnd hend, List.cons_append, List.cons.injEq] at h
      exact absurd (List.append_eq_nil_iff.1 h.2.symm).2 hrest
    · rw [lexemes_of_not_isEnd hend, List.cons_append, List.cons.injEq] at h
      obtain ⟨v, hscans, hv⟩ := ih h.2
      refine ⟨v, .cons (Prod.ext h.1 rfl) ?_ hscans, hv⟩
      rwa [← h.1, Bool.eq_false_iff]

theorem Scans.lexemes_eq {ls : List Lexeme} (h : Scans s ls u) :
    s.lexemes = ls ++ u.lexemes := by
  induction h with
  | nil s => rfl
  | cons hnext hend _ ih =>
    rw [lexemes_of_not_isEnd (by rw [hnext, hend]; exact Bool.false_ne_true), hnext, ih,
      List.cons_append]

theorem Scans.reaches {ls : List Lexeme} (h : Scans s ls u) : s.cursor.Reaches u.cursor := by
  induction h with
  | nil s => exact s.cursor.reaches_refl
  | @cons s u v l ls hnext _ _ ih =>
    have hstep := reaches_next s
    rw [hnext] at hstep
    exact hstep.trans ih

end Reading

end Template
