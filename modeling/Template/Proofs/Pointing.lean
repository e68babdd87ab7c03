import Template.Proofs.Recovery
import Template.Proofs.Terminators

/-! What errors point at.  The position of an error is that of the characters in the text that its
message is about, whatever errors were met before it. -/

namespace Template

open Scan (IsLiteral PiecesAt)

/-- The text has an `x` at `p`, with `done` in front of it and `rest` behind it. -/
structure HasAt (text : List Char) (p : Position) (done : List Char) (x : Char)
    (rest : List Char) : Prop where
  text_eq : text = done ++ x :: rest
  position_eq : p = .ofRead (done ++ [x])

/-- A mustache of which the second brace stands at `p`, or a value in quotes of which the first
quote does, is not closed before `rest`. -/
inductive OpenUpTo (text : List Char) (p : Position) (rest : List Char) : Prop
  | mustache {done front : List Char} : HasAt text p (done ++ ['{']) '{' (front ++ rest) →
    '\n' ∉ front → ¬ ['}', '}'] <:+: front → OpenUpTo text p rest
  | value {done cs l : List Char} {key : String} {q : Char} {ps : List (List Char × String)} :
    HasAt text p (done ++ key.toList ++ ['=']) q cs → IsName key → q = '"' ∨ q = '\'' →
    PiecesAt q cs ps (l ++ rest) → IsLiteral q l → OpenUpTo text p rest

/-- What the error is about is found in the text where it points. -/
def SyntaxError.PointsAt (text : List Char) (e : SyntaxError) : Prop :=
  match e.cause with
  | .unexpected none =>
    (∃ done x, HasAt text e.position done x []) ∨ OpenUpTo text e.position []
  | .unexpected (some x) =>
    (∃ done rest, HasAt text e.position done x rest) ∨
      x = '\n' ∧ ∃ rest, OpenUpTo text e.position ('\n' :: rest)
  | .unclosedSlash found =>
    ∃ done rest, HasAt text e.position done '/' rest ∧ rest.head? = found ∧ found ≠ some '>'
  | .emptyMustache => ∃ done rest, HasAt text e.position (done ++ ['{', '{', '}']) '}' rest
  | .voidClosingTag name =>
    ∃ done rest, HasAt text e.position done '<' ('/' :: name.toList ++ '>' :: rest) ∧
      Element.isVoid name = true
  | .unmatchedClosingTag _ | .unclosedElement _ | .other _ => False

namespace Cursor

structure StandsIn (text done : List Char) (c : Cursor) : Prop where
  text_eq : text = done ++ c.rest
  position_eq : c.position = .ofRead done

namespace StandsIn

variable {text done front rest : List Char} {x : Char} {c d : Cursor}

theorem of_reaches (h : c.StandsIn text done) (hd : c.Reaches d) :
    ∃ front, c.rest = front ++ d.rest ∧ d.StandsIn text (done ++ front) := by
  obtain ⟨front, hfront, hposition⟩ := hd.exists_ofRead h.position_eq
  refine ⟨front, hfront, ?_, hposition⟩
  rw [h.text_eq, hfront, List.append_assoc]

theorem skip (h : c.StandsIn text done) (hc : c.rest = front ++ rest) {n : Nat}
    (hn : n = front.length) : (c.skip n).StandsIn text (done ++ front) := by
  obtain ⟨p, cs⟩ := c
  obtain ⟨htext, rfl⟩ := h
  subst hc hn
  rw [skip_ofRead]
  refine ⟨?_, rfl⟩
  rw [htext, List.append_assoc]

theorem skip_name (h : c.StandsIn text done) :
    (c.skip (c.rest.takeWhile Text.isNameChar).length).StandsIn text
      (done ++ (String.ofList (c.rest.takeWhile Text.isNameChar)).toList) :=
  h.skip (Scan.rest_eq_name_append c) (by rw [String.toList_ofList])

theorem hasAt (h : c.StandsIn text (done ++ [x])) : HasAt text c.position done x c.rest := by
  refine ⟨?_, h.position_eq⟩
  rw [h.text_eq, List.append_assoc]
  rfl

theorem hasAt_nextPosition (h : c.StandsIn text done) (hc : c.rest = x :: rest) :
    HasAt text c.nextPosition done x rest := by
  have hsplit : c.rest = [x] ++ rest := hc
  have hskip := (h.skip hsplit rfl).hasAt
  rw [rest_skip, hc] at hskip
  exact hskip

end StandsIn

end Cursor

namespace SyntaxError

variable {text done : List Char} {c : Cursor}

theorem pointsAt_end (htext : text ≠ []) (h : c.StandsIn text done) (hc : c.rest = []) :
    PointsAt text ⟨.unexpected none, c.position⟩ := by
  have hall : text = done := by rw [h.text_eq, hc, List.append_nil]
  obtain rfl | ⟨front, x, rfl⟩ := List.eq_nil_or_concat done
  · exact absurd hall htext
  · rw [List.concat_eq_append] at h
    have hlast := h.hasAt
    rw [hc] at hlast
    exact .inl ⟨front, x, hlast⟩

theorem pointsAt_read (htext : text ≠ []) (h : c.StandsIn text done) :
    PointsAt text ⟨.unexpected c.rest.head?, (c.skip 1).position⟩ := by
  cases hc : c.rest with
  | nil =>
    have hend := pointsAt_end htext h hc
    rw [Cursor.skip, hc]
    exact hend
  | cons x rest => exact .inl ⟨done, rest, h.hasAt_nextPosition hc⟩

end SyntaxError

theorem OpenUpTo.pointsAt {text rest : List Char} {p : Position} (h : OpenUpTo text p rest)
    (hrest : rest = [] ∨ ∃ xs, rest = '\n' :: xs) :
    SyntaxError.PointsAt text ⟨.unexpected rest.head?, p⟩ := by
  rcases hrest with rfl | ⟨xs, rfl⟩
  · exact .inr h
  · exact .inr ⟨rfl, xs, h⟩

namespace Scan

variable {α β : Type} {text done : List Char} {c d : Cursor} {e : SyntaxError} {key : String}
  {q : Char}

theorem map_eq_error {f : α → β} {x : Scan α} (h : (f <$> x) c = .error e d) :
    x c = .error e d := by
  rw [map_apply] at h
  split at h
  · cases h
  · cases h
    assumption

def Aims (text : List Char) (x : Scan α) : Prop :=
  ∀ done c e d, c.StandsIn text done → x c = .error e d → e.PointsAt text

theorem aims_total {x : Scan α} (h : ∀ c, ∃ a d, x c = .ok a d) : Aims text x := by
  intro done c e d _ he
  obtain ⟨a, d', ha⟩ := h c
  rw [ha] at he
  cases he

theorem aims_bind {x : Scan α} {f : α → Scan β} (hforward : Forward x) (hx : Aims text x)
    (hf : ∀ a, Aims text (f a)) : Aims text (x >>= f) := by
  intro done c e d hc he
  rcases bind_eq_error.1 he with he | ⟨a, d', ha, he⟩
  · exact hx done c e d hc he
  · obtain ⟨front, -, hd⟩ := hc.of_reaches (hforward.ok ha)
    exact hf a (done ++ front) d' e d hd he

theorem aims_ite {p : Prop} [Decidable p] {x y : Scan α} (hx : Aims text x) (hy : Aims text y) :
    Aims text (if p then x else y) := by
  split
  · exact hx
  · exact hy

theorem aims_many {item : Scan (Option α)} (hforward : Forward item) (hitem : Aims text item) :
    Aims text (many item) := by
  intro done c e d hc he
  fun_induction many item c generalizing done with
  | case1 c e' d' hi =>
    cases he
    exact hitem done c _ _ hc hi
  | case2 c d' hi => cases he
  | case3 c a d' hi hlt e' d'' hm ih =>
    cases he
    obtain ⟨front, -, hd⟩ := hc.of_reaches (hforward.ok hi)
    exact ih _ hd hm
  | case4 c a d' hi hlt as d'' hm ih => cases he
  | case5 c a d' hi hlt => cases he

theorem standsIn_of_expect {x : Char} (hc : c.StandsIn text done) (h : expect x c = .ok () d) :
    d.StandsIn text (done ++ [x]) := by
  obtain ⟨front, hfront, hd⟩ := hc.of_reaches ((forward_expect x).ok h)
  have hsplit : front ++ d.rest = [x] ++ d.rest := hfront.symm.trans (expect_eq_ok h)
  rwa [List.append_cancel_right hsplit] at hd

theorem expect_eq_error {x : Char} (h : expect x c = .error e d) :
    e = ⟨.unexpected c.rest.head?, (c.skip 1).position⟩ := by
  simp only [expect, bind_apply, read_apply, position_apply, require_apply] at h
  split at h
  · cases h
  · cases h
    rfl

section Braces

theorem pointsAt_mustacheBody (hc : c.StandsIn text (done ++ ['{', '{']))
    (he : mustacheBody c = .error e d) : e.PointsAt text := by
  have hopened : ∀ {front rest}, c.rest = front ++ rest →
      HasAt text c.position (done ++ ['{']) '{' (front ++ rest) := by
    intro front rest hrest
    rw [← hrest]
    apply Cursor.StandsIn.hasAt
    rwa [List.append_assoc]
  rcases body_cases c.rest with ⟨expression, rest, hbody⟩ | ⟨rest, hrest⟩ |
    ⟨front, rest, hrest, hbreak, hclose⟩ | ⟨hbreak, hclose⟩
  · obtain ⟨e', p, hread, -⟩ := hbody.yields.of_rest (c := c) rfl
    cases hread.symm.trans he
  · rw [mustacheBody_empty hrest] at he
    cases he
    have hsplit : c.rest = ['}', '}'] ++ rest := hrest
    have hclosed : (c.skip 2).StandsIn text ((done ++ ['{', '{', '}']) ++ ['}']) := by
      have hskip : (c.skip 2).StandsIn text (done ++ ['{', '{'] ++ ['}', '}']) :=
        hc.skip hsplit rfl
      rw [List.append_assoc] at hskip ⊢
      exact hskip
    have hposition : (c.skip 2).position = c.position.after ['}', '}'] := by
      rw [Cursor.skip, hrest]
      rfl
    rw [← hposition]
    exact ⟨done, _, hclosed.hasAt⟩
  · rw [mustacheBody_unclosed hbreak hclose (.inr ⟨rest, rfl⟩) hrest] at he
    cases he
    exact (OpenUpTo.mustache (hopened hrest) hbreak hclose).pointsAt (.inr ⟨rest, rfl⟩)
  · have hrest : c.rest = c.rest ++ [] := (List.append_nil _).symm
    rw [mustacheBody_unclosed hbreak hclose (.inl rfl) hrest] at he
    cases he
    exact (OpenUpTo.mustache (hopened hrest) hbreak hclose).pointsAt (.inl rfl)

theorem aims_embedded (q : Char) : Aims text (embedded q) := by
  intro done c e d hc he
  have hsplit := Text.before_append_drop (endsLiteral q) c.rest
  simp only [Pull.embedded_apply] at he
  split at he
  · rename_i hbraces
    split at he
    · cases he
    · rename_i e' d' hbody
      cases he
      obtain ⟨rest, hrest⟩ := List.isPrefixOf_iff_prefix.1 hbraces
      rw [← hrest, ← List.append_assoc] at hsplit
      have hopened := hc.skip hsplit.symm List.length_append.symm
      rw [← List.append_assoc] at hopened
      exact pointsAt_mustacheBody hopened hbody
  · cases he

theorem embedded_of_many {ps : List (List Char × String)} (h : many (embedded q) c = .ok ps d) :
    embedded q d = .ok none d := by
  fun_induction many (embedded q) c generalizing ps d with
  | case1 c e d' hi => cases h
  | case2 c d' hi =>
    cases h
    obtain rfl := embedded_eq_none hi
    exact hi
  | case3 c p d' hi hlt e d'' hm ih => cases h
  | case4 c p d' hi hlt ps d'' hm ih =>
    cases h
    exact ih hm
  | case5 c p d' hi hlt => exact absurd (Pull.length_lt_of_embedded hi) hlt

theorem ends_of_many {ps : List (List Char × String)} (h : many (embedded q) c = .ok ps d) :
    let rest := d.rest.drop (Text.before (endsLiteral q) d.rest).length
    rest.head? = some q ∨ rest = [] ∨ ∃ xs, rest = '\n' :: xs := by
  intro rest
  have hnone := embedded_of_many h
  have hdrop : rest = [] ∨ endsLiteral q rest = true := Text.drop_before (endsLiteral q) d.rest
  simp only [Pull.embedded_apply] at hnone
  split at hnone
  · split at hnone <;> cases hnone
  · rename_i hbraces
    change ¬ ['{', '{'].isPrefixOf rest = true at hbraces
    cases hrest : rest with
    | nil => exact .inr (.inl rfl)
    | cons x xs =>
      rw [hrest] at hdrop hbraces
      rcases hdrop with hnil | hends
      · cases hnil
      · rcases endsLiteral_eq_true hends with rfl | rfl | ⟨rfl, hbrace⟩
        · exact .inl rfl
        · exact .inr (.inr ⟨xs, rfl⟩)
        · obtain ⟨ys, rfl⟩ := List.head?_eq_some_iff.1 hbrace
          exact absurd rfl hbraces

theorem pointsAt_quotedValue (hkey : IsName key) (hq : q = '"' ∨ q = '\'')
    (hc : c.StandsIn text (done ++ key.toList ++ ['=', q]))
    (he : quotedValue q c = .error e d) : e.PointsAt text := by
  rw [Pull.quotedValue_eq, Pull.quotedEnd] at he
  split at he
  · rename_i ps d' hmany
    simp only at he
    split at he
    · cases he
    · rename_i hquote
      cases he
      rcases ends_of_many hmany with hclosed | hopen
      · exact absurd hclosed hquote
      · have hpieces := piecesAt_of_many hmany
        rw [← Text.before_append_drop (endsLiteral q) d'.rest] at hpieces
        have hopened : HasAt text c.position (done ++ key.toList ++ ['=']) q c.rest := by
          apply Cursor.StandsIn.hasAt
          rwa [List.append_assoc]
        have hliteral := isLiteral_before q d'.rest
        exact (OpenUpTo.value hopened hkey hq hpieces hliteral).pointsAt hopen
  · rename_i e' d' hmany
    cases he
    exact aims_many (forward_embedded q) (aims_embedded q) _ c _ _ hc hmany

end Braces

section Tags

variable (htext : text ≠ [])
include htext

theorem aims_expect (x : Char) : Aims text (expect x) := by
  intro done c e d hc he
  rw [expect_eq_error he]
  exact SyntaxError.pointsAt_read htext hc

theorem pointsAt_braced {f : String → β} (hc : c.StandsIn text (done ++ ['{']))
    (he : (expect '{' >>= fun _ => mustacheBody >>= fun s => pure (f s)) c = .error e d) :
    e.PointsAt text := by
  rcases bind_eq_error.1 he with he | ⟨⟨⟩, c', hexpect, he⟩
  · exact aims_expect htext '{' _ _ _ _ hc he
  · have hbraces := standsIn_of_expect hc hexpect
    rw [List.append_assoc] at hbraces
    rcases bind_eq_error.1 he with he | ⟨_, _, _, he⟩
    · exact pointsAt_mustacheBody hbraces he
    · cases he

theorem pointsAt_keyed (hc : c.StandsIn text done)
    (hstart : c.rest.head?.any Text.isNameStart = true) (he : keyed c = .error e d) :
    e.PointsAt text := by
  have hkey := isName_takeWhile hstart
  have hbehind := hc.skip_name
  rw [keyed, bind_of_ok (nextPosition_apply c), bind_of_ok (name_apply c)] at he
  generalize String.ofList (c.rest.takeWhile Text.isNameChar) = key at hkey hbehind he
  generalize c.skip (c.rest.takeWhile Text.isNameChar).length = k at hbehind he
  rw [bind_of_ok (peek_apply k)] at he
  split at he
  · cases he
  · rename_i hequals
    rw [bind_of_ok (skip_apply 1 k), bind_of_ok (read_apply _), Cursor.skip_skip] at he
    obtain ⟨xs, hxs⟩ := List.head?_eq_some_iff.1 (not_not.1 hequals)
    have hvalue : ∀ {x}, (k.skip 1).rest.head? = some x →
        (k.skip 2).StandsIn text (done ++ key.toList ++ ['=', x]) := by
      intro x hx
      have hrest : k.rest = ['=', x] ++ (k.skip 2).rest :=
        Cursor.rest_eq_cons_cons (not_not.1 hequals) hx
      exact hbehind.skip hrest rfl
    have hequal : k.rest = ['='] ++ xs := hxs
    have hread := SyntaxError.pointsAt_read htext (hbehind.skip hequal rfl)
    rw [Cursor.skip_skip] at hread
    generalize (k.skip 1).rest.head? = found at he hvalue hread
    split at he
    · have hbrace : (k.skip 2).StandsIn text (done ++ key.toList ++ (['='] ++ ['{'])) := hvalue rfl
      rw [← List.append_assoc] at hbrace
      exact pointsAt_braced htext hbrace he
    · rcases bind_eq_error.1 he with he | ⟨_, _, _, he⟩
      · exact pointsAt_quotedValue hkey (.inl rfl) (hvalue rfl) he
      · cases he
    · rcases bind_eq_error.1 he with he | ⟨_, _, _, he⟩
      · exact pointsAt_quotedValue hkey (.inr rfl) (hvalue rfl) he
      · cases he
    · rw [bind_of_ok (position_apply _)] at he
      cases he
      exact hread

theorem pointsAt_variadic (hc : c.StandsIn text done) (hdot : c.rest.head? = some '.')
    (he : variadic c = .error e d) : e.PointsAt text := by
  obtain ⟨xs, hxs⟩ := List.head?_eq_some_iff.1 hdot
  have hsplit : c.rest = ['.'] ++ xs := hxs
  have hbehind := hc.skip hsplit rfl
  rw [variadic, bind_of_ok (nextPosition_apply c), bind_of_ok (skip_apply 1 c),
    bind_of_ok (get_apply _)] at he
  rcases bind_eq_error.1 he with he | ⟨⟨⟩, c', hrequire, he⟩
  · rw [require_apply] at he
    split at he
    · cases he
    · cases he
      exact .inl ⟨done, xs, hc.hasAt_nextPosition hxs⟩
  · rw [require_apply] at hrequire
    split at hrequire
    · rename_i hdots
      cases hrequire
      obtain ⟨ys, hys⟩ := List.isPrefixOf_iff_prefix.1 hdots
      rw [bind_of_ok (skip_apply 2 _)] at he
      have hdots := hbehind.skip hys.symm rfl
      rcases bind_eq_error.1 he with he | ⟨⟨⟩, c', hexpect, he⟩
      · exact aims_expect htext '{' _ _ _ _ hdots he
      · exact pointsAt_braced htext (standsIn_of_expect hdots hexpect) he
    · cases hrequire

theorem aims_attribute? : Aims text attribute? := by
  intro done c e d hc he
  simp only [Pull.attribute?_apply] at he
  obtain ⟨front, -, hbehind⟩ :=
    hc.of_reaches (c.reaches_skip (c.rest.takeWhile Text.isBlank).length)
  generalize c.skip (c.rest.takeWhile Text.isBlank).length = k at hbehind he
  split at he
  · cases he
  · cases he
  · cases he
  · rename_i hdot
    exact pointsAt_variadic htext hbehind hdot (map_eq_error he)
  · rename_i x _ _ _ hx
    split at he
    · rename_i hstart
      refine pointsAt_keyed htext hbehind ?_ (map_eq_error he)
      rw [hx]
      exact hstart
    · cases he
      obtain ⟨xs, hxs⟩ := List.head?_eq_some_iff.1 hx
      exact .inl ⟨_, xs, hbehind.hasAt_nextPosition hxs⟩

theorem aims_attributes : Aims text attributes :=
  aims_bind forward_peek (aims_total fun _ => ⟨_, _, rfl⟩) fun _ =>
    aims_ite (aims_many forward_attribute? (aims_attribute? htext))
      (aims_total fun _ => ⟨_, _, rfl⟩)

theorem aims_startTag (start : Position) : Aims text (startTag start) := by
  intro done c e d hc he
  rw [Pull.startTag_eq, Pull.startTagEnd] at he
  have hname := hc.skip_name
  generalize c.skip (c.rest.takeWhile Text.isNameChar).length = k at hname he
  split at he
  · rename_i e' d' hattributes
    cases he
    exact aims_attributes htext _ k _ _ hname hattributes
  · rename_i as k' hattributes
    obtain ⟨front', -, hend⟩ := hname.of_reaches (forward_attributes.ok hattributes)
    simp only at he
    split at he
    · cases he
    · rename_i hslash
      split at he
      · cases he
      · rename_i hangle
        cases he
        obtain ⟨xs, hxs⟩ := List.head?_eq_some_iff.1 hslash
        refine ⟨_, xs, hend.hasAt_nextPosition hxs, ?_, hangle⟩
        rw [Cursor.rest_skip, hxs]
        rfl
    · cases he
      exact SyntaxError.pointsAt_read htext hend

theorem pointsAt_endTag (hc : c.StandsIn text (done ++ ['<', '/']))
    (he : endTag (.ofRead (done ++ ['<'])) c = .error e d) : e.PointsAt text := by
  have hname := hc.skip_name
  rw [endTag, bind_of_ok (name_apply c)] at he
  generalize String.ofList (c.rest.takeWhile Text.isNameChar) = name at hname he
  generalize c.skip (c.rest.takeWhile Text.isNameChar).length = k at hname he
  rcases bind_eq_error.1 he with he | ⟨⟨⟩, k', hexpect, he⟩
  · exact aims_expect htext '>' _ _ _ _ hname he
  · rcases bind_eq_error.1 he with he | ⟨⟨⟩, _, _, he⟩
    · rw [require_apply] at he
      split at he
      · cases he
      · rename_i hvoid
        cases he
        refine ⟨done, d.rest, ⟨?_, rfl⟩, eq_true_of_ne_false hvoid⟩
        rw [hname.text_eq, expect_eq_ok hexpect]
        simp
    · cases he

end Tags

theorem pointsAt_body {opening : Opening} (hc : c.StandsIn text done)
    (ho : Opening.of? c.rest = some opening)
    (he : body opening c.nextPosition (c.skip opening.width) = .error e d) : e.PointsAt text := by
  have hrest := Opening.rest_eq ho
  have htext : text ≠ [] := by
    rw [hc.text_eq, hrest]
    cases opening <;> simp [Opening.lead]
  cases opening with
  | endTag =>
    have hstart : c.rest = '<' :: '/' :: (c.skip 2).rest := hrest
    rw [(hc.hasAt_nextPosition hstart).position_eq] at he
    exact pointsAt_endTag htext (hc.skip hrest rfl) he
  | comment => cases he
  | startTag => exact aims_startTag htext _ _ _ _ _ (hc.skip hrest rfl) he
  | mustache =>
    rcases bind_eq_error.1 he with he | ⟨_, _, _, he⟩
    · exact pointsAt_mustacheBody (hc.skip hrest rfl) he
    · cases he

theorem aims_markup : Aims text markup := by
  intro done c e d hc he
  rw [markup_apply] at he
  split at he
  · cases he
  · obtain ⟨front, -, hrun⟩ := hc.of_reaches (c.reaches_skip (Text.before opens c.rest).length)
    rw [construct_apply] at he
    split at he
    · cases he
    · exact pointsAt_body hrun ‹_› he

theorem aims_rawText (htext : text ≠ []) (name : String) : Aims text (rawText name) := by
  intro done c e d hc he
  rw [rawText_apply] at he
  simp only at he
  split at he
  · split at he <;> cases he
  · rename_i hclose
    cases he
    obtain ⟨front, -, hrest⟩ :=
      hc.of_reaches (c.reaches_skip (Text.before (closingTag name).isPrefixOf c.rest).length)
    have hdrop := Text.drop_before (closingTag name).isPrefixOf c.rest
    exact SyntaxError.pointsAt_end htext hrest (hdrop.resolve_right hclose)

end Scan

namespace Reading

variable {text done : List Char} {s u : Reading} {l : Lexeme} {e : SyntaxError}

theorem rest_ne_nil_of_mode (h : s.next = (l, u)) (hmode : u.mode ≠ .markup) :
    s.cursor.rest ≠ [] := by
  cases l with
  | error e => exact absurd (mode_of_next_error h) hmode
  | ok t =>
    apply rest_ne_nil_of_next h
    intro hkind
    apply hmode
    rw [mode_of_next h, hkind]
    rfl

theorem pointsAt_of_next (hs : s.cursor.StandsIn text done) (hbody : s.mode ≠ .markup → text ≠ [])
    (h : s.next = (.error e, u)) : e.PointsAt text := by
  have haims : Scan.Aims text s.mode.token := by
    cases hmode : s.mode with
    | markup => exact Scan.aims_markup
    | rawText name =>
      apply Scan.aims_rawText
      apply hbody
      rw [hmode]
      exact Mode.noConfusion
  rw [next] at h
  split at h
  · cases h
  · cases h
    exact haims _ _ _ _ hs ‹_›

end Reading

namespace Playback

variable {source : String} {text done : List Char} {p q : Playback (Feed (Lookahead lookahead))}
  {s : Reading}

theorem StandsAt.standsIn (h : p.StandsAt text done s) : s.cursor.StandsIn text done := by
  refine ⟨?_, ?_⟩
  · rw [h.cursor_eq]
    exact h.text_eq
  · rw [h.cursor_eq]

structure Accounts (text : List Char) (p : Playback (Feed (Lookahead lookahead))) : Prop where
  stands : ∃ done s, p.StandsAt text done s ∧ (s.mode ≠ .markup → text ≠ [])
  recorded : ∀ e ∈ p.errors, e.PointsAt text

theorem Accounts.next {l : Lexeme} (h : p.Accounts text) (hfresh : p.replaying = false)
    (hq : p.next Feed.next = .ok (l, q)) : q.Accounts text := by
  obtain ⟨⟨done, s, hstands, hbody⟩, hrecorded⟩ := h
  obtain ⟨l', s', hnext⟩ : ∃ l s', s.next = (l, s') := ⟨_, _, rfl⟩
  obtain ⟨q', done', hq', hstands', -, -, herrors, -⟩ := hstands.next hfresh hnext
  obtain ⟨rfl, rfl⟩ := Prod.mk.inj (Except.ok.inj (hq.symm.trans hq'))
  refine ⟨⟨done', s', hstands', ?_⟩, ?_⟩
  · intro hmode htext
    have hne := Reading.rest_ne_nil_of_mode hnext hmode
    rw [hstands.standsIn.text_eq, List.append_eq_nil_iff] at htext
    exact hne htext.2
  · intro e he
    rw [herrors, List.mem_append] at he
    rcases he with he | he
    · exact hrecorded e he
    · cases l with
      | ok t => cases he
      | error e' =>
        obtain rfl := List.mem_singleton.1 he
        exact Reading.pointsAt_of_next hstands.standsIn hbody hnext

theorem Reached.accounts (h : p.Reached Feed.next (.ofString lookahead source)) :
    p.Accounts (Text.normalize source.toList) := by
  apply h.preserves (follows_ofString source).source
  · refine ⟨⟨[], _, Playback.standsAt_ofString source, ?_⟩, ?_⟩
    · intro hmode
      exact absurd rfl hmode
    · intro e he
      cases he
  · exact Accounts.next
  · rintro p b ⟨⟨done, s, hstands, hbody⟩, hrecorded⟩
    exact ⟨⟨done, s, hstands.replay b, hbody⟩, hrecorded⟩

end Playback

end Template
