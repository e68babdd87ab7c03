import Mathlib.Logic.Basic
import Template.Proofs.Tracking
import Template.Pull.Attribute
import Template.Scan.Forward

namespace Template

theorem Cursor.rest_skip_takeWhile (p : Char → Bool) (c : Cursor) :
    (c.skip (c.rest.takeWhile p).length).rest = c.rest.dropWhile p :=
  Text.drop_takeWhile p c.rest

theorem Cursor.rest_eq_cons_cons {c : Cursor} {x y : Char} (hx : c.rest.head? = some x)
    (hy : (c.skip 1).rest.head? = some y) : c.rest = x :: y :: (c.skip 2).rest := by
  obtain ⟨xs, hxs⟩ := List.head?_eq_some_iff.1 hx
  rw [Cursor.rest_skip, hxs] at hy
  obtain ⟨ys, hys⟩ := List.head?_eq_some_iff.1 hy
  change xs = y :: ys at hys
  rw [Cursor.rest_skip, hxs, hys]
  rfl

theorem Cursor.rest_eq_nil_or_cons (c : Cursor) : c.rest = [] ∨ ∃ x xs, c.rest = x :: xs := by
  cases c.rest with
  | nil => exact .inl rfl
  | cons x xs => exact .inr ⟨x, xs, rfl⟩

theorem isPrefixOf_pair_iff {a b : Char} {cs : List Char} :
    [a, b].isPrefixOf cs = true ↔ cs.head? = some a ∧ (cs.drop 1).head? = some b := by
  match cs with
  | [] => simp
  | [_] => simp [List.isPrefixOf]
  | x :: y :: _ => simp [List.isPrefixOf, @eq_comm _ a, @eq_comm _ b]

theorem Cursor.length_skip_lt {c : Cursor} {x : Char} {xs : List Char} {n : Nat}
    (hc : c.rest = x :: xs) (hn : 0 < n) : (c.skip n).rest.length < c.rest.length :=
  Reaches.length_lt (by rw [hc]; exact List.cons_ne_nil x xs) hn (reaches_refl _)

theorem Cursor.skip_of_nil {c : Cursor} (h : c.rest = []) (n : Nat) : c.skip n = c := by
  obtain ⟨p, cs⟩ := c
  subst h
  simp [skip]

namespace Pull

variable {ω : Type} [Window ω] [Tracking ω] {w : ω} {c : Cursor}

theorem pulls_expect (h : At w c 0) (x : Char) : Pulls (expect x) w (Ends (Scan.expect x c)) := by
  apply pulls_read h (by decide)
  intro w h
  simp only [List.drop_zero, Scan.expect, Scan.bind_apply, Scan.read_apply, Scan.position_apply,
    Scan.require]
  split
  · apply pulls_pure h
    simp [Ends]
  · apply pulls_position h
    intro w h
    apply pulls_fail h
    simp [Ends]

section Name

def nameEnd (taken : List Char) (c : Cursor) : EStateM.Result SyntaxError Cursor String :=
  .ok (String.ofList (taken.reverse ++ c.rest.takeWhile Text.isNameChar))
    (c.skip (c.rest.takeWhile Text.isNameChar).length)

theorem steps_name (taken : List Char) (h : At w c 0) :
    Pulls (nameStep taken) w (Steps nameEnd taken c) := by
  apply pulls_read h (by decide)
  intro w h
  rcases c.rest_eq_nil_or_cons with hc | ⟨x, xs, hc⟩
  · rw [hc]
    apply pulls_takeBack h (Nat.le_refl 1)
    intro w h
    apply pulls_return h
    simp [Steps, nameEnd, hc]
  · rw [hc]
    simp only [List.drop_zero, List.head?_cons]
    split
    · rename_i hx
      apply pulls_pure h
      constructor
      · simp [hc]
      · simp [nameEnd, hc, hx, Nat.add_comm 1]
    · rename_i hx
      apply pulls_takeBack h (Nat.le_refl 1)
      intro w h
      apply pulls_return h
      simp [Steps, nameEnd, hc, hx]

theorem pulls_name (h : At w c 0) : Pulls name w (Ends (Scan.name c)) := by
  have hspec : Scan.name c = nameEnd [] c := by
    simp [Scan.name, nameEnd]
  rw [hspec]
  exact pulls_loop (fun taken _ _ h => steps_name taken h) [] h

def blanksEnd (_ : Unit) (c : Cursor) : EStateM.Result SyntaxError Cursor Unit :=
  .ok () (c.skip (c.rest.takeWhile Text.isBlank).length)

theorem steps_blank (h : At w c 0) : Pulls (blankStep ()) w (Steps blanksEnd () c) := by
  apply pulls_read h (by decide)
  intro w h
  rcases c.rest_eq_nil_or_cons with hc | ⟨x, xs, hc⟩
  · rw [hc]
    apply pulls_pure h
    simp [Steps, blanksEnd, hc, Cursor.skip_of_nil]
  · rw [hc]
    simp only [List.drop_zero, List.head?_cons]
    split
    · rename_i hx
      apply pulls_pure h
      constructor
      · simp [hc]
      · simp [blanksEnd, hc, hx, Nat.add_comm 1]
    · rename_i hx
      apply pulls_takeBack h (Nat.le_refl 1)
      intro w h
      apply pulls_return h
      simp [Steps, blanksEnd, hc, hx]

theorem pulls_skipBlanks (h : At w c 0) : Pulls skipBlanks w (Ends (blanksEnd () c)) :=
  pulls_loop (fun _ _ _ h => steps_blank h) () h

end Name

section Mustache

def mustacheEnd (opened : Position) (taken : List Char) (c : Cursor) :
    EStateM.Result SyntaxError Cursor String :=
  let body := Text.before Scan.endsMustache c.rest
  let d := c.skip body.length
  match d.rest.head? with
  | some '}' =>
    let e := d.skip 2
    if taken.reverse ++ body = [] then .error ⟨.emptyMustache, e.position⟩ e
    else .ok (String.ofList (taken.reverse ++ body)) e
  | found => .error ⟨.unexpected found, opened⟩ (d.skip 1)

theorem mustacheEnd_cons {opened : Position} {taken : List Char} {x : Char} {xs : List Char}
    (hc : c.rest = x :: xs) (hx : Scan.endsMustache (x :: xs) = false) :
    mustacheEnd opened taken c = mustacheEnd opened (x :: taken) (c.skip 1) := by
  simp [mustacheEnd, hc, Text.before_of_neg hx, Nat.add_comm 1]

theorem mustacheBody_eq (c : Cursor) : Scan.mustacheBody c = mustacheEnd c.position [] c := by
  simp only [Scan.mustacheBody, mustacheEnd, Scan.bind_apply, Scan.position_apply,
    Scan.takeBefore_apply, Scan.read_apply, List.reverse_nil, List.nil_append]
  generalize Text.before Scan.endsMustache c.rest = body
  generalize (c.skip body.length).rest.head? = found
  by_cases hfound : found = some '}'
  · subst hfound
    by_cases hbody : body = [] <;> simp [Scan.require, hbody]
  · simp

theorem steps_mustache (opened : Position) (taken : List Char) (h : At w c 0) :
    Pulls (mustacheStep opened taken) w (Steps (mustacheEnd opened) taken c) := by
  apply pulls_read h (by decide)
  intro w h
  rcases c.rest_eq_nil_or_cons with hc | ⟨x, xs, hc⟩
  · rw [hc]
    apply pulls_fail h
    simp [Steps, mustacheEnd, hc]
  · rw [hc]
    simp only [List.drop_zero, List.head?_cons]
    split
    · contradiction
    · rename_i heq
      cases heq
      apply pulls_fail h
      have hbefore : Text.before Scan.endsMustache ('\n' :: xs) = [] := Text.before_of_pos rfl
      simp [Steps, mustacheEnd, hc, hbefore]
    · rename_i heq
      cases heq
      apply pulls_read h (by decide)
      intro w h
      rw [hc, List.drop_succ_cons, List.drop_zero]
      split
      · rename_i hhead
        obtain ⟨ys, rfl⟩ := List.head?_eq_some_iff.1 hhead
        have hbefore : Text.before Scan.endsMustache ('}' :: '}' :: ys) = [] :=
          Text.before_of_pos rfl
        split
        · rename_i htaken
          apply pulls_position h
          intro w h
          apply pulls_fail h
          simp [Steps, mustacheEnd, hc, hbefore, htaken]
        · rename_i htaken
          apply pulls_pure h
          simp [Steps, mustacheEnd, hc, hbefore, htaken]
      · rename_i hhead
        apply pulls_takeBack h (by decide)
        intro w h
        apply pulls_pure h
        constructor
        · simp [hc]
        · apply mustacheEnd_cons hc
          simpa [Scan.endsMustache_cons] using hhead
    · rename_i x' hbreak hbrace heq
      cases heq
      apply pulls_pure h
      constructor
      · simp [hc]
      · apply mustacheEnd_cons hc
        rw [Scan.endsMustache_cons, decide_eq_false hbreak, decide_eq_false hbrace]
        rfl

theorem pulls_mustacheBody (h : At w c 0) :
    Pulls mustacheBody w (Ends (Scan.mustacheBody c)) := by
  rw [mustacheBody_eq]
  apply pulls_position h
  intro w h
  rw [Cursor.skip_zero]
  exact pulls_loop (fun taken _ _ h => steps_mustache _ taken h) [] h

end Mustache

section Quoted

open Scan (many many_of_some many_of_none many_of_error embedded endsLiteral)

variable {q : Char}

theorem embedded_apply (q : Char) (c : Cursor) :
    embedded q c =
      let literal := Text.before (endsLiteral q) c.rest
      if ['{', '{'].isPrefixOf (c.rest.drop literal.length) then
        match Scan.mustacheBody (c.skip (literal.length + 2)) with
        | .ok e d => .ok (some (literal, e)) d
        | .error e d => .error e d
      else .ok none c := by
  simp only [embedded, Scan.bind_apply, Scan.get_apply]
  split
  · simp only [Scan.bind_apply, Scan.skip_apply]
    cases Scan.mustacheBody (c.skip ((Text.before (endsLiteral q) c.rest).length + 2)) <;> rfl
  · rfl

theorem length_lt_of_embedded {p : List Char × String} {d : Cursor}
    (h : embedded q c = .ok (some p) d) : d.rest.length < c.rest.length := by
  simp only [embedded_apply] at h
  split at h
  · rename_i hbraces
    have hne : c.rest ≠ [] := by
      rintro hnil
      rw [hnil] at hbraces
      cases hbraces
    split at h
    · rename_i e d' he
      cases h
      exact Cursor.Reaches.length_lt hne (by omega) (Scan.forward_mustacheBody.ok he)
    · cases h
  · cases h

def quotedEnd (q : Char) (opened : Position) (taken : List Char × List String) (c : Cursor) :
    EStateM.Result SyntaxError Cursor (String × List String) :=
  match many (embedded q) c with
  | .ok pieces d =>
    let literal := Text.before (endsLiteral q) d.rest
    let value := taken.1.reverse ++ (pieces.flatMap (fun p => p.1 ++ placeholder) ++ literal)
    let e := d.skip literal.length
    if e.rest.head? = some q then
      .ok (String.ofList (CharRef.decode .attribute value), taken.2 ++ pieces.map (·.2)) (e.skip 1)
    else .error ⟨.unexpected e.rest.head?, opened⟩ (e.skip 1)
  | .error e d => .error e d

theorem quotedValue_eq (q : Char) (c : Cursor) :
    Scan.quotedValue q c = quotedEnd q c.position ([], []) c := by
  rw [Scan.quotedValue, Scan.bind_apply, Scan.position_apply]
  refine (Scan.bind_apply (many (embedded q)) _ c).trans ?_
  rw [quotedEnd]
  cases many (embedded q) c with
  | error e d => rfl
  | ok pieces d =>
    simp only [Scan.bind_apply, Scan.takeBefore_apply, Scan.read_apply, Scan.require_apply]
    by_cases hq : (d.skip (Text.before (endsLiteral q) d.rest).length).rest.head? = some q
    · rw [if_pos hq, if_pos hq]
      rfl
    · rw [if_neg hq, if_neg hq]

theorem quotedEnd_cons {opened : Position} {taken : List Char × List String} {x : Char}
    {xs : List Char} (hc : c.rest = x :: xs) (hx : endsLiteral q (x :: xs) = false) :
    quotedEnd q opened taken c = quotedEnd q opened (x :: taken.1, taken.2) (c.skip 1) := by
  have hhere := embedded_apply q c
  have hnext := embedded_apply q (c.skip 1)
  simp only [hc, Text.before_of_neg hx, List.length_cons, List.drop_succ_cons, Cursor.rest_skip,
    List.drop_zero, Cursor.skip_skip] at hhere hnext
  rw [show 1 + ((Text.before (endsLiteral q) xs).length + 2) =
    (Text.before (endsLiteral q) xs).length + 1 + 2 by omega] at hnext
  split at hhere
  · rename_i hbraces
    rw [if_pos hbraces] at hnext
    split at hhere
    · rename_i e d he
      rw [he] at hnext
      rw [quotedEnd, quotedEnd, many_of_some hhere (length_lt_of_embedded hhere),
        many_of_some hnext (length_lt_of_embedded hnext)]
      cases many (embedded q) d <;> simp
    · rename_i e d he
      rw [he] at hnext
      rw [quotedEnd, quotedEnd, many_of_error hhere, many_of_error hnext]
  · rename_i hbraces
    rw [if_neg hbraces] at hnext
    rw [quotedEnd, quotedEnd, many_of_none hhere, many_of_none hnext]
    simp [hc, Text.before_of_neg hx, Nat.add_comm 1]

theorem quotedEnd_braces {opened : Position} {taken : List Char × List String} {xs : List Char}
    (hc : c.rest = '{' :: '{' :: xs) :
    quotedEnd q opened taken c = match Scan.mustacheBody (c.skip 2) with
      | .ok e d => quotedEnd q opened (placeholder.reverse ++ taken.1, taken.2 ++ [e]) d
      | .error e d => .error e d := by
  have hhere := embedded_apply q c
  have hbefore : Text.before (endsLiteral q) ('{' :: '{' :: xs) = [] := Text.before_of_pos rfl
  simp only [hc, hbefore, List.length_nil, List.drop_zero, Nat.zero_add] at hhere
  rw [if_pos (show ['{', '{'].isPrefixOf ('{' :: '{' :: xs) = true from rfl)] at hhere
  split at hhere
  · rename_i e d he
    rw [quotedEnd, many_of_some hhere (length_lt_of_embedded hhere)]
    simp only [quotedEnd]
    cases many (embedded q) d <;> simp
  · rename_i e d he
    rw [quotedEnd, many_of_error hhere]

theorem quotedEnd_stop {opened : Position} {taken : List Char × List String}
    (hbefore : Text.before (endsLiteral q) c.rest = [])
    (hbraces : ['{', '{'].isPrefixOf c.rest = false) :
    quotedEnd q opened taken c =
      if c.rest.head? = some q then
        .ok (String.ofList (CharRef.decode .attribute taken.1.reverse), taken.2) (c.skip 1)
      else .error ⟨.unexpected c.rest.head?, opened⟩ (c.skip 1) := by
  have hhere := embedded_apply q c
  simp only [hbefore, List.length_nil, List.drop_zero, hbraces] at hhere
  rw [if_neg Bool.false_ne_true] at hhere
  rw [quotedEnd, many_of_none hhere]
  simp [hbefore]

theorem pulls_quotedStep_braces (q : Char) (opened : Position)
    (taken : List Char × List String) {xs : List Char} (hc : c.rest = '{' :: '{' :: xs)
    (h : At w c 0) : Pulls (quotedStep q opened taken) w fun o d => ∃ o',
      Ends (Scan.mustacheBody (c.skip 2)) o' d ∧
        o = o'.map fun e => .inl (placeholder.reverse ++ taken.1, taken.2 ++ [e]) := by
  apply pulls_read h (by decide)
  intro w h
  rw [hc]
  apply pulls_read h (by decide)
  intro w h
  rw [hc, List.drop_succ_cons, List.drop_zero, List.head?_cons, if_pos rfl]
  exact pulls_map (pulls_mustacheBody h.here)

theorem steps_quoted_braces (opened : Position) (taken : List Char × List String) {xs : List Char}
    (hc : c.rest = '{' :: '{' :: xs) (h : At w c 0) :
    Pulls (quotedStep q opened taken) w (Steps (quotedEnd q opened) taken c) := by
  obtain ⟨found, w', d, hstep, hd, o, hends, rfl⟩ := pulls_quotedStep_braces q opened taken hc h
  refine ⟨_, w', d, hstep, hd, ?_⟩
  cases o with
  | ok e =>
    simp only [Ends] at hends
    have hlt := Cursor.Reaches.length_lt (c := c) (by rw [hc]; exact List.cons_ne_nil _ _)
      (by omega) (Scan.forward_mustacheBody.ok hends)
    refine ⟨hlt, ?_⟩
    rw [quotedEnd_braces hc, hends]
  | error e =>
    simp only [Ends] at hends
    rw [Except.map, Steps, quotedEnd_braces hc, hends]

theorem steps_quoted (hbrace : q ≠ '{') (hbreak : q ≠ '\n') (opened : Position)
    (taken : List Char × List String) (h : At w c 0) :
    Pulls (quotedStep q opened taken) w (Steps (quotedEnd q opened) taken c) := by
  by_cases hbraces : ∃ xs, c.rest = '{' :: '{' :: xs
  · obtain ⟨xs, hc⟩ := hbraces
    exact steps_quoted_braces opened taken hc h
  apply pulls_read h (by decide)
  intro w h
  rcases c.rest_eq_nil_or_cons with hc | ⟨x, xs, hc⟩
  · rw [hc]
    apply pulls_fail h
    rw [Steps, quotedEnd_stop (by rw [hc]; rfl) (by rw [hc]; rfl), hc]
    rfl
  have hends := Scan.endsLiteral_cons q x xs
  rw [hc]
  simp only [List.drop_zero, List.head?_cons]
  split
  · contradiction
  · rename_i heq
    cases heq
    apply pulls_fail h
    rw [Steps, quotedEnd_stop (by rw [hc, Text.before_of_pos (by simp [hends])])
      (by rw [hc]; rfl), hc, List.head?_cons,
      if_neg (fun heq => hbreak (Option.some.inj heq).symm)]
  · rename_i heq
    cases heq
    have hhead : xs.head? ≠ some '{' := by
      intro hhead
      obtain ⟨ys, rfl⟩ := List.head?_eq_some_iff.1 hhead
      exact hbraces ⟨ys, hc⟩
    apply pulls_read h (by decide)
    intro w h
    rw [hc, List.drop_succ_cons, List.drop_zero, if_neg hhead]
    apply pulls_takeBack h (by decide)
    intro w h
    apply pulls_pure h
    refine ⟨by simp [hc], quotedEnd_cons hc ?_⟩
    simp [hends, hhead, hbrace.symm]
  · rename_i x' hbreak' hbrace' heq
    cases heq
    have hplain : ['{', '{'].isPrefixOf (x :: xs) = false := by
      simp [List.isPrefixOf, Ne.symm hbrace']
    split
    · rename_i hx
      subst hx
      apply pulls_pure h
      rw [Steps, quotedEnd_stop (by rw [hc, Text.before_of_pos (by simp [hends])])
        (by rw [hc, hplain]), hc, List.head?_cons, if_pos rfl]
    · rename_i hx
      apply pulls_pure h
      refine ⟨by simp [hc], quotedEnd_cons hc ?_⟩
      rw [hends, decide_eq_false hbrace', decide_eq_false hx, decide_eq_false hbreak']
      rfl

theorem pulls_quotedValue (hbrace : q ≠ '{') (hbreak : q ≠ '\n') (h : At w c 0) :
    Pulls (quotedValue q) w (Ends (Scan.quotedValue q c)) := by
  rw [quotedValue_eq]
  apply pulls_position h
  intro w h
  rw [Cursor.skip_zero]
  exact pulls_loop (fun taken _ _ h => steps_quoted hbrace hbreak _ taken h) ([], []) h

end Quoted

section Attributes

theorem pulls_keyed (h : At w c 0) :
    Pulls (keyed c.nextPosition) w (Ends (Scan.keyed c)) := by
  rw [Scan.keyed, Scan.bind_apply, Scan.nextPosition_apply]
  apply pulls_along (pulls_name h)
  intro key w d h _
  rw [Scan.bind_apply, Scan.peek_apply]
  apply pulls_read h (by decide)
  intro w h
  rw [List.drop_zero]
  by_cases hd : d.rest.head? = some '='
  · simp only [hd, if_true, ne_eq, not_true, if_false, Scan.bind_apply, Scan.skip_apply,
      Scan.read_apply]
    apply pulls_read h.here (by decide)
    intro w h
    rw [Nat.zero_add, List.drop_zero] at *
    generalize (d.skip 1).rest.head? = found
    by_cases hbrace : found = some '{'
    · subst hbrace
      apply pulls_along (pulls_expect h.here _)
      intro _ w d h _
      apply pulls_along (pulls_mustacheBody h)
      intro expression w d h _
      exact pulls_return h rfl
    by_cases hdouble : found = some '"'
    · subst hdouble
      apply pulls_along (pulls_quotedValue (by decide) (by decide) h.here)
      intro value w d h _
      exact pulls_return h rfl
    by_cases hsingle : found = some '\''
    · subst hsingle
      apply pulls_along (pulls_quotedValue (by decide) (by decide) h.here)
      intro value w d h _
      exact pulls_return h rfl
    simp only
    apply pulls_position h
    intro w h
    exact pulls_fail h rfl
  · rw [if_neg hd]
    apply pulls_takeBack h (Nat.le_refl 1)
    intro w h
    apply pulls_return h
    simp only [ne_eq, hd, not_false_eq_true, if_true]
    rfl

theorem pulls_variadic (h : At w (c.skip 1) 0) :
    Pulls (variadic c.nextPosition) w (Ends (Scan.variadic c)) := by
  rw [Scan.variadic, Scan.bind_of_ok (Scan.nextPosition_apply c),
    Scan.bind_of_ok (Scan.skip_apply 1 c), Scan.bind_of_ok (Scan.get_apply _)]
  apply pulls_read h (by decide)
  intro w h
  apply pulls_read h (by decide)
  intro w h
  rw [List.drop_zero]
  rw [Nat.zero_add]
  by_cases hdots : ['.', '.'].isPrefixOf (c.skip 1).rest = true
  · rw [if_pos (isPrefixOf_pair_iff.1 hdots),
      Scan.bind_of_ok ((Scan.require_apply _ _ _ _).trans (if_pos hdots)),
      Scan.bind_of_ok (Scan.skip_apply 2 _)]
    apply pulls_along (pulls_expect h.here _)
    intro _ w d h _
    apply pulls_along (pulls_expect h _)
    intro _ w d h _
    apply pulls_along (pulls_mustacheBody h)
    intro expression w d h _
    exact pulls_return h rfl
  · rw [if_neg (mt isPrefixOf_pair_iff.2 hdots)]
    apply pulls_takeBack h (Nat.le_refl 2)
    intro w h
    apply pulls_fail h
    rw [Scan.bind_apply, Scan.require_apply, if_neg hdots]
    rfl

open Scan (many many_of_some many_of_none many_of_error attribute?)

theorem attribute?_apply (c : Cursor) :
    attribute? c =
      let d := c.skip (c.rest.takeWhile Text.isBlank).length
      match d.rest.head? with
      | none | some '>' | some '/' => .ok none d
      | some '.' => (some <$> Scan.variadic) d
      | some x =>
        if Text.isNameStart x then (some <$> Scan.keyed) d
        else .error ⟨.unexpected (some x), d.nextPosition⟩ (d.skip 1) := by
  simp only [attribute?, Scan.bind_apply, Scan.takeWhile_apply, Scan.peek_apply]
  generalize c.skip (c.rest.takeWhile Text.isBlank).length = d
  generalize d.rest.head? = found
  split
  · rfl
  · rfl
  · rfl
  · rfl
  · split <;> simp_all [Cursor.nextPosition]

theorem length_lt_of_some_map {y : Scan Attribute} {a : Attribute} {d e : Cursor}
    (h : (some <$> y) e = .ok (some a) d) (hlt : (Scan.stop y e).rest.length < e.rest.length) :
    d.rest.length < e.rest.length := by
  rw [Scan.map_apply] at h
  split at h
  · rename_i hy
    cases h
    rwa [Scan.stop_of_ok hy] at hlt
  · cases h

theorem length_lt_of_attribute? {a : Attribute} {d : Cursor} (h : attribute? c = .ok (some a) d) :
    d.rest.length < c.rest.length := by
  simp only [attribute?_apply] at h
  have hle := (c.reaches_skip (c.rest.takeWhile Text.isBlank).length).length_le
  generalize c.skip (c.rest.takeWhile Text.isBlank).length = e at h hle
  refine Nat.lt_of_lt_of_le ?_ hle
  split at h
  · cases h
  · cases h
  · cases h
  · rename_i hhead
    obtain ⟨xs, hxs⟩ := List.head?_eq_some_iff.1 hhead
    apply length_lt_of_some_map h
    exact Cursor.Reaches.length_lt (by rw [hxs]; exact List.cons_ne_nil _ _) (by decide)
      (Scan.reaches_variadic e)
  · split at h
    · rename_i x _ _ _ hhead hx
      obtain ⟨xs, hxs⟩ := List.head?_eq_some_iff.1 hhead
      have hpos : 0 < (e.rest.takeWhile Text.isNameChar).length := by
        simp [hxs, Text.isNameChar_of_isNameStart hx]
      apply length_lt_of_some_map h
      exact Cursor.Reaches.length_lt (by rw [hxs]; exact List.cons_ne_nil _ _) hpos
        (Scan.reaches_keyed e)
    · cases h

theorem eq_skip_of_attribute?_eq_none {d : Cursor} (h : attribute? c = .ok none d) :
    d = c.skip (c.rest.takeWhile Text.isBlank).length := by
  simp only [attribute?_apply] at h
  split at h
  · cases h
    rfl
  · cases h
    rfl
  · cases h
    rfl
  · rw [Scan.map_apply] at h
    split at h <;> cases h
  · split at h
    · rw [Scan.map_apply] at h
      split at h <;> cases h
    · cases h

theorem head?_of_attribute?_eq_none {d : Cursor} (h : attribute? c = .ok none d) :
    d.rest.head?.any Text.isBlank = false := by
  rw [eq_skip_of_attribute?_eq_none h, Cursor.rest_skip_takeWhile, Text.head?_dropWhile]

def attributesEnd (taken : List Attribute) (c : Cursor) :
    EStateM.Result SyntaxError Cursor (List Attribute) :=
  match many attribute? c with
  | .ok as d => .ok (taken ++ as) d
  | .error e d => .error e d

theorem attributesEnd_of_some {taken : List Attribute} {a : Attribute} {d : Cursor}
    (h : attribute? c = .ok (some a) d) :
    attributesEnd taken c = attributesEnd (taken ++ [a]) d := by
  rw [attributesEnd, attributesEnd, many_of_some h (length_lt_of_attribute? h)]
  cases many attribute? d <;> simp

theorem attributesEnd_of_none {taken : List Attribute} {d : Cursor}
    (h : attribute? c = .ok none d) : attributesEnd taken c = .ok taken d := by
  rw [attributesEnd, many_of_none h]
  exact congrArg (EStateM.Result.ok · d) (List.append_nil taken)

theorem attributesEnd_of_error {taken : List Attribute} {e : SyntaxError} {d : Cursor}
    (h : attribute? c = .error e d) : attributesEnd taken c = .error e d := by
  rw [attributesEnd, many_of_error h]

theorem steps_item {x : Pull ω Attribute} {y : Scan Attribute} {d : Cursor}
    (taken : List Attribute) (hitem : attribute? c = (some <$> y) d)
    (hx : Pulls x w (Ends (y d))) :
    Pulls (x >>= fun a => pure (.inl (taken ++ [a]))) w (Steps attributesEnd taken c) := by
  rw [Scan.map_apply] at hitem
  refine pulls_bind hx ?_ ?_
  · intro a w e h ha
    apply pulls_return h
    rw [ha] at hitem
    exact ⟨length_lt_of_attribute? hitem, attributesEnd_of_some hitem⟩
  · intro e d he
    rw [he] at hitem
    exact attributesEnd_of_error hitem

theorem steps_attribute (taken : List Attribute) (h : At w c 0) :
    Pulls (attributeStep taken) w (Steps attributesEnd taken c) := by
  refine pulls_bind (pulls_skipBlanks h) ?_ ?_
  · intro _ w d h hd
    have hitem := attribute?_apply c
    cases hd
    generalize c.skip (c.rest.takeWhile Text.isBlank).length = d at h hitem
    apply pulls_read h (by decide)
    intro w h
    apply pulls_position h
    intro w h
    rw [List.drop_zero]
    simp only at hitem
    generalize hfound : d.rest.head? = found at hitem
    split
    · apply pulls_return h.here
      rw [List.head?_eq_none_iff] at hfound
      rw [Steps, attributesEnd_of_none hitem, Cursor.skip_of_nil hfound]
    · exact steps_item taken hitem (pulls_variadic h.here)
    · apply pulls_takeBack h (Nat.le_refl 1)
      intro w h
      apply pulls_return h
      exact attributesEnd_of_none hitem
    · apply pulls_takeBack h (Nat.le_refl 1)
      intro w h
      apply pulls_return h
      exact attributesEnd_of_none hitem
    · rename_i x hdot hclose hslash
      simp only at hitem
      split
      · rename_i hx
        rw [if_pos hx] at hitem
        apply pulls_takeBack h (Nat.le_refl 1)
        intro w h
        exact steps_item taken hitem (pulls_keyed h)
      · rename_i hx
        rw [if_neg hx] at hitem
        apply pulls_fail h
        exact attributesEnd_of_error hitem
  · intro e d he
    cases he

theorem pulls_attributes (taken : List Attribute) (h : At w c 0) :
    Pulls (loop attributeStep taken) w (Ends (attributesEnd taken c)) :=
  pulls_loop (fun taken _ _ h => steps_attribute taken h) taken h

theorem head?_of_attributesEnd {taken as : List Attribute} {d : Cursor}
    (h : attributesEnd taken c = .ok as d) : d.rest.head?.any Text.isBlank = false := by
  generalize hn : c.rest.length = n
  induction n using Nat.strongRecOn generalizing c taken with
  | ind n ih =>
    cases hitem : attribute? c with
    | error e d' =>
      rw [attributesEnd_of_error hitem] at h
      cases h
    | ok a? d' =>
      cases a? with
      | some a =>
        rw [attributesEnd_of_some hitem] at h
        exact ih _ (hn ▸ length_lt_of_attribute? hitem) h rfl
      | none =>
        rw [attributesEnd_of_none hitem] at h
        cases h
        exact head?_of_attribute?_eq_none hitem

theorem many_attribute?_skip {x : Char} {xs : List Char} (hc : c.rest = x :: xs)
    (hx : Text.isBlank x = true) : many attribute? c = many attribute? (c.skip 1) := by
  have hitem : attribute? c = attribute? (c.skip 1) := by
    simp [attribute?_apply, hc, hx, Nat.add_comm 1]
  cases hnext : attribute? (c.skip 1) with
  | error e d => rw [many_of_error hnext, many_of_error (hitem.trans hnext)]
  | ok a? d =>
    cases a? with
    | none => rw [many_of_none hnext, many_of_none (hitem.trans hnext)]
    | some a =>
      rw [many_of_some hnext (length_lt_of_attribute? hnext),
        many_of_some (hitem.trans hnext) (length_lt_of_attribute? (hitem.trans hnext))]

theorem reaches_of_attributesEnd {taken as : List Attribute} {d : Cursor}
    (h : attributesEnd taken c = .ok as d) : c.Reaches d := by
  rw [attributesEnd] at h
  split at h
  · rename_i more d' hmany
    cases h
    exact (Scan.forward_many Scan.forward_attribute?).ok (x := many attribute?) hmany
  · cases h

theorem attributes_apply (c : Cursor) :
    Scan.attributes c =
      if c.rest.head?.any Text.isBlank then many attribute? c else .ok [] c := by
  refine (Scan.bind_of_ok (Scan.peek_apply c)).trans ?_
  cases c.rest.head?.any Text.isBlank <;> rfl

end Attributes

end Pull

end Template
