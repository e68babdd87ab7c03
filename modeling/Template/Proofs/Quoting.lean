import Template.Proofs.Decoding
import Template.Proofs.Leftmost
import Template.Proofs.Rescan

/-! What is accepted as a mustache and as a value in quotes.  A value is made of literal parts with
mustaches between them, and each literal part is decoded by itself. -/

namespace Template.Scan

open CharRef (decode)

section Mustache

variable {cs rest : List Char} {e : String} {c d : Cursor}

/-- The text starts with an expression, which the first pair of closing braces ends. -/
structure MustacheAt (cs : List Char) (e : String) (rest : List Char) : Prop where
  first : Text.First ['}', '}'] cs e.toList rest
  ne_nil : e.toList ≠ []
  no_break : '\n' ∉ e.toList

theorem MustacheAt.before_eq (h : MustacheAt cs e rest) :
    Text.before endsMustache cs = e.toList := by
  rw [h.first.eq]
  apply Text.before_append_stop
  · intro n hn
    rw [← Bool.not_eq_true]
    intro hends
    rcases endsMustache_eq_true hends with ⟨s, hs⟩ | ⟨s, hs⟩
    · have hmem : '\n' ∈ e.toList := by
        rw [List.drop_append_of_le_length (Nat.le_of_lt hn), List.drop_eq_getElem_cons hn] at hs
        rw [← (List.cons.inj hs).1]
        exact List.getElem_mem hn
      exact h.no_break hmem
    · rw [← h.first.eq] at hs
      have hsplit : cs = cs.take n ++ (['}', '}'] ++ s) := by
        rw [List.cons_append, List.cons_append, List.nil_append, ← hs, List.take_append_drop]
      have hle := h.first.least _ _ hsplit
      rw [List.length_take] at hle
      omega
  · exact .inr rfl

theorem MustacheAt.yields (h : MustacheAt cs e rest) : Yields mustacheBody cs rest (· = e) := by
  have hbefore := h.before_eq
  rw [h.first.eq] at hbefore ⊢
  exact yields_mustacheBody_of_before h.ne_nil hbefore

theorem mustacheAt_of_ok (h : mustacheBody c = .ok e d) : MustacheAt c.rest e d.rest := by
  obtain ⟨hne, hbefore, rest, hrest⟩ := mustacheBody_eq_ok h
  have hquiet : ∀ u v, c.rest = u ++ v → u.length < e.toList.length → endsMustache v = false := by
    intro u v huv hlt
    rw [← hbefore] at hlt
    exact Text.eq_false_of_before huv hlt
  obtain ⟨e', q, hbody, rfl⟩ := yields_mustacheBody_of_before hne (hrest ▸ hbefore) c.position
  rw [← hrest, h] at hbody
  cases hbody
  refine ⟨⟨hrest, ?_⟩, hne, ?_⟩
  · intro u v huv
    by_contra hlt
    have hends := hquiet u _ huv (Nat.lt_of_not_le hlt)
    cases hends
  · intro hmem
    obtain ⟨u, v, huv⟩ := List.append_of_mem hmem
    have hends := hquiet u ('\n' :: v ++ '}' :: '}' :: rest)
      (by rw [hrest, huv, List.append_assoc]) (by rw [huv, List.length_append]; simp)
    cases hends

end Mustache

section Literal

variable {q x : Char} {l cs tail : List Char}

/-- A part of a value in quotes `q` in which nothing ends the value and no mustache starts. -/
structure IsLiteral (q : Char) (l : List Char) : Prop where
  no_quote : q ∉ l
  no_break : '\n' ∉ l
  no_open : ¬ ['{', '{'] <:+: l

theorem IsLiteral.of_cons (h : IsLiteral q (x :: l)) : IsLiteral q l :=
  ⟨fun hq => h.no_quote (List.mem_cons_of_mem x hq),
    fun hbreak => h.no_break (List.mem_cons_of_mem x hbreak),
    fun hopen => h.no_open (List.infix_cons hopen)⟩

theorem IsLiteral.before_eq (h : IsLiteral q l) (htail : endsLiteral q tail = true)
    (hjoin : l.getLast? = some '{' → tail.head? ≠ some '{') :
    Text.before (endsLiteral q) (l ++ tail) = l := by
  induction l with
  | nil => exact Text.before_of_pos htail
  | cons x l ih =>
    have hx : endsLiteral q (x :: (l ++ tail)) = false := by
      rw [← Bool.not_eq_true]
      intro hends
      rcases endsLiteral_eq_true hends with rfl | rfl | ⟨rfl, hbrace⟩
      · exact h.no_quote List.mem_cons_self
      · exact h.no_break List.mem_cons_self
      · cases l with
        | nil => exact hjoin rfl hbrace
        | cons y l =>
          cases hbrace
          exact h.no_open (List.prefix_append ['{', '{'] l).isInfix
    rw [List.cons_append, Text.before_of_neg hx, ih h.of_cons]
    intro hlast
    apply hjoin
    rw [List.getLast?_cons, hlast, Option.getD_some]

theorem isLiteral_before (q : Char) (cs : List Char) :
    IsLiteral q (Text.before (endsLiteral q) cs) := by
  have hsplit := Text.before_append_drop (endsLiteral q) cs
  have hquiet : ∀ u x v, Text.before (endsLiteral q) cs = u ++ x :: v →
      endsLiteral q (x :: (v ++ cs.drop (Text.before (endsLiteral q) cs).length)) = false := by
    intro u x v huv
    have hcs : cs = u ++ x :: (v ++ cs.drop (Text.before (endsLiteral q) cs).length) := by
      rw [← List.cons_append, ← List.append_assoc, ← huv, hsplit]
    refine Text.eq_false_of_before hcs ?_
    rw [huv, List.length_append, List.length_cons]
    omega
  refine ⟨?_, ?_, ?_⟩
  · intro hmem
    obtain ⟨u, v, huv⟩ := List.append_of_mem hmem
    have hends := hquiet u q v huv
    rw [endsLiteral_cons, decide_eq_true rfl, Bool.or_true, Bool.true_or] at hends
    cases hends
  · intro hmem
    obtain ⟨u, v, huv⟩ := List.append_of_mem hmem
    have hends := hquiet u '\n' v huv
    rw [endsLiteral_cons, decide_eq_true rfl, Bool.or_true] at hends
    cases hends
  · rintro ⟨u, v, huv⟩
    rw [List.append_assoc] at huv
    have hends := hquiet u '{' ('{' :: v) huv.symm
    cases hends

theorem getLast?_before_endsLiteral
    (h : ['{', '{'].isPrefixOf (cs.drop (Text.before (endsLiteral q) cs).length) = true) :
    (Text.before (endsLiteral q) cs).getLast? ≠ some '{' := by
  intro hlast
  obtain ⟨u, hu⟩ := List.getLast?_eq_some_iff.1 hlast
  obtain ⟨v, hv⟩ := List.isPrefixOf_iff_prefix.1 h
  have hsplit := Text.before_append_drop (endsLiteral q) cs
  rw [← hv, hu, List.append_assoc] at hsplit
  have hends := Text.eq_false_of_before hsplit.symm (p := endsLiteral q) (by simp [hu])
  cases hends

end Literal

section Value

variable {q : Char} {cs mid rest l : List Char} {e : String} {ps : List (List Char × String)}
  {c d : Cursor}

inductive PiecesAt (q : Char) : List Char → List (List Char × String) → List Char → Prop
  | nil {rest : List Char} : PiecesAt q rest [] rest
  | cons {l cs mid rest : List Char} {e : String} {ps : List (List Char × String)} :
    IsLiteral q l → l.getLast? ≠ some '{' → MustacheAt cs e mid → PiecesAt q mid ps rest →
    PiecesAt q (l ++ '{' :: '{' :: cs) ((l, e) :: ps) rest

/-- The text goes on with a value up to the next quote: pieces, and the literal part `l` behind the
last mustache. -/
structure QuotedAt (q : Char) (cs : List Char) (ps : List (List Char × String)) (l : List Char)
    (rest : List Char) : Prop where
  pieces : PiecesAt q cs ps (l ++ q :: rest)
  literal : IsLiteral q l

/-- The value of a text in quotes: its literal parts, decoded one by one, with a placeholder for
each mustache. -/
def quotedText (ps : List (List Char × String)) (l : List Char) : String :=
  String.ofList (ps.flatMap (fun p => decode .attribute p.1 ++ placeholder) ++ decode .attribute l)

theorem decode_append_placeholder (as bs : List Char) :
    decode .attribute (as ++ (placeholder ++ bs)) =
      decode .attribute as ++ (placeholder ++ decode .attribute bs) := by
  have hsevers : CharRef.Context.Severs .attribute (placeholder ++ bs) := by
    rintro x ⟨⟩
    decide
  rw [CharRef.decode_append hsevers, placeholder, List.cons_append, List.cons_append,
    List.nil_append, CharRef.decode_cons_of_ne (by decide), CharRef.decode_cons_of_ne (by decide)]
  rfl

theorem decode_pieces (ps : List (List Char × String)) (l : List Char) :
    decode .attribute (ps.flatMap (fun p => p.1 ++ placeholder) ++ l) =
      ps.flatMap (fun p => decode .attribute p.1 ++ placeholder) ++ decode .attribute l := by
  induction ps with
  | nil => rfl
  | cons p ps ih =>
    simp only [List.flatMap_cons, List.append_assoc, decode_append_placeholder, ih]

theorem embedded_braces (hl : IsLiteral q l) (hlast : l.getLast? ≠ some '{')
    (hc : c.rest = l ++ '{' :: '{' :: cs) :
    embedded q c = ((fun e => some (l, e)) <$> mustacheBody) (c.skip (l.length + 2)) := by
  have hbefore : Text.before (endsLiteral q) c.rest = l := by
    rw [hc]
    exact hl.before_eq rfl fun h => absurd h hlast
  have hbraces : ['{', '{'].isPrefixOf (c.rest.drop l.length) = true := by
    rw [hc, List.drop_left]
    rfl
  simp only [Pull.embedded_apply, hbefore, if_pos hbraces, map_apply]
  cases mustacheBody (c.skip (l.length + 2)) <;> rfl

theorem rest_skip_braces (hc : c.rest = l ++ '{' :: '{' :: cs) :
    (c.skip (l.length + 2)).rest = cs := by
  rw [Cursor.rest_skip, hc, ← List.drop_drop, List.drop_left]
  rfl

theorem yields_embedded_some (hl : IsLiteral q l) (hlast : l.getLast? ≠ some '{')
    (he : MustacheAt cs e rest) :
    Yields (embedded q) (l ++ '{' :: '{' :: cs) rest (· = some (l, e)) := by
  intro p
  generalize hc : (⟨p, l ++ '{' :: '{' :: cs⟩ : Cursor) = c
  have hrest : c.rest = l ++ '{' :: '{' :: cs := by rw [← hc]
  obtain ⟨e', p', hbody, rfl⟩ := he.yields.of_rest (rest_skip_braces hrest)
  refine ⟨_, p', ?_, rfl⟩
  rw [embedded_braces hl hlast hrest, map_apply, hbody]

theorem yields_embedded_none (hq : q ≠ '{') (hl : IsLiteral q l) (rest : List Char) :
    Yields (embedded q) (l ++ q :: rest) (l ++ q :: rest) (· = none) := by
  have hbefore : Text.before (endsLiteral q) (l ++ q :: rest) = l := by
    apply hl.before_eq
    · rw [endsLiteral_cons, decide_eq_true rfl, Bool.or_true, Bool.true_or]
    · rintro - ⟨⟩
      exact hq rfl
  have hbraces : ¬ ['{', '{'].isPrefixOf (q :: rest) = true := by
    intro hprefix
    obtain ⟨v, hv⟩ := List.isPrefixOf_iff_prefix.1 hprefix
    cases hv
    exact hq rfl
  apply yields_get
  intro p
  simp only [hbefore, List.drop_left]
  rw [if_neg hbraces]
  apply yields_pure
  rfl

theorem PiecesAt.many_eq (h : PiecesAt q cs ps rest) (p : Position) :
    ∃ p', Cursor.Reaches ⟨p, cs⟩ ⟨p', rest⟩ ∧
      many (embedded q) ⟨p, cs⟩ = match many (embedded q) ⟨p', rest⟩ with
        | .ok ps' d => .ok (ps ++ ps') d
        | .error e d => .error e d := by
  induction h generalizing p with
  | @nil rest =>
    refine ⟨p, Cursor.reaches_refl _, ?_⟩
    cases many (embedded q) ⟨p, rest⟩ <;> rfl
  | @cons l cs mid rest e ps hl hlast he _ ih =>
    obtain ⟨-, p', hitem, rfl⟩ := yields_embedded_some hl hlast he p
    obtain ⟨p'', hreaches, hmany⟩ := ih p'
    refine ⟨p'', ((forward_embedded q).ok hitem).trans hreaches, ?_⟩
    rw [many_of_some hitem (Pull.length_lt_of_embedded hitem), hmany]
    cases many (embedded q) ⟨p'', rest⟩ <;> rfl

theorem PiecesAt.yields (h : PiecesAt q cs ps (l ++ q :: rest)) (hq : q ≠ '{')
    (hl : IsLiteral q l) : Yields (many (embedded q)) cs (l ++ q :: rest) (· = ps) := by
  intro p
  obtain ⟨p', -, hmany⟩ := h.many_eq p
  obtain ⟨-, p'', hnone, rfl⟩ := yields_embedded_none hq hl rest p'
  rw [many_of_none hnone] at hmany
  exact ⟨_, p'', hmany, List.append_nil ps⟩

theorem QuotedAt.yields (h : QuotedAt q cs ps l rest) (hq : q ≠ '{') :
    Yields (quotedValue q) cs rest (· = (quotedText ps l, ps.map (·.2))) := by
  have hbefore : Text.before (endsLiteral q) (l ++ q :: rest) = l := by
    apply h.literal.before_eq
    · rw [endsLiteral_cons, decide_eq_true rfl, Bool.or_true, Bool.true_or]
    · rintro - ⟨⟩
      exact hq rfl
  apply yields_seq (yields_position _)
  intro opened
  apply yields_let (h.pieces.yields hq h.literal)
  apply yields_let (yields_takeBefore hbefore)
  apply yields_let (yields_read _ _)
  apply yields_seq (yields_require rfl _ _ _)
  intro _
  apply yields_pure
  rw [quotedText, decode_pieces]

theorem embedded_eq_none (h : embedded q c = .ok none d) : d = c := by
  simp only [Pull.embedded_apply] at h
  split at h
  · split at h <;> cases h
  · cases h
    rfl

theorem embedded_eq_some {p : List Char × String} (h : embedded q c = .ok (some p) d) :
    ∃ cs, c.rest = p.1 ++ '{' :: '{' :: cs ∧ IsLiteral q p.1 ∧ p.1.getLast? ≠ some '{' ∧
      MustacheAt cs p.2 d.rest := by
  have hsplit := Text.before_append_drop (endsLiteral q) c.rest
  simp only [Pull.embedded_apply] at h
  split at h
  · rename_i hbraces
    split at h
    · rename_i e d' he
      cases h
      obtain ⟨cs, hcs⟩ := List.isPrefixOf_iff_prefix.1 hbraces
      have hmustache := mustacheAt_of_ok he
      rw [Cursor.rest_skip, ← List.drop_drop, ← hcs] at hmustache
      refine ⟨cs, ?_, isLiteral_before q _, getLast?_before_endsLiteral hbraces, hmustache⟩
      rw [← hcs] at hsplit
      exact hsplit.symm
    · cases h
  · cases h

theorem piecesAt_of_many (h : many (embedded q) c = .ok ps d) : PiecesAt q c.rest ps d.rest := by
  fun_induction many (embedded q) c generalizing ps d with
  | case1 c e d' hi => cases h
  | case2 c d' hi =>
    cases h
    rw [embedded_eq_none hi]
    exact .nil
  | case3 c p d' hi hlt e d'' hm ih => cases h
  | case4 c p d' hi hlt ps d'' hm ih =>
    cases h
    obtain ⟨cs, hcs, hl, hlast, he⟩ := embedded_eq_some hi
    rw [hcs]
    exact .cons hl hlast he (ih hm)
  | case5 c p d' hi hlt => exact absurd (Pull.length_lt_of_embedded hi) hlt

theorem quotedValue_eq_ok {v : String × List String} (h : quotedValue q c = .ok v d) :
    ∃ ps e l, many (embedded q) c = .ok ps e ∧ e.rest = l ++ q :: d.rest ∧ IsLiteral q l ∧
      v = (quotedText ps l, ps.map (·.2)) := by
  rw [Pull.quotedValue_eq, Pull.quotedEnd] at h
  split at h
  · rename_i ps e hmany
    simp only at h
    split at h
    · rename_i hclose
      cases h
      refine ⟨ps, e, _, hmany, ?_, isLiteral_before q e.rest, ?_⟩
      · obtain ⟨rest, hrest⟩ := List.head?_eq_some_iff.1 hclose
        have hsplit := Text.before_append_drop (endsLiteral q) e.rest
        rw [← Cursor.rest_skip, hrest] at hsplit
        rw [Cursor.rest_skip _ 1, hrest]
        exact hsplit.symm
      · rw [quotedText, ← decode_pieces]
        rfl
    · cases h
  · cases h

theorem quotedAt_of_ok {v : String × List String} (h : quotedValue q c = .ok v d) :
    ∃ ps l, QuotedAt q c.rest ps l d.rest ∧ v = (quotedText ps l, ps.map (·.2)) := by
  obtain ⟨ps, e, l, hmany, hrest, hl, hv⟩ := quotedValue_eq_ok h
  have hpieces := piecesAt_of_many hmany
  rw [hrest] at hpieces
  exact ⟨ps, l, ⟨hpieces, hl⟩, hv⟩

theorem quotedValue_braces (hps : PiecesAt q cs ps (l ++ '{' :: '{' :: rest)) (hl : IsLiteral q l)
    (hlast : l.getLast? ≠ some '{') (hc : c.rest = cs) :
    ∃ d, c.Reaches d ∧ d.rest = rest ∧
      (∀ e f, mustacheBody d = .error e f → quotedValue q c = .error e f) ∧
      ∀ e f v g, mustacheBody d = .ok e f → quotedValue q c = .ok v g → ∃ ps' l',
        v = (quotedText (ps ++ (l, e) :: ps') l', (ps ++ (l, e) :: ps').map (·.2)) := by
  subst hc
  obtain ⟨p, hreaches, hmany⟩ := hps.many_eq c.position
  generalize hmid : (⟨p, l ++ '{' :: '{' :: rest⟩ : Cursor) = mid at hreaches hmany
  have hrest : mid.rest = l ++ '{' :: '{' :: rest := by rw [← hmid]
  have hitem := embedded_braces hl hlast hrest
  rw [map_apply] at hitem
  refine ⟨mid.skip (l.length + 2), hreaches.trans (mid.reaches_skip _), rest_skip_braces hrest,
    ?_, ?_⟩
  · intro e f hbody
    rw [hbody] at hitem
    rw [many_of_error hitem] at hmany
    have hc : many (embedded q) c = .error e f := hmany
    rw [Pull.quotedValue_eq, Pull.quotedEnd, hc]
  · intro e f v g hbody hvalue
    rw [hbody] at hitem
    rw [many_of_some hitem (Pull.length_lt_of_embedded hitem)] at hmany
    obtain ⟨ps', c', l', hps', -, -, rfl⟩ := quotedValue_eq_ok hvalue
    have hc := hmany.symm.trans hps'
    cases htail : many (embedded q) f with
    | ok bs d =>
      rw [htail] at hc
      cases hc
      exact ⟨bs, l', rfl⟩
    | error e' d =>
      rw [htail] at hc
      cases hc

end Value

end Template.Scan
