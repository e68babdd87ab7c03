import Template.Forest.Indented
import Template.Proofs.Normal

namespace Template.Scan

variable {α β : Type} {cs mid rest : List Char} {Q : α → Prop} {R : β → Prop}

/-- Wherever `cs` stands, the computation reads it down to `rest`, and `Q` holds of the result. -/
def Yields (x : Scan α) (cs rest : List Char) (Q : α → Prop) : Prop :=
  ∀ p, ∃ a q, x ⟨p, cs⟩ = .ok a ⟨q, rest⟩ ∧ Q a

theorem Yields.of_rest {x : Scan α} {c : Cursor} (h : Yields x cs rest Q) (hc : c.rest = cs) :
    ∃ a q, x c = .ok a ⟨q, rest⟩ ∧ Q a := by
  subst hc
  exact h c.position

theorem yields_pure {a : α} (h : Q a) (cs : List Char) : Yields (pure a) cs cs Q :=
  fun p => ⟨a, p, rfl, h⟩

theorem yields_bind {x : Scan α} {f : α → Scan β} (hx : Yields x cs mid Q)
    (hf : ∀ a, Q a → Yields (f a) mid rest R) : Yields (x >>= f) cs rest R := by
  intro p
  obtain ⟨a, q, hxa, ha⟩ := hx p
  obtain ⟨b, r, hfb, hb⟩ := hf a ha q
  refine ⟨b, r, ?_, hb⟩
  rw [bind_apply, hxa]
  exact hfb

theorem yields_let {x : Scan α} {f : α → Scan β} {a : α} (hx : Yields x cs mid (· = a))
    (hf : Yields (f a) mid rest R) : Yields (x >>= f) cs rest R := by
  apply yields_bind hx
  rintro b rfl
  exact hf

theorem yields_seq {x : Scan α} {f : α → Scan β} (hx : Yields x cs mid fun _ => True)
    (hf : ∀ a, Yields (f a) mid rest R) : Yields (x >>= f) cs rest R :=
  yields_bind hx fun a _ => hf a

theorem yields_get {f : Cursor → Scan β} (hf : ∀ p, Yields (f ⟨p, cs⟩) cs rest R) :
    Yields (get >>= f) cs rest R :=
  fun p => hf p p

theorem yields_map {f : α → β} {x : Scan α} (hx : Yields x cs rest fun a => R (f a)) :
    Yields (f <$> x) cs rest R := by
  intro p
  obtain ⟨a, q, hxa, ha⟩ := hx p
  refine ⟨f a, q, ?_, ha⟩
  rw [map_apply, hxa]

theorem yields_if_pos {p : Prop} [Decidable p] {x y : Scan α} (h : p) (hx : Yields x cs rest Q) :
    Yields (if p then x else y) cs rest Q := by
  rw [if_pos h]
  exact hx

theorem yields_position (cs : List Char) : Yields position cs cs fun _ => True :=
  fun p => ⟨_, p, rfl, trivial⟩

theorem yields_nextPosition (cs : List Char) : Yields nextPosition cs cs fun _ => True :=
  fun p => ⟨_, p, rfl, trivial⟩

theorem yields_peek (cs : List Char) : Yields peek cs cs (· = cs.head?) :=
  fun p => ⟨_, p, rfl, rfl⟩

theorem yields_skip (n : Nat) (cs : List Char) : Yields (skip n) cs (cs.drop n) fun _ => True :=
  fun p => ⟨(), p.after (cs.take n), rfl, trivial⟩

theorem yields_read (c : Char) (cs : List Char) : Yields read (c :: cs) cs (· = some c) :=
  fun p => ⟨_, p.after [c], rfl, rfl⟩

theorem yields_require {p : Prop} [Decidable p] (h : p) (cause : SyntaxError.Cause)
    (position : Position) (cs : List Char) :
    Yields (require p cause position) cs cs fun _ => True := by
  rw [require, if_pos h]
  exact yields_pure trivial cs

theorem yields_expect (c : Char) (cs : List Char) :
    Yields (expect c) (c :: cs) cs fun _ => True :=
  yields_let (yields_read c cs) (yields_seq (yields_position cs) fun _ => yields_require rfl _ _ cs)

theorem yields_takeWhile {p : Char → Bool} {xs : List Char} {c : Char}
    (hxs : ∀ x ∈ xs, p x = true) (hc : p c = false) (cs : List Char) :
    Yields (takeWhile p) (xs ++ c :: cs) (c :: cs) (· = xs) := by
  intro q
  have hfront := Text.takeWhile_append_stop hxs hc cs
  refine ⟨xs, q.after xs, ?_, rfl⟩
  rw [takeWhile_apply]
  simp [hfront, Cursor.skip]

theorem yields_takeBefore {p : List Char → Bool} {xs : List Char}
    (h : Text.before p (xs ++ cs) = xs) : Yields (takeBefore p) (xs ++ cs) cs (· = xs) := by
  intro q
  refine ⟨xs, q.after xs, ?_, rfl⟩
  rw [takeBefore_apply]
  simp [h, Cursor.skip]

theorem yields_many_nil {item : Scan (Option α)} (h : Yields item cs rest (· = none)) :
    Yields (many item) cs rest (· = []) := by
  intro p
  obtain ⟨o, q, ho, rfl⟩ := h p
  refine ⟨[], q, ?_, rfl⟩
  rw [many, ho]

theorem yields_many_cons {item : Scan (Option α)} {S : List α → Prop}
    (h : Yields item cs mid fun o => ∃ a, o = some a ∧ Q a) (hlt : mid.length < cs.length)
    (hrest : Yields (many item) mid rest S) :
    Yields (many item) cs rest fun as => ∃ a bs, as = a :: bs ∧ Q a ∧ S bs := by
  intro p
  obtain ⟨o, q, ho, a, rfl, ha⟩ := h p
  obtain ⟨bs, r, hbs, hS⟩ := hrest q
  refine ⟨a :: bs, r, ?_, a, bs, rfl, ha, hS⟩
  rw [many, ho]
  simp only [hlt, if_true, hbs]

theorem Yields.mono {P : α → Prop} {x : Scan α} (hx : Yields x cs rest P)
    (h : ∀ a, P a → Q a) : Yields x cs rest Q := by
  intro p
  obtain ⟨a, q, hxa, ha⟩ := hx p
  exact ⟨a, q, hxa, h a ha⟩

section Markup

theorem isBlank_of_isNameStart {c : Char} (h : Text.isNameStart c = true) :
    Text.isBlank c = false := by
  rw [← Bool.not_eq_true]
  intro hc
  simp only [Text.isBlank, Bool.or_eq_true, decide_eq_true_eq] at hc
  rcases hc with (rfl | rfl) | rfl <;> cases h

theorem yields_name {n : String} (hn : IsName n) {c : Char} (hc : Text.isNameChar c = false)
    (cs : List Char) : Yields name (n.toList ++ c :: cs) (c :: cs) (· = n) := by
  apply yields_let (yields_takeWhile hn.chars hc cs)
  apply yields_pure
  rw [String.ofList_toList]

theorem before_endsMustache {e : List Char} (hbreak : '\n' ∉ e)
    (hclose : ¬ ['}', '}'] <:+: e ++ rest.take 1) (hrest : rest = [] ∨ endsMustache rest = true) :
    Text.before endsMustache (e ++ rest) = e := by
  induction e with
  | nil =>
    rcases hrest with rfl | hrest
    · rfl
    · exact Text.before_of_pos hrest
  | cons x xs ih =>
    rw [List.mem_cons, not_or] at hbreak
    have hx : endsMustache (x :: (xs ++ rest)) = false := by
      rw [← Bool.not_eq_true]
      intro htrue
      rcases endsMustache_eq_true htrue with ⟨s, hs⟩ | ⟨s, hs⟩
      · exact hbreak.1 (List.cons.inj hs).1.symm
      · apply hclose
        cases xs with
        | nil =>
          cases hs
          exact List.infix_rfl
        | cons y ys =>
          cases hs
          exact (List.prefix_append _ _).isInfix
    have hxs : ¬ ['}', '}'] <:+: xs ++ rest.take 1 := fun h => hclose (List.infix_cons h)
    rw [List.cons_append, Text.before_of_neg hx, ih hbreak.2 hxs]

theorem yields_mustacheBody_of_before {e : String} (hne : e.toList ≠ [])
    (hbefore : Text.before endsMustache (e.toList ++ '}' :: '}' :: cs) = e.toList) :
    Yields mustacheBody (e.toList ++ '}' :: '}' :: cs) cs (· = e) := by
  apply yields_seq (yields_position _)
  intro opened
  apply yields_let (yields_takeBefore hbefore)
  apply yields_let (yields_read _ _)
  apply yields_seq (yields_skip 1 _)
  intro _
  apply yields_seq (yields_position _)
  intro p
  apply yields_seq (yields_require hne _ _ _)
  intro _
  apply yields_pure
  rw [String.ofList_toList]

theorem yields_mustacheBody {e : String} (he : IsExpression e) (cs : List Char) :
    Yields mustacheBody (e.toList ++ '}' :: '}' :: cs) cs (· = e) :=
  yields_mustacheBody_of_before he.ne_nil (before_endsMustache he.no_break he.no_close (.inr rfl))

theorem endsLiteral_eq_true {q c : Char} {cs : List Char} (h : endsLiteral q (c :: cs) = true) :
    c = q ∨ c = '\n' ∨ c = '{' ∧ cs.head? = some '{' := by
  unfold endsLiteral at h
  split at h
  · rename_i xs heq
    cases heq
    exact .inr (.inr ⟨rfl, rfl⟩)
  · rename_i d xs _ heq
    cases heq
    rw [Bool.or_eq_true, decide_eq_true_eq, decide_eq_true_eq] at h
    rcases h with h | h
    · exact .inl h
    · exact .inr (.inl h)
  · rename_i heq
    cases heq

theorem before_endsLiteral (cs tail : List Char) :
    Text.before (endsLiteral '"') (CharRef.encode .attribute cs ++ '"' :: tail) =
      CharRef.encode .attribute cs := by
  have hp : ∀ c xs, endsLiteral '"' (c :: xs) = true →
      c ∈ CharRef.Context.reserved .attribute ∨ c = '{' ∧ xs.head? = some '{' := by
    intro c xs h
    rcases endsLiteral_eq_true h with rfl | rfl | hbraces
    · exact .inl (by decide)
    · exact .inl (by decide)
    · exact .inr hbraces
  rw [CharRef.encode, CharRef.before_encodeFrom hp (by simp), Text.before_of_pos rfl,
    List.append_nil]

theorem yields_quotedValue (value : String) (cs : List Char) :
    Yields (quotedValue '"') (CharRef.encode .attribute value.toList ++ '"' :: cs) cs
      (· = (value, [])) := by
  have hliteral := before_endsLiteral value.toList cs
  have hembedded : Yields (embedded '"') (CharRef.encode .attribute value.toList ++ '"' :: cs)
      (CharRef.encode .attribute value.toList ++ '"' :: cs) (· = none) := by
    apply yields_get
    intro p
    simp only [hliteral, List.drop_left]
    rw [if_neg (fun h => nomatch h)]
    apply yields_pure
    rfl
  apply yields_seq (yields_position _)
  intro opened
  apply yields_let (yields_many_nil hembedded)
  apply yields_let (yields_takeBefore hliteral)
  apply yields_let (yields_read _ _)
  apply yields_seq (yields_require rfl _ _ _)
  intro _
  apply yields_pure
  have hdecode := CharRef.decode_encode .attribute value.toList []
  rw [List.append_nil, CharRef.decode_nil, List.append_nil] at hdecode
  simp [hdecode]

def EndsAttribute (c : Char) : Prop := c = ' ' ∨ c = '>'

theorem EndsAttribute.isNameChar {c : Char} (hc : EndsAttribute c) :
    Text.isNameChar c = false := by
  rcases hc with rfl | rfl <;> rfl

theorem EndsAttribute.ne {c : Char} (hc : EndsAttribute c) : c ≠ '=' := by
  rcases hc with rfl | rfl <;> decide

section Attributes

variable {key e : String}

theorem yields_bool (hkey : IsName key) {c : Char} (hchar : Text.isNameChar c = false)
    (hequals : c ≠ '=') (cs : List Char) :
    Yields keyed (key.toList ++ c :: cs) (c :: cs) fun a => a.kind = .bool key := by
  apply yields_seq (yields_nextPosition _)
  intro start
  apply yields_let (yields_name hkey hchar cs)
  apply yields_let (yields_peek _)
  rw [if_pos (by simpa using hequals)]
  apply yields_pure
  rfl

theorem behind_key {x : Char} {c : Cursor} (hkey : IsName key)
    (hc : c.rest = key.toList ++ '=' :: x :: cs) :
    c.rest.takeWhile Text.isNameChar = key.toList ∧
      (c.skip key.toList.length).rest.head? = some '=' ∧
        (c.skip (key.toList.length + 1)).rest.head? = some x := by
  have hequals : (c.skip key.toList.length).rest = '=' :: x :: cs := by
    rw [Cursor.rest_skip, hc, List.drop_left]
  refine ⟨?_, ?_, ?_⟩
  · rw [hc]
    exact Text.takeWhile_append hkey.chars rfl
  · rw [hequals]
    rfl
  · rw [← Cursor.skip_skip, Cursor.rest_skip, hequals]
    rfl

theorem rest_skip_key {x : Char} {c : Cursor} (hc : c.rest = key.toList ++ '=' :: x :: cs) :
    (c.skip (key.toList.length + 2)).rest = cs := by
  rw [Cursor.rest_skip, hc, ← List.drop_drop, List.drop_left]
  rfl

theorem keyed_quoted {q : Char} {c : Cursor} (hkey : IsName key) (hq : q = '"' ∨ q = '\'')
    (hc : c.rest = key.toList ++ '=' :: q :: cs) :
    keyed c = match quotedValue q (c.skip (key.toList.length + 2)) with
      | .ok value d => .ok ⟨.string key value.1 value.2, c.nextPosition⟩ d
      | .error e d => .error e d := by
  obtain ⟨htake, hequals, hquote⟩ := behind_key hkey hc
  rw [keyed, bind_of_ok (nextPosition_apply c), bind_of_ok (name_apply c), htake,
    String.ofList_toList, bind_of_ok (peek_apply _), hequals, if_neg (fun h => h rfl),
    bind_of_ok (skip_apply 1 _), Cursor.skip_skip, bind_of_ok (read_apply _), hquote,
    Cursor.skip_skip]
  rcases hq with rfl | rfl
  · simp only [bind_apply]
    cases quotedValue '"' (c.skip (key.toList.length + 2)) <;> rfl
  · simp only [bind_apply]
    cases quotedValue '\'' (c.skip (key.toList.length + 2)) <;> rfl

theorem expect_of_head? {x : Char} {c : Cursor} (h : c.rest.head? = some x) :
    expect x c = .ok () (c.skip 1) := by
  rw [expect, bind_of_ok (read_apply c), bind_of_ok (position_apply _), require_apply, if_pos h]

theorem keyed_braces {c : Cursor} (hkey : IsName key)
    (hc : c.rest = key.toList ++ '=' :: '{' :: '{' :: cs) :
    keyed c = ((fun e => ⟨.mustache key e, c.nextPosition⟩) <$> mustacheBody)
      (c.skip (key.toList.length + 3)) := by
  obtain ⟨htake, hequals, hbrace⟩ := behind_key hkey hc
  have hsecond : (c.skip (key.toList.length + 2)).rest.head? = some '{' := by
    rw [rest_skip_key hc]
    rfl
  rw [keyed, bind_of_ok (nextPosition_apply c), bind_of_ok (name_apply c), htake,
    String.ofList_toList, bind_of_ok (peek_apply _), hequals, if_neg (fun h => h rfl),
    bind_of_ok (skip_apply 1 _), Cursor.skip_skip, bind_of_ok (read_apply _), hbrace,
    Cursor.skip_skip]
  simp only
  rw [bind_of_ok (expect_of_head? hsecond), Cursor.skip_skip]
  rfl

theorem rest_skip_valued {c : Cursor} (hc : c.rest = key.toList ++ '=' :: '{' :: '{' :: cs) :
    (c.skip (key.toList.length + 3)).rest = cs := by
  have hrest := rest_skip_key hc
  rw [← Cursor.skip_skip c (key.toList.length + 2) 1, Cursor.rest_skip, hrest]
  rfl

theorem yields_valued (hkey : IsName key) (hbody : Yields mustacheBody cs rest (· = e)) :
    Yields keyed (key.toList ++ '=' :: '{' :: '{' :: cs) rest
      fun a => a.kind = .mustache key e := by
  intro p
  generalize hc : (⟨p, key.toList ++ '=' :: '{' :: '{' :: cs⟩ : Cursor) = c
  have hrest : c.rest = key.toList ++ '=' :: '{' :: '{' :: cs := by rw [← hc]
  obtain ⟨e, p', hread, rfl⟩ := hbody.of_rest (rest_skip_valued hrest)
  refine ⟨⟨.mustache key e, c.nextPosition⟩, p', ?_, rfl⟩
  rw [keyed_braces hkey hrest, map_apply, hread]

theorem keyed_of_yields {q : Char} {c : Cursor} {v : String × List String} (hkey : IsName key)
    (hq : q = '"' ∨ q = '\'') (hc : c.rest = key.toList ++ '=' :: q :: cs)
    (hvalue : Yields (quotedValue q) cs rest (· = v)) :
    ∃ p, keyed c = .ok ⟨.string key v.1 v.2, c.nextPosition⟩ ⟨p, rest⟩ := by
  obtain ⟨value, p, hread, rfl⟩ := hvalue.of_rest (rest_skip_key hc)
  rw [keyed_quoted hkey hq hc, hread]
  exact ⟨p, rfl⟩

theorem yields_string {q : Char} {v : String × List String} (hkey : IsName key)
    (hq : q = '"' ∨ q = '\'') (hvalue : Yields (quotedValue q) cs rest (· = v)) :
    Yields keyed (key.toList ++ '=' :: q :: cs) rest fun a => a.kind = .string key v.1 v.2 := by
  intro p
  obtain ⟨p', hkeyed⟩ := keyed_of_yields hkey hq rfl hvalue (c := ⟨p, _⟩)
  exact ⟨_, p', hkeyed, rfl⟩

theorem variadic_braces {c : Cursor} (hc : c.rest = '.' :: '.' :: '.' :: '{' :: '{' :: cs) :
    variadic c = ((fun e => ⟨.variadic e, c.nextPosition⟩) <$> mustacheBody) (c.skip 5) := by
  have hdots : ['.', '.'].isPrefixOf (c.skip 1).rest = true := by
    rw [Cursor.rest_skip, hc]
    rfl
  have hfirst : (c.skip 3).rest.head? = some '{' := by
    rw [Cursor.rest_skip, hc]
    rfl
  have hsecond : (c.skip 4).rest.head? = some '{' := by
    rw [Cursor.rest_skip, hc]
    rfl
  rw [variadic, bind_of_ok (nextPosition_apply c), bind_of_ok (skip_apply 1 c),
    bind_of_ok (get_apply _), bind_of_ok ((require_apply _ _ _ _).trans (if_pos hdots)),
    bind_of_ok (skip_apply 2 _), Cursor.skip_skip, bind_of_ok (expect_of_head? hfirst),
    Cursor.skip_skip, bind_of_ok (expect_of_head? hsecond), Cursor.skip_skip]
  rfl

theorem yields_spread (hbody : Yields mustacheBody cs rest (· = e)) :
    Yields variadic ('.' :: '.' :: '.' :: '{' :: '{' :: cs) rest
      fun a => a.kind = .variadic e := by
  intro p
  generalize hc : (⟨p, '.' :: '.' :: '.' :: '{' :: '{' :: cs⟩ : Cursor) = c
  have hrest : c.rest = '.' :: '.' :: '.' :: '{' :: '{' :: cs := by rw [← hc]
  have hbraces : (c.skip 5).rest = cs := by
    rw [Cursor.rest_skip, hrest]
    rfl
  obtain ⟨e, p', hread, rfl⟩ := hbody.of_rest hbraces
  refine ⟨⟨.variadic e, c.nextPosition⟩, p', ?_, rfl⟩
  rw [variadic_braces hrest, map_apply, hread]

end Attributes

theorem yields_keyed {a : Attribute} (ha : a.Sound) (hkey : a.key?.isSome = true) {c : Char}
    (hc : EndsAttribute c) (cs : List Char) :
    Yields keyed (Indented.attr a ++ c :: cs) (c :: cs)
      fun b => b.unplaced = a.plain.unplaced := by
  have hkind : ∀ b : Attribute, b.kind = a.plain.kind → b.unplaced = a.plain.unplaced := by
    intro b hb
    rw [Attribute.unplaced, Attribute.unplaced, hb]
  obtain ⟨kind, p⟩ := a
  cases kind with
  | variadic e => cases hkey
  | bool key => exact (yields_bool ha hc.isNameChar hc.ne cs).mono hkind
  | mustache key e =>
    have htext : Indented.attr ⟨.mustache key e, p⟩ ++ c :: cs =
        key.toList ++ '=' :: '{' :: '{' :: (e.toList ++ '}' :: '}' :: c :: cs) := by
      simp [Indented.attr, Indented.mustache]
    rw [htext]
    exact (yields_valued ha.1 (yields_mustacheBody ha.2 _)).mono hkind
  | string key value mustaches =>
    have htext : Indented.attr ⟨.string key value mustaches, p⟩ ++ c :: cs =
        key.toList ++ '=' :: '"' :: (CharRef.encode .attribute value.toList ++ '"' :: c :: cs) := by
      simp [Indented.attr]
    rw [htext]
    exact (yields_string ha (.inl rfl) (yields_quotedValue value _)).mono hkind

theorem yields_variadic {e : String} (he : IsExpression e) (p : Position) (cs : List Char) :
    Yields variadic (Indented.attr ⟨.variadic e, p⟩ ++ cs) cs
      fun b => b.unplaced = ⟨.variadic e, {}⟩ := by
  have htext : Indented.attr ⟨.variadic e, p⟩ ++ cs =
      '.' :: '.' :: '.' :: '{' :: '{' :: (e.toList ++ '}' :: '}' :: cs) := by
    simp [Indented.attr, Indented.mustache]
  rw [htext]
  refine (yields_spread (yields_mustacheBody he _)).mono ?_
  intro b hb
  rw [Attribute.unplaced, hb]

theorem exists_attr_eq_cons {a : Attribute} (ha : a.Sound) :
    ∃ x xs, Indented.attr a = x :: xs ∧
      (a.key?.isSome = true ∧ Text.isNameStart x = true ∨ a.key? = none ∧ x = '.') := by
  obtain ⟨kind, p⟩ := a
  cases kind with
  | variadic e => exact ⟨_, _, rfl, .inr ⟨rfl, rfl⟩⟩
  | bool key =>
    obtain ⟨x, xs, hkey, hx⟩ := IsName.start ha
    refine ⟨x, xs, hkey, .inl ⟨rfl, hx⟩⟩
  | mustache key e =>
    obtain ⟨x, xs, hkey, hx⟩ := IsName.start ha.1
    simp only [Indented.attr, hkey, List.cons_append]
    exact ⟨x, _, rfl, .inl ⟨rfl, hx⟩⟩
  | string key value mustaches =>
    obtain ⟨x, xs, hkey, hx⟩ := IsName.start ha
    simp only [Indented.attr, hkey, List.cons_append]
    exact ⟨x, _, rfl, .inl ⟨rfl, hx⟩⟩

theorem attribute?_blank {x : Char} (hx : Text.isBlank x = true) (p : Position) (cs : List Char) :
    attribute? ⟨p, x :: cs⟩ = attribute? ⟨p.advance x, cs⟩ := by
  have htake := List.takeWhile_cons_of_pos (l := cs) hx
  simp only [attribute?, bind_apply, takeWhile_apply, htake]
  rfl

theorem attribute?_eq_keyed {cs : List Char} (hstart : cs.head?.any Text.isNameStart = true)
    (p : Position) : attribute? ⟨p, cs⟩ = (some <$> keyed) ⟨p, cs⟩ := by
  obtain ⟨x, hx, hchar⟩ := (Option.any_eq_true _ _).1 hstart
  obtain ⟨xs, rfl⟩ := List.head?_eq_some_iff.1 hx
  have htake := List.takeWhile_cons_of_neg (l := xs)
    (Bool.eq_false_iff.1 (isBlank_of_isNameStart hchar))
  rw [attribute?, bind_of_ok (takeWhile_apply _ _), htake, bind_of_ok (peek_apply _)]
  simp only [List.length_nil, Cursor.skip_zero, List.head?_cons]
  refine congrFun ?_ _
  split
  · contradiction
  · rename_i heq
    cases heq
    cases hchar
  · rename_i heq
    cases heq
    cases hchar
  · rename_i heq
    cases heq
    cases hchar
  · rename_i heq
    cases heq
    exact if_pos hchar

theorem yields_attribute? {a : Attribute} (ha : a.Sound) {c : Char} (hc : EndsAttribute c)
    (cs : List Char) :
    Yields attribute? (' ' :: (Indented.attr a ++ c :: cs)) (c :: cs)
      fun o => ∃ b, o = some b ∧ b.unplaced = a.plain.unplaced := by
  intro p
  rw [attribute?_blank rfl]
  obtain ⟨x, xs, htext, ⟨hkey, hx⟩ | ⟨hkey, rfl⟩⟩ := exists_attr_eq_cons ha
  · have hstart : (Indented.attr a ++ c :: cs).head?.any Text.isNameStart = true := by
      rw [htext]
      exact hx
    rw [attribute?_eq_keyed hstart]
    refine yields_map ((yields_keyed ha hkey hc cs).mono ?_) _
    intro b hb
    exact ⟨b, rfl, hb⟩
  · obtain ⟨kind, p'⟩ := a
    cases kind with
    | variadic e =>
      refine yields_map ((yields_variadic ha p' _).mono ?_) _
      intro b hb
      exact ⟨b, rfl, hb⟩
    | _ => cases hkey

theorem yields_attribute?_end (cs : List Char) :
    Yields attribute? ('>' :: cs) ('>' :: cs) (· = none) := by
  have hlead : Yields (takeWhile Text.isBlank) ([] ++ '>' :: cs) ('>' :: cs) (· = []) :=
    yields_takeWhile (List.forall_mem_nil _) rfl cs
  apply yields_let hlead
  apply yields_let (yields_peek _)
  apply yields_pure
  rfl

def attributeText (as : List Attribute) : List Char :=
  as.flatMap fun a => ' ' :: Indented.attr a

theorem exists_attributeText_eq_cons (as : List Attribute) (cs : List Char) :
    ∃ c xs, attributeText as ++ '>' :: cs = c :: xs ∧ EndsAttribute c := by
  cases as with
  | nil => exact ⟨'>', cs, rfl, .inr rfl⟩
  | cons a as => exact ⟨' ', _, rfl, .inl rfl⟩

theorem yields_many_attribute? {as : List Attribute} (has : ∀ a ∈ as, a.Sound) (cs : List Char) :
    Yields (many attribute?) (attributeText as ++ '>' :: cs) ('>' :: cs)
      fun bs => bs.map Attribute.unplaced = as.map fun a => a.plain.unplaced := by
  induction as with
  | nil =>
    refine (yields_many_nil (yields_attribute?_end cs)).mono ?_
    rintro bs rfl
    rfl
  | cons a as ih =>
    rw [List.forall_mem_cons] at has
    obtain ⟨c, xs, htail, hc⟩ := exists_attributeText_eq_cons as cs
    have hitem := yields_attribute? has.1 hc xs
    have htext : attributeText (a :: as) ++ '>' :: cs =
        ' ' :: (Indented.attr a ++ (attributeText as ++ '>' :: cs)) := by
      simp [attributeText]
    rw [htext]
    rw [← htail] at hitem
    refine (yields_many_cons hitem ?_ (ih has.2)).mono ?_
    · simp only [List.length_cons, List.length_append]
      omega
    · rintro bs ⟨b, bs, rfl, hb, hbs⟩
      rw [List.map_cons, hb, hbs, List.map_cons]

theorem yields_attributes {as : List Attribute} (has : ∀ a ∈ as, a.Sound) (cs : List Char) :
    Yields attributes (attributeText as ++ '>' :: cs) ('>' :: cs)
      fun bs => bs.map Attribute.unplaced = as.map fun a => a.plain.unplaced := by
  apply yields_let (yields_peek _)
  cases as with
  | nil =>
    apply yields_pure
    rfl
  | cons a as =>
    exact yields_if_pos rfl (yields_many_attribute? has cs)

theorem yields_startTag {name : String} (hname : IsName name) {as : List Attribute}
    (has : ∀ a ∈ as, a.Sound) (start : Position) (cs : List Char) :
    Yields (startTag start) (name.toList ++ (attributeText as ++ '>' :: cs)) cs fun t =>
      ∃ bs, t = ⟨tagKind name bs, start⟩ ∧
        bs.map Attribute.unplaced = as.map fun a => a.plain.unplaced := by
  obtain ⟨c, xs, htail, hc⟩ := exists_attributeText_eq_cons as cs
  have hhead := yields_name hname hc.isNameChar xs
  rw [← htail] at hhead
  apply yields_let hhead
  apply yields_bind (yields_attributes has cs)
  intro bs hbs
  apply yields_let (yields_read _ _)
  apply yields_pure
  exact ⟨bs, rfl, hbs⟩

theorem yields_endTag {name : String} (hname : IsName name) (hvoid : Element.isVoid name = false)
    (start : Position) (cs : List Char) :
    Yields (endTag start) (name.toList ++ '>' :: cs) cs (· = ⟨.endTag name, start⟩) := by
  apply yields_let (yields_name hname rfl cs)
  apply yields_seq (yields_expect _ _)
  intro _
  apply yields_seq (yields_require hvoid _ _ _)
  intro _
  apply yields_pure
  rfl

theorem yields_mustache {e : String} (he : IsExpression e) (start : Position) (cs : List Char) :
    Yields (mustache start) (e.toList ++ '}' :: '}' :: cs) cs (· = ⟨.mustache e, start⟩) := by
  apply yields_let (yields_mustacheBody he cs)
  apply yields_pure
  rfl

end Markup

end Template.Scan
