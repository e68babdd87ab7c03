import Template.Proofs.Finding
import Template.Proofs.Halting
import Template.Proofs.Locality

namespace Template

namespace Text

/-- What stands behind a line break is not seen from in front of it. -/
def Blind {α : Type} (f : List Char → α) : Prop :=
  ∀ cs x y : List Char, f (cs ++ '\n' :: x) = f (cs ++ '\n' :: y)

theorem blind_of_eq {α : Type} {f : List Char → α}
    (h : ∀ cs x : List Char, f (cs ++ '\n' :: x) = f cs) : Blind f :=
  fun cs x y => (h cs x).trans (h cs y).symm

variable {p : List Char → Bool}

theorem Blind.before (h : Blind p) (cs x y : List Char) :
    (Text.before p (cs ++ '\n' :: x) = Text.before p (cs ++ '\n' :: y) ∧
      (Text.before p (cs ++ '\n' :: x)).length ≤ cs.length) ∨
    cs.length < (Text.before p (cs ++ '\n' :: x)).length := by
  induction cs with
  | nil =>
    have hsame := h [] x y
    rw [List.nil_append, List.nil_append] at hsame ⊢
    cases hx : p ('\n' :: x) with
    | true =>
      rw [before_of_pos hx, before_of_pos (hsame.symm.trans hx)]
      exact .inl ⟨rfl, Nat.le_refl _⟩
    | false =>
      rw [before_of_neg hx]
      exact .inr (Nat.succ_pos _)
  | cons c cs ih =>
    have hsame := h (c :: cs) x y
    rw [List.cons_append, List.cons_append] at hsame ⊢
    cases hx : p (c :: (cs ++ '\n' :: x)) with
    | true =>
      rw [before_of_pos hx, before_of_pos (hsame.symm.trans hx)]
      exact .inl ⟨rfl, Nat.zero_le _⟩
    | false =>
      rw [before_of_neg hx, before_of_neg (hsame.symm.trans hx)]
      refine ih.imp ?_ Nat.succ_lt_succ
      rintro ⟨heq, hle⟩
      exact ⟨congrArg (c :: ·) heq, Nat.succ_le_succ hle⟩

theorem length_before_break (h : ∀ x, p ('\n' :: x) = true) (cs x : List Char) :
    (before p (cs ++ '\n' :: x)).length ≤ cs.length := by
  induction cs with
  | nil => rw [List.nil_append, before_of_pos (h x)]
  | cons c cs ih =>
    rw [List.cons_append]
    cases hc : p (c :: (cs ++ '\n' :: x)) with
    | true =>
      rw [before_of_pos hc]
      exact Nat.zero_le _
    | false =>
      rw [before_of_neg hc]
      exact Nat.succ_le_succ ih

theorem takeWhile_eq_before (p : Char → Bool) (cs : List Char) :
    cs.takeWhile p = before (fun cs => cs.head?.any fun c => !p c) cs := by
  induction cs with
  | nil => rfl
  | cons c cs ih => cases hc : p c <;> simp [before, hc, ih]

theorem blind_head? (p : Char → Bool) : Blind fun cs => cs.head?.any p := by
  intro cs x y
  cases cs <;> rfl

theorem isPrefixOf_break {xs : List Char} (hxs : '\n' ∉ xs) (cs x : List Char) :
    xs.isPrefixOf (cs ++ '\n' :: x) = xs.isPrefixOf cs := by
  rw [Bool.eq_iff_iff, List.isPrefixOf_iff_prefix, List.isPrefixOf_iff_prefix]
  constructor
  · intro h
    refine List.prefix_of_prefix_length_le h (List.prefix_append cs _) ?_
    -- a longer prefix holds the line break
    by_contra hlength
    have hlt := Nat.lt_of_not_le hlength
    have hget := h.getElem (i := cs.length) hlt
    rw [List.getElem_append_right (Nat.le_refl _)] at hget
    simp only [Nat.sub_self, List.getElem_cons_zero] at hget
    exact hxs (hget ▸ List.getElem_mem hlt)
  · intro h
    exact h.trans (List.prefix_append cs _)

theorem blind_isPrefixOf {xs : List Char} (hxs : '\n' ∉ xs) : Blind xs.isPrefixOf :=
  blind_of_eq (isPrefixOf_break hxs)

theorem blind_of_pair (hpair : ∀ c cs ds, cs.head? = ds.head? → p (c :: cs) = p (c :: ds))
    (hbreak : ∀ x y, p ('\n' :: x) = p ('\n' :: y)) : Blind p := by
  intro cs x y
  match cs with
  | [] => exact hbreak x y
  | [c] => exact hpair c _ _ rfl
  | c :: d :: cs => exact hpair c _ _ rfl

end Text

namespace Scan

theorem blind_endsMustache : Text.Blind endsMustache := by
  refine Text.blind_of_pair ?_ fun _ _ => rfl
  intro c cs ds h
  rw [endsMustache_cons, endsMustache_cons, h]

theorem endsLiteral_break (q : Char) (cs : List Char) : endsLiteral q ('\n' :: cs) = true := by
  simp [endsLiteral_cons]

theorem blind_endsLiteral (q : Char) : Text.Blind (endsLiteral q) := by
  refine Text.blind_of_pair ?_ ?_
  · intro c cs ds h
    rw [endsLiteral_cons, endsLiteral_cons, h]
  · intro x y
    rw [endsLiteral_break, endsLiteral_break]

theorem opens_break (cs x : List Char) : opens (cs ++ '\n' :: x) = opens cs := by
  have hneg : ∀ {c cs}, c ≠ '<' → (c = '{' → cs.head? ≠ some '{') → opens (c :: cs) = false := by
    intro c cs hangle hbrace
    rw [Bool.eq_false_iff]
    intro h
    rcases opens_eq_true h with hc | ⟨hc, hcs⟩
    · exact hangle hc
    · exact hbrace hc hcs
  match cs with
  | [] => exact hneg (by decide) (fun h => by cases h)
  | [c] =>
    by_cases hangle : c = '<'
    · subst hangle
      exact opens_pair (by decide) x
    · rw [List.singleton_append, hneg hangle (fun _ => by simp), hneg hangle (fun _ => by simp)]
  | c :: d :: cs =>
    by_cases hbang : c = '<' ∧ d = '!'
    · obtain ⟨rfl, rfl⟩ := hbang
      rw [List.cons_append, List.cons_append, opens_bang, opens_bang,
        Text.isPrefixOf_break (by decide)]
    · rw [List.cons_append, List.cons_append, opens_pair hbang, opens_pair hbang cs]

theorem of?_break (cs x : List Char) : Opening.of? (cs ++ '\n' :: x) = Opening.of? cs := by
  by_cases h : opens cs = true
  · exact of?_append h _
  · have hcs : Opening.of? cs = none := by simpa [opens] using h
    rw [← opens_break cs x] at h
    rw [hcs]
    simpa [opens] using h

end Scan

def Cursor.upTo (behind : List Char) (c : Cursor) : Cursor := ⟨c.position, c.rest ++ '\n' :: behind⟩

namespace Cursor

variable {c : Cursor} {x y : List Char}

theorem skip_upTo {n : Nat} (h : n ≤ c.rest.length) : (c.upTo x).skip n = (c.skip n).upTo x := by
  simp [upTo, skip, List.take_append_of_le_length h, List.drop_append_of_le_length h]

theorem head?_upTo : (c.upTo x).rest.head? = (c.upTo y).rest.head? := by
  obtain ⟨p, cs⟩ := c
  cases cs <;> rfl

theorem nextPosition_upTo : (c.upTo x).nextPosition = (c.upTo y).nextPosition := by
  obtain ⟨p, cs⟩ := c
  cases cs <;> rfl

theorem length_upTo : (c.upTo x).rest.length = c.rest.length + (x.length + 1) := by
  rw [upTo, List.length_append, List.length_cons]

theorem before_upTo {p : List Char → Bool} (h : Text.Blind p) (c : Cursor) (x y : List Char) :
    (Text.before p (c.upTo x).rest = Text.before p (c.upTo y).rest ∧
      (Text.before p (c.upTo x).rest).length ≤ c.rest.length) ∨
    c.rest.length < (Text.before p (c.upTo x).rest).length := h.before c.rest x y

theorem length_skip_upTo {n : Nat} (h : c.rest.length < n) :
    ((c.upTo x).skip n).rest.length ≤ x.length := by
  rw [rest_skip, List.length_drop, length_upTo]
  omega

end Cursor

namespace Scan

variable {α β : Type} {x y : List Char} {c : Cursor}

inductive Agrees (x y : List Char) (f : Scan α) (c : Cursor) : Prop
  | ok (a : α) (d : Cursor) : f (c.upTo x) = .ok a (d.upTo x) →
      f (c.upTo y) = .ok a (d.upTo y) → Agrees x y f c
  | error (e : SyntaxError) (d : Cursor) : f (c.upTo x) = .error e (d.upTo x) →
      f (c.upTo y) = .error e (d.upTo y) → Agrees x y f c
  | past : (stop f (c.upTo x)).rest.length ≤ x.length → Agrees x y f c

theorem Agrees.congr {f g : Scan α} (h : Agrees x y g c) (hx : f (c.upTo x) = g (c.upTo x))
    (hy : f (c.upTo y) = g (c.upTo y)) : Agrees x y f c := by
  cases h with
  | ok a d hgx hgy => exact .ok a d (hx.trans hgx) (hy.trans hgy)
  | error e d hgx hgy => exact .error e d (hx.trans hgx) (hy.trans hgy)
  | past h =>
    refine .past ?_
    rw [stop, hx]
    exact h

/-- What `f` does before it has read a line break does not depend on what stands behind it. -/
structure Shares (f : Scan α) : Prop where
  forward : Forward f
  agrees : ∀ c x y, Agrees x y f c

theorem agrees_skip (n : Nat) : Agrees x y (skip n) c := by
  by_cases h : n ≤ c.rest.length
  · refine .ok () (c.skip n) ?_ ?_
    · rw [skip_apply, Cursor.skip_upTo h]
    · rw [skip_apply, Cursor.skip_upTo h]
  · exact .past (Cursor.length_skip_upTo (Nat.lt_of_not_le h))

theorem reaches_bind {f : Scan α} {g : α → Scan β} (hg : ∀ a, Forward (g a)) (c : Cursor) :
    (stop f c).Reaches (stop (f >>= g) c) := by
  cases hf : f c with
  | ok a d =>
    rw [stop_bind_of_ok hf, stop_of_ok hf]
    exact hg a d
  | error e d =>
    simp only [stop, bind_apply, hf]
    exact d.reaches_refl

theorem Agrees.bind {f : Scan α} {g : α → Scan β} (hf : Agrees x y f c)
    (hg : ∀ a, Shares (g a)) : Agrees x y (f >>= g) c := by
  cases hf with
  | ok a d hx hy =>
    cases (hg a).agrees d x y with
    | ok b e hgx hgy =>
      exact .ok b e ((bind_of_ok hx).trans hgx) ((bind_of_ok hy).trans hgy)
    | error e d hgx hgy =>
      exact .error e d ((bind_of_ok hx).trans hgx) ((bind_of_ok hy).trans hgy)
    | past h =>
      refine .past ?_
      rwa [stop_bind_of_ok hx]
  | error e d hx hy =>
    refine .error e d ?_ ?_
    · rw [bind_apply, hx]
    · rw [bind_apply, hy]
  | past h => exact .past ((reaches_bind (fun a => (hg a).forward) _).length_le.trans h)

theorem shares_bind {f : Scan α} {g : α → Scan β} (hf : Shares f) (hg : ∀ a, Shares (g a)) :
    Shares (f >>= g) where
  forward := forward_bind hf.forward fun a => (hg a).forward
  agrees c x y := (hf.agrees c x y).bind hg

theorem shares_pure (a : α) : Shares (pure a) := ⟨forward_pure a, fun c _ _ => .ok a c rfl rfl⟩

theorem shares_fail (cause : SyntaxError.Cause) (p : Position) : Shares (fail cause p : Scan α) :=
  ⟨forward_fail cause p, fun c _ _ => .error ⟨cause, p⟩ c rfl rfl⟩

theorem shares_position : Shares position :=
  ⟨forward_position, fun c _ _ => .ok c.position c rfl rfl⟩

theorem shares_nextPosition : Shares nextPosition where
  forward := forward_nextPosition
  agrees c x y := by
    refine .ok _ c (nextPosition_apply _) ?_
    rw [nextPosition_apply, Cursor.nextPosition_upTo]

theorem shares_peek : Shares peek where
  forward := forward_peek
  agrees c x y := by
    refine .ok _ c (peek_apply _) ?_
    rw [peek_apply, Cursor.head?_upTo]

theorem shares_skip (n : Nat) : Shares (skip n) := ⟨forward_skip n, fun _ _ _ => agrees_skip n⟩

theorem shares_read : Shares read :=
  shares_bind shares_peek fun _ => shares_bind (shares_skip 1) fun _ => shares_pure _

theorem shares_ite {p : Prop} [Decidable p] {f g : Scan α} (hf : Shares f) (hg : Shares g) :
    Shares (if p then f else g) := by
  split
  · exact hf
  · exact hg

theorem shares_map (m : α → β) {f : Scan α} (hf : Shares f) : Shares (m <$> f) := by
  have hbind : m <$> f = f >>= fun a => pure (m a) := by
    funext c
    rw [map_apply, bind_apply]
    rfl
  rw [hbind]
  exact shares_bind hf fun a => shares_pure (m a)

theorem shares_require (p : Prop) [Decidable p] (cause : SyntaxError.Cause) (q : Position) :
    Shares (require p cause q) :=
  shares_ite (shares_pure ()) (shares_fail cause q)

theorem shares_expect (c : Char) : Shares (expect c) :=
  shares_bind shares_read fun _ => shares_bind shares_position fun _ => shares_require _ _ _

theorem shares_takeBefore {p : List Char → Bool} (hp : Text.Blind p) : Shares (takeBefore p) where
  forward := forward_takeBefore p
  agrees c x y := by
    rcases Cursor.before_upTo hp c x y with ⟨hsame, hle⟩ | hlt
    · refine .ok (Text.before p (c.upTo x).rest) (c.skip (Text.before p (c.upTo x).rest).length)
        ?_ ?_
      · rw [takeBefore_apply, Cursor.skip_upTo hle]
      · rw [takeBefore_apply, ← hsame, Cursor.skip_upTo hle]
    · exact .past (Cursor.length_skip_upTo hlt)

theorem shares_takeWhile (p : Char → Bool) : Shares (takeWhile p) := by
  have hbefore : takeWhile p = takeBefore fun cs => cs.head?.any fun c => !p c := by
    funext c
    rw [takeWhile_apply, takeBefore_apply, Text.takeWhile_eq_before]
  rw [hbefore]
  exact shares_takeBefore (Text.blind_head? _)

theorem stop_of_error {f : Scan α} {d : Cursor} {e : SyntaxError} (h : f c = .error e d) :
    stop f c = d := by
  rw [stop, h]

theorem many_of_not_lt {item : Scan (Option α)} {a : α} {d : Cursor}
    (h : item c = .ok (some a) d) (hlt : ¬ d.rest.length < c.rest.length) :
    many item c = .ok [a] d := by
  rw [many, h]
  exact if_neg hlt

theorem reaches_many {item : Scan (Option α)} (h : Forward item) (c : Cursor) :
    (stop item c).Reaches (stop (many item) c) := by
  cases hi : item c with
  | error e d =>
    rw [stop_of_error hi, stop_of_error (many_of_error hi)]
    exact d.reaches_refl
  | ok o d =>
    rw [stop_of_ok hi]
    cases o with
    | none =>
      rw [stop_of_ok (many_of_none hi)]
      exact d.reaches_refl
    | some a =>
      by_cases hlt : d.rest.length < c.rest.length
      · have hmany := many_of_some hi hlt
        cases hd : many item d with
        | ok as e =>
          rw [hd] at hmany
          rw [stop_of_ok hmany]
          exact (forward_many h).ok hd
        | error err e =>
          rw [hd] at hmany
          rw [stop_of_error hmany]
          exact (forward_many h).error hd
      · rw [stop_of_ok (many_of_not_lt hi hlt)]
        exact d.reaches_refl

theorem length_upTo_lt {c d : Cursor} :
    (d.upTo x).rest.length < (c.upTo x).rest.length ↔ d.rest.length < c.rest.length := by
  rw [Cursor.length_upTo, Cursor.length_upTo, Nat.add_lt_add_iff_right]

theorem agrees_many_of_some {item : Scan (Option α)} {a : α} {d : Cursor}
    (hx : item (c.upTo x) = .ok (some a) (d.upTo x)) (hy : item (c.upTo y) = .ok (some a) (d.upTo y))
    (hlt : d.rest.length < c.rest.length) (h : Agrees x y (many item) d) :
    Agrees x y (many item) c := by
  have hmx := many_of_some hx (length_upTo_lt.2 hlt)
  have hmy := many_of_some hy (length_upTo_lt.2 hlt)
  cases h with
  | ok as e hdx hdy =>
    rw [hdx] at hmx
    rw [hdy] at hmy
    exact .ok (a :: as) e hmx hmy
  | error err e hdx hdy =>
    rw [hdx] at hmx
    rw [hdy] at hmy
    exact .error err e hmx hmy
  | past hpast =>
    refine .past ?_
    cases hd : many item (d.upTo x) with
    | ok as e =>
      rw [hd] at hmx
      rwa [stop_of_ok hmx, ← stop_of_ok hd]
    | error err e =>
      rw [hd] at hmx
      rwa [stop_of_error hmx, ← stop_of_error hd]

theorem shares_many {item : Scan (Option α)} (h : Shares item) : Shares (many item) where
  forward := forward_many h.forward
  agrees c x y := by
    generalize hn : c.rest.length = n
    induction n using Nat.strongRecOn generalizing c with
    | ind n ih =>
      cases h.agrees c x y with
      | error e d hx hy => exact .error e d (many_of_error hx) (many_of_error hy)
      | past hpast => exact .past ((reaches_many h.forward _).length_le.trans hpast)
      | ok o d hx hy =>
        cases o with
        | none => exact .ok [] d (many_of_none hx) (many_of_none hy)
        | some a =>
          by_cases hlt : d.rest.length < c.rest.length
          · exact agrees_many_of_some hx hy hlt (ih _ (hn ▸ hlt) d rfl)
          · rw [← length_upTo_lt (x := x)] at hlt
            refine .ok [a] d (many_of_not_lt hx hlt) (many_of_not_lt hy ?_)
            rwa [length_upTo_lt, ← length_upTo_lt (x := x)]

theorem shares_name : Shares name :=
  shares_bind (shares_takeWhile _) fun _ => shares_pure _

theorem shares_mustacheBody : Shares mustacheBody := by
  refine shares_bind shares_position fun _ =>
    shares_bind (shares_takeBefore blind_endsMustache) fun _ => shares_bind shares_read fun _ => ?_
  split
  · exact shares_bind (shares_skip 1) fun _ => shares_bind shares_position fun _ =>
      shares_bind (shares_require _ _ _) fun _ => shares_pure _
  · exact shares_fail _ _

theorem shares_get {f : Cursor → Scan α} (hf : ∀ c, Shares (f c))
    (hsame : ∀ (c : Cursor) (x y : List Char), f (c.upTo x) = f (c.upTo y)) :
    Shares (get >>= f) where
  forward := forward_get_bind fun c => (hf c).forward
  agrees c x y := by
    refine ((hf (c.upTo x)).agrees c x y).congr rfl ?_
    rw [hsame c x y]
    rfl

theorem literal_upTo (q : Char) (c : Cursor) (x y : List Char) :
    Text.before (endsLiteral q) (c.upTo x).rest = Text.before (endsLiteral q) (c.upTo y).rest ∧
      ['{', '{'].isPrefixOf
          ((c.upTo x).rest.drop (Text.before (endsLiteral q) (c.upTo y).rest).length) =
        ['{', '{'].isPrefixOf
          ((c.upTo y).rest.drop (Text.before (endsLiteral q) (c.upTo y).rest).length) := by
  have hle := Text.length_before_break (endsLiteral_break q) c.rest y
  have hbraces : '\n' ∉ ['{', '{'] := by decide
  obtain ⟨hsame, -⟩ | hlt := Cursor.before_upTo (blind_endsLiteral q) c y x
  · refine ⟨hsame.symm, ?_⟩
    rw [Cursor.upTo, Cursor.upTo, List.drop_append_of_le_length hle,
      List.drop_append_of_le_length hle, Text.isPrefixOf_break hbraces,
      Text.isPrefixOf_break hbraces]
  · exact absurd hle (Nat.not_le.2 hlt)

theorem shares_embedded (q : Char) : Shares (embedded q) := by
  refine shares_get (fun _ => shares_ite ?_ (shares_pure none)) ?_
  · exact shares_bind (shares_skip _) fun _ => shares_bind shares_mustacheBody fun _ =>
      shares_pure _
  · intro c x y
    obtain ⟨hsame, hbraces⟩ := literal_upTo q c x y
    simp only [hsame, hbraces]

theorem shares_quotedValue (q : Char) : Shares (quotedValue q) :=
  shares_bind shares_position fun _ => shares_bind (shares_many (shares_embedded q)) fun _ =>
    shares_bind (shares_takeBefore (blind_endsLiteral q)) fun _ => shares_bind shares_read fun _ =>
      shares_bind (shares_require _ _ _) fun _ => shares_pure _

theorem shares_keyed : Shares keyed := by
  refine shares_bind shares_nextPosition fun _ => shares_bind shares_name fun _ =>
    shares_bind shares_peek fun _ => shares_ite (shares_pure _) ?_
  refine shares_bind (shares_skip 1) fun _ => shares_bind shares_read fun _ => ?_
  split
  · exact shares_bind (shares_expect _) fun _ => shares_bind shares_mustacheBody fun _ =>
      shares_pure _
  · exact shares_bind (shares_quotedValue _) fun _ => shares_pure _
  · exact shares_bind (shares_quotedValue _) fun _ => shares_pure _
  · exact shares_bind shares_position fun _ => shares_fail _ _

theorem require_congr {p q : Prop} [Decidable p] [Decidable q] (h : p ↔ q)
    {cause : SyntaxError.Cause} {start : Position} : require p cause start = require q cause start :=
  if_congr h rfl rfl

theorem shares_variadic : Shares variadic := by
  refine shares_bind shares_nextPosition fun start => shares_bind (shares_skip 1) fun _ =>
    shares_get (fun _ => ?_) ?_
  · exact shares_bind (shares_require _ _ _) fun _ => shares_bind (shares_skip 2) fun _ =>
      shares_bind (shares_expect _) fun _ => shares_bind (shares_expect _) fun _ =>
        shares_bind shares_mustacheBody fun _ => shares_pure _
  · intro c x y
    have hdots : ['.', '.'].isPrefixOf (c.upTo x).rest = ['.', '.'].isPrefixOf (c.upTo y).rest :=
      Text.blind_isPrefixOf (by decide) c.rest x y
    rw [require_congr (by rw [hdots])]

theorem shares_attribute? : Shares attribute? := by
  refine shares_bind (shares_takeWhile _) fun _ => shares_bind shares_peek fun _ => ?_
  split
  · exact shares_pure _
  · exact shares_pure _
  · exact shares_pure _
  · exact shares_map _ shares_variadic
  · exact shares_ite (shares_map _ shares_keyed) (shares_bind (shares_skip 1) fun _ =>
      shares_bind shares_position fun _ => shares_fail _ _)

theorem shares_attributes : Shares attributes :=
  shares_bind shares_peek fun _ => shares_ite (shares_many shares_attribute?) (shares_pure _)

theorem shares_startTag (start : Position) : Shares (startTag start) := by
  refine shares_bind shares_name fun _ => shares_bind shares_attributes fun _ =>
    shares_bind shares_read fun _ => ?_
  split
  · exact shares_pure _
  · exact shares_bind shares_position fun _ => shares_bind shares_peek fun _ =>
      shares_bind (shares_require _ _ _) fun _ => shares_bind (shares_skip 1) fun _ =>
        shares_pure _
  · exact shares_bind shares_position fun _ => shares_fail _ _

theorem shares_body (opening : Opening) (start : Position) : Shares (body opening start) := by
  cases opening with
  | endTag =>
    exact shares_bind shares_name fun _ => shares_bind (shares_expect _) fun _ =>
      shares_bind (shares_require _ _ _) fun _ => shares_pure _
  | comment =>
    exact shares_bind (shares_takeBefore (Text.blind_isPrefixOf (by decide))) fun _ =>
      shares_bind (shares_skip 3) fun _ => shares_pure _
  | startTag => exact shares_startTag start
  | mustache => exact shares_bind shares_mustacheBody fun _ => shares_pure _

theorem shares_construct : Shares construct := by
  refine shares_bind shares_nextPosition fun start => shares_get (fun c => ?_) ?_
  · split
    · exact shares_pure _
    · exact shares_bind (shares_skip _) fun _ => shares_body _ _
  · intro c x y
    simp only [Cursor.upTo, of?_break]

theorem textToken?_upTo {run : List Char} (h : run.length ≤ c.rest.length) :
    textToken? (c.upTo x) run = textToken? (c.upTo y) run := by
  have hle : (Text.leadingLayout run).length ≤ c.rest.length := by
    refine Nat.le_trans ?_ h
    unfold Text.leadingLayout
    split
    · exact (List.takeWhile_prefix _).length_le
    · exact Nat.zero_le _
  unfold textToken?
  split
  · rfl
  · rw [Cursor.skip_upTo hle, Cursor.skip_upTo hle, Cursor.nextPosition_upTo]

theorem shares_text? : Shares text? where
  forward := forward_text?
  agrees c x y := by
    rcases Cursor.before_upTo (Text.blind_of_eq opens_break) c x y with ⟨hsame, hle⟩ | hlt
    · refine .ok (textToken? (c.upTo x) (Text.before opens (c.upTo x).rest))
        (c.skip (Text.before opens (c.upTo x).rest).length) ?_ ?_
      · rw [text?_apply, Cursor.skip_upTo hle]
      · rw [text?_apply, ← hsame, Cursor.skip_upTo hle, textToken?_upTo hle]
    · exact .past (Cursor.length_skip_upTo hlt)

theorem shares_markup : Shares markup := by
  refine shares_bind shares_text? fun o => ?_
  cases o with
  | some t => exact shares_pure t
  | none => exact shares_construct

theorem shares_rawText {name : String} (hname : '\n' ∉ closingTag name) :
    Shares (rawText name) := by
  have hclose := Text.blind_isPrefixOf hname
  refine shares_bind shares_nextPosition fun _ => shares_bind (shares_takeBefore hclose) fun _ =>
    shares_get (fun _ => shares_ite (shares_ite ?_ (shares_pure _)) ?_) ?_
  · exact shares_bind (shares_skip _) fun _ => shares_pure _
  · exact shares_bind shares_position fun _ => shares_fail _ _
  · intro c x y
    have hsame : (closingTag name).isPrefixOf (c.upTo x).rest =
      (closingTag name).isPrefixOf (c.upTo y).rest := hclose c.rest x y
    exact if_congr (by rw [hsame]) rfl rfl

end Scan

namespace Reading

variable {s u : Reading} {x y : List Char} {l : Lexeme} {ls : List Lexeme}

def upTo (behind : List Char) (s : Reading) : Reading := ⟨s.mode, s.cursor.upTo behind⟩

def Mode.Unbroken (mode : Mode) : Prop := ∀ name, mode = .rawText name → '\n' ∉ Scan.closingTag name

theorem Mode.unbroken_markup : Mode.markup.Unbroken := nofun

theorem Mode.Unbroken.after {mode : Mode} (h : mode.Unbroken) (kind : Token.Kind) :
    (mode.after kind).Unbroken := by
  cases kind with
  | text data => exact h
  | startTag name attributes =>
    intro name' hmode hmem
    rw [Mode.after] at hmode
    split at hmode
    · rename_i hraw
      cases hmode
      have hname : '\n' ∈ name.toList := by simpa [Scan.closingTag] using hmem
      cases Feed.isNameChar_of_isRawText hraw _ hname
    · cases hmode
  | _ => exact unbroken_markup

theorem Mode.Unbroken.shares {mode : Mode} (h : mode.Unbroken) : Scan.Shares mode.token := by
  cases mode with
  | markup => exact Scan.shares_markup
  | rawText name => exact Scan.shares_rawText (h name rfl)

theorem next_upTo (hmode : s.mode.Unbroken) (y : List Char)
    (h : x.length < (s.upTo x).next.2.cursor.rest.length) :
    ∃ u : Reading, (s.upTo x).next.2 = u.upTo x ∧
      (s.upTo y).next = ((s.upTo x).next.1, u.upTo y) ∧ u.mode.Unbroken := by
  have htoken : ∀ z, (s.upTo z).mode.token (s.upTo z).cursor = s.mode.token (s.cursor.upTo z) :=
    fun _ => rfl
  cases hmode.shares.agrees s.cursor x y with
  | ok t d hx hy =>
    refine ⟨⟨s.mode.after t.kind, d⟩, ?_, ?_, hmode.after t.kind⟩
    · rw [next, htoken, hx]
      rfl
    · rw [next, next, htoken, htoken, hx, hy]
      rfl
  | error e d hx hy =>
    refine ⟨⟨.markup, d⟩, ?_, ?_, Mode.unbroken_markup⟩
    · rw [next, htoken, hx]
      rfl
    · rw [next, next, htoken, htoken, hx, hy]
      rfl
  | past hpast =>
    rw [cursor_next] at h
    exact absurd hpast (Nat.not_le.2 h)

theorem Scans.upTo (h : Scans (s.upTo x) ls u) (hmode : s.mode.Unbroken)
    (hu : x.length < u.cursor.rest.length) (y : List Char) :
    ∃ v : Reading, u = v.upTo x ∧ Scans (s.upTo y) ls (v.upTo y) := by
  generalize hs : s.upTo x = s' at h
  induction h generalizing s with
  | nil s' =>
    subst hs
    exact ⟨s, rfl, .nil _⟩
  | @cons s' t u l ls hnext hend htail ih =>
    subst hs
    have hlt := Nat.lt_of_lt_of_le hu htail.reaches.length_le
    obtain ⟨v, hv, hy, hvmode⟩ := next_upTo hmode y (by rw [hnext]; exact hlt)
    rw [hnext] at hv hy
    obtain ⟨w, hw, hscans⟩ := ih hvmode hu hv.symm
    exact ⟨w, hw, .cons hy hend hscans⟩

end Reading

end Template
