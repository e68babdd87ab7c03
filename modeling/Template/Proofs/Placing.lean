import Template.Proofs.Moving
import Template.Proofs.Pulling

/-! Scanning in place.  What stands in front of a text moves its positions and changes nothing
else; what stands behind it is not looked at by a scan that comes to a result before the end of the
text, nor by one that has found its last character. -/

namespace Template

namespace Text

def Steady (p : List Char → Bool) : Prop :=
  ∀ ⦃cs rest : List Char⦄, rest <:+ cs → p rest = true → ∀ behind, p (cs ++ behind) = p cs

variable {p : List Char → Bool}

theorem Steady.before_append (h : Steady p) {cs : List Char}
    (hcs : cs.drop (before p cs).length ≠ []) (behind : List Char) :
    before p (cs ++ behind) = before p cs := by
  have hstop := (drop_before p cs).resolve_left hcs
  induction cs with
  | nil => exact absurd rfl hcs
  | cons c cs ih =>
    have hsuffix : (c :: cs).drop (before p (c :: cs)).length <:+ c :: cs := List.drop_suffix _ _
    have hsame := h hsuffix hstop behind
    by_cases hc : p (c :: cs) = true
    · rw [before_of_pos hc, before_of_pos (hsame.trans hc)]
    · rw [Bool.not_eq_true] at hc
      rw [hc, List.cons_append] at hsame
      rw [before_of_neg hc] at hcs hstop ⊢
      rw [List.cons_append, before_of_neg hsame, ih hcs hstop]

theorem steady_isPrefixOf (xs : List Char) : Steady xs.isPrefixOf := by
  intro cs rest hrest hxs behind
  rw [Bool.eq_iff_iff, List.isPrefixOf_iff_prefix, List.isPrefixOf_iff_prefix]
  rw [List.isPrefixOf_iff_prefix] at hxs
  constructor
  · intro h
    have hlength := hxs.length_le.trans hrest.length_le
    exact List.prefix_of_prefix_length_le h (List.prefix_append cs behind) hlength
  · intro h
    exact h.trans (List.prefix_append cs behind)

theorem steady_of_pair (hnil : p [] = false)
    (hpair : ∀ x y cs behind, p (x :: y :: cs ++ behind) = p (x :: y :: cs))
    (hone : ∀ x, p [x] = true → ∀ behind, p (x :: behind) = true) : Steady p := by
  intro cs rest hrest hp behind
  cases cs with
  | nil =>
    rw [List.suffix_nil.1 hrest, hnil] at hp
    cases hp
  | cons x cs =>
    cases cs with
    | cons y cs => exact hpair x y cs behind
    | nil =>
      rcases List.suffix_cons_iff.1 hrest with rfl | hrest
      · rw [hp]
        exact hone x hp behind
      · rw [List.suffix_nil.1 hrest, hnil] at hp
        cases hp

end Text

namespace Scan

theorem steady_endsMustache : Text.Steady endsMustache := by
  refine Text.steady_of_pair rfl ?_ ?_
  · intro x y cs behind
    rw [List.cons_append, List.cons_append, endsMustache_cons, endsMustache_cons]
    rfl
  · intro x hx behind
    rw [endsMustache_cons] at hx ⊢
    simp_all

theorem opens_pair {x y : Char} (h : ¬ (x = '<' ∧ y = '!')) (cs : List Char) :
    opens (x :: y :: cs) = opens [x, y] := by
  simp only [opens, Opening.of?.eq_def]
  by_cases hx : x = '<'
  · subst hx
    by_cases hy : y = '/'
    · subst hy
      rfl
    · have hbang : y ≠ '!' := fun hbang => h ⟨rfl, hbang⟩
      simp [hbang]
  · by_cases hbrace : x = '{'
    · subst hbrace
      by_cases hy : y = '{'
      · subst hy
        rfl
      · simp [hy]
    · simp [hx, hbrace]

theorem opens_bang (cs : List Char) :
    opens ('<' :: '!' :: cs) = ['-', '-'].isPrefixOf cs := by
  have hstart : Text.isNameStart '!' = false := by decide
  match cs with
  | [] => simp [opens, Opening.of?, hstart]
  | [x] => simp [opens, Opening.of?, hstart, List.isPrefixOf]
  | x :: y :: cs =>
    by_cases hx : x = '-'
    · by_cases hy : y = '-'
      · simp [opens, Opening.of?, hx, hy]
      · simp [opens, Opening.of?, hstart, hx, hy, Ne.symm hy, List.isPrefixOf]
    · simp [opens, Opening.of?, hstart, hx, Ne.symm hx, List.isPrefixOf]

theorem steady_opens : Text.Steady opens := by
  intro cs rest hrest ho behind
  match cs with
  | [] | [_] => exact absurd ((two_le_length_of_opens ho).trans hrest.length_le) (by simp)
  | x :: y :: cs =>
    by_cases h : x = '<' ∧ y = '!'
    · -- only a comment is not told by its first two characters
      obtain ⟨rfl, rfl⟩ := h
      rw [List.cons_append, List.cons_append, opens_bang, opens_bang]
      rcases List.suffix_cons_iff.1 hrest with rfl | hrest
      · rw [opens_bang] at ho
        exact Text.steady_isPrefixOf _ cs.suffix_refl ho behind
      rcases List.suffix_cons_iff.1 hrest with rfl | hrest
      · rcases opens_eq_true ho with hc | ⟨hc, -⟩ <;> cases hc
      · match cs with
        | [] | [_] => exact absurd ((two_le_length_of_opens ho).trans hrest.length_le) (by simp)
        | x :: y :: cs => rfl
    · rw [List.cons_append, List.cons_append, opens_pair h, opens_pair h cs]

end Scan

/-- The cursor in a text with another one in front, which ends at `base`, and one behind. -/
def Cursor.place (base : Position) (behind : List Char) (c : Cursor) : Cursor :=
  ⟨Position.move base c.position, c.rest ++ behind⟩

namespace Cursor

variable {base : Position} {behind : List Char} {c : Cursor}

theorem skip_place {n : Nat} (h : behind = [] ∨ n ≤ c.rest.length) :
    (c.place base behind).skip n = (c.skip n).place base behind := by
  rcases h with rfl | h
  · simp [place, skip, Position.move_after]
  · simp [place, skip, Position.move_after, List.take_append_of_le_length h,
      List.drop_append_of_le_length h]

theorem nextPosition_place (h : behind = [] ∨ c.rest ≠ []) :
    (c.place base behind).nextPosition = Position.move base c.nextPosition := by
  rw [nextPosition, skip_place (h.imp id List.length_pos_iff.2)]
  rfl

theorem before_place {p : List Char → Bool} (hp : Text.Steady p)
    (h : behind = [] ∨ (c.skip (Text.before p c.rest).length).rest ≠ []) :
    Text.before p (c.place base behind).rest = Text.before p c.rest := by
  rcases h with rfl | hne
  · rw [place, List.append_nil]
  · exact hp.before_append hne behind

theorem head?_place (h : behind = [] ∨ c.rest ≠ []) :
    (c.place base behind).rest.head? = c.rest.head? := by
  rcases h with rfl | h
  · rw [place, List.append_nil]
  · obtain ⟨x, xs, hc⟩ := List.exists_cons_of_ne_nil h
    rw [place, hc]
    rfl

end Cursor

namespace Scan

variable {α β : Type} {base : Position} {behind : List Char} {m : α → α} {m' : β → β} {c : Cursor}

def placed (base : Position) (behind : List Char) (m : α → α) :
    EStateM.Result SyntaxError Cursor α → EStateM.Result SyntaxError Cursor α
  | .ok a d => .ok (m a) (d.place base behind)
  | .error e d => .error (e.move base) (d.place base behind)

def Inside (behind : List Char) : EStateM.Result SyntaxError Cursor α → Prop
  | .ok _ d => behind = [] ∨ d.rest ≠ []
  | .error _ _ => behind = []

/-- What `x` does, `y` does in place; `m` moves the results. -/
structure Places (base : Position) (behind : List Char) (m : α → α) (x y : Scan α) : Prop where
  forward : Forward x
  apply : ∀ {c}, Inside behind (x c) → y (c.place base behind) = placed base behind m (x c)

theorem places_pure (a : α) : Places base behind m (pure a) (pure (m a)) :=
  ⟨forward_pure a, fun _ => rfl⟩

theorem places_fail (cause : SyntaxError.Cause) (p : Position) :
    Places base behind m (fail cause p) (fail cause (Position.move base p)) :=
  ⟨forward_fail cause p, fun _ => rfl⟩

theorem Inside.of_bind {x : Scan α} {f : α → Scan β} (hf : ∀ a, Forward (f a))
    (h : Inside behind ((x >>= f) c)) : Inside behind (x c) := by
  rw [bind_apply] at h
  cases hx : x c with
  | error e d =>
    rw [hx] at h
    exact h
  | ok a d =>
    rw [hx] at h
    change Inside behind (f a d) at h
    cases hfa : f a d with
    | error e d' =>
      rw [hfa] at h
      exact .inl h
    | ok b d' =>
      rw [hfa] at h
      exact h.imp id ((hf a).ok hfa).rest_ne_nil

theorem places_bind {x y : Scan α} {f g : α → Scan β} (hx : Places base behind m x y)
    (hf : ∀ a, Places base behind m' (f a) (g (m a))) :
    Places base behind m' (x >>= f) (y >>= g) where
  forward := forward_bind hx.forward fun a => (hf a).forward
  apply := by
    intro c h
    have hxc := hx.apply (h.of_bind fun a => (hf a).forward)
    rw [bind_apply] at h
    rw [bind_apply, bind_apply, hxc]
    cases hc : x c with
    | error e d => rfl
    | ok a d =>
      rw [hc] at h
      exact (hf a).apply h

theorem places_map {x y : Scan α} {f g : α → β} (hx : Places base behind m x y)
    (hf : ∀ a, g (m a) = m' (f a)) : Places base behind m' (f <$> x) (g <$> y) where
  forward := forward_map f hx.forward
  apply := by
    intro c h
    have hxc := @hx.apply c
    rw [map_apply] at h
    rw [map_apply, map_apply]
    cases hc : x c with
    | error e d =>
      rw [hc] at h hxc
      rw [hxc h]
      rfl
    | ok a d =>
      rw [hc] at h hxc
      rw [hxc h]
      exact congrArg (EStateM.Result.ok · (d.place base behind)) (hf a)

theorem places_ite {p : Prop} [Decidable p] {x y x' y' : Scan α}
    (hx : Places base behind m x y) (hx' : Places base behind m x' y') :
    Places base behind m (if p then x else x') (if p then y else y') := by
  split
  · exact hx
  · exact hx'

theorem places_position : Places base behind (Position.move base) position position :=
  ⟨forward_position, fun _ => rfl⟩

theorem places_nextPosition :
    Places base behind (Position.move base) nextPosition nextPosition where
  forward := forward_nextPosition
  apply := by
    intro c h
    rw [nextPosition_apply, Cursor.nextPosition_place h]
    rfl

theorem places_peek : Places base behind id peek peek where
  forward := forward_peek
  apply := by
    intro c h
    rw [peek_apply, Cursor.head?_place h]
    rfl

theorem places_skip (n : Nat) : Places base behind id (skip n) (skip n) where
  forward := forward_skip n
  apply := by
    intro c h
    rw [skip_apply, Cursor.skip_place]
    · rfl
    · refine Or.imp id ?_ h
      intro hne
      rw [Cursor.rest_skip, ne_eq, List.drop_eq_nil_iff] at hne
      omega

theorem places_read : Places base behind id read read :=
  places_bind places_peek fun found => places_bind (places_skip 1) fun _ => places_pure found

theorem places_require (p : Prop) [Decidable p] (cause : SyntaxError.Cause) (q : Position) :
    Places base behind id (require p cause q) (require p cause (Position.move base q)) :=
  places_ite (places_pure ()) (places_fail cause q)

theorem places_expect (x : Char) : Places base behind id (expect x) (expect x) :=
  places_bind places_read fun found => places_bind places_position fun p =>
    places_require (found = some x) (.unexpected found) p

theorem places_takeBefore {p : List Char → Bool} (hp : Text.Steady p) :
    Places base behind id (takeBefore p) (takeBefore p) where
  forward := forward_takeBefore p
  apply := by
    intro c h
    rw [takeBefore_apply, Cursor.before_place hp h,
      Cursor.skip_place (.inr (Text.length_before_le p c.rest))]
    rfl

theorem places_takeWhile (p : Char → Bool) :
    Places base behind id (takeWhile p) (takeWhile p) where
  forward := forward_takeWhile p
  apply := by
    intro c h
    have hfront : (c.place base behind).rest.takeWhile p = c.rest.takeWhile p := by
      rcases h with rfl | hne
      · rw [Cursor.place, List.append_nil]
      · rw [Cursor.place, List.takeWhile_append, if_neg]
        intro hall
        apply hne
        rw [Cursor.rest_skip, hall, List.drop_length]
    rw [takeWhile_apply, hfront, Cursor.skip_place (.inr (List.takeWhile_prefix p).length_le)]
    rfl

theorem length_place_lt {d : Cursor} :
    (d.place base behind).rest.length < (c.place base behind).rest.length ↔
      d.rest.length < c.rest.length := by
  rw [Cursor.place, Cursor.place, List.length_append, List.length_append, Nat.add_lt_add_iff_right]

theorem places_many {item item' : Scan (Option α)}
    (h : Places base behind (Option.map m) item item') :
    Places base behind (List.map m) (many item) (many item') where
  forward := forward_many h.forward
  apply := by
    intro c hc
    have hitem := @h.apply c
    fun_induction many item c with
    | case1 c e d hi =>
      rw [hi] at hitem
      exact many_of_error (hitem hc)
    | case2 c d hi =>
      rw [hi] at hitem
      exact many_of_none (hitem hc)
    | case3 c a d hi hlt e d' hm ih =>
      rw [hi] at hitem
      rw [many_of_some (hitem (.inl hc)) (length_place_lt.2 hlt), ih (hm ▸ hc) h.apply, hm]
      rfl
    | case4 c a d hi hlt as d' hm ih =>
      rw [hi] at hitem
      have hd := hc.imp id ((forward_many h.forward).ok hm).rest_ne_nil
      rw [many_of_some (hitem hd) (length_place_lt.2 hlt), ih (hm ▸ hc) h.apply, hm]
      rfl
    | case5 c a d hi hlt =>
      rw [hi] at hitem
      rw [many, hitem hc]
      exact if_neg (fun hlt' => hlt (length_place_lt.1 hlt'))

end Scan

end Template
