import Template.Proofs.Placing
import Template.Proofs.Vocabulary

namespace Template

namespace Scan

open Pull (mustacheEnd mustacheBody_eq)

variable {base : Position} {behind : List Char} {c d : Cursor}

theorem places_name : Places base behind id name name :=
  places_bind (places_takeWhile _) fun _ => places_pure _

theorem steady_endsComment : Text.Steady endsComment := Text.steady_isPrefixOf _

theorem places_mustacheBody : Places base behind id mustacheBody mustacheBody := by
  refine places_bind places_position fun opened => places_bind
    (places_takeBefore steady_endsMustache) fun body => places_bind places_read fun found => ?_
  by_cases hbrace : found = some '}'
  · subst hbrace
    exact places_bind (places_skip 1) fun _ => places_bind places_position fun p =>
      places_bind (places_require (body ≠ []) .emptyMustache p) fun _ => places_pure _
  · simp only [id_eq]
    exact places_fail (.unexpected found) opened

section Quoted

open Pull (quotedEnd quotedEnd_cons quotedEnd_braces quotedEnd_stop quotedValue_eq)

variable {q : Char}

theorem inside_quotedEnd {opened : Position} {taken : List Char × List String}
    (h : Inside behind (quotedEnd q opened taken c)) : behind = [] ∨ c.rest ≠ [] := by
  refine Decidable.or_iff_not_imp_right.2 ?_
  intro hc
  rw [Decidable.not_not] at hc
  rw [quotedEnd_stop (by rw [hc]; rfl) (by rw [hc]; rfl), hc] at h
  exact h

theorem stops_of_head? (hq : q ≠ '{') {cs : List Char}
    (h : ∀ x ∈ cs.head?, x = q ∨ x = '\n') :
    Text.before (endsLiteral q) cs = [] ∧ ['{', '{'].isPrefixOf cs = false := by
  cases cs with
  | nil => exact ⟨rfl, rfl⟩
  | cons x cs =>
    have hx := h x rfl
    have hbrace : x ≠ '{' := by
      rcases hx with rfl | rfl
      · exact hq
      · decide
    constructor
    · apply Text.before_of_pos
      simpa [endsLiteral_cons, hbrace] using hx
    · simp [List.isPrefixOf, hbrace.symm]

theorem quotedEnd_place_stop (hq : q ≠ '{') {opened : Position} {taken : List Char × List String}
    (hinside : behind = [] ∨ c.rest ≠ []) (h : ∀ x ∈ c.rest.head?, x = q ∨ x = '\n') :
    quotedEnd q (Position.move base opened) taken (c.place base behind) =
      placed base behind id (quotedEnd q opened taken c) := by
  have hhead : (c.place base behind).rest.head? = c.rest.head? := Cursor.head?_place hinside
  have hhere := stops_of_head? hq h
  rw [← hhead] at h
  have hplace := stops_of_head? hq h
  rw [quotedEnd_stop hhere.1 hhere.2, quotedEnd_stop hplace.1 hplace.2, hhead,
    Cursor.skip_place (hinside.imp id List.length_pos_iff.2)]
  split <;> rfl

theorem endsLiteral_append {x : Char} {xs : List Char} (h : behind = [] ∨ xs ≠ []) :
    endsLiteral q (x :: (xs ++ behind)) = endsLiteral q (x :: xs) := by
  rw [endsLiteral_cons, endsLiteral_cons]
  rcases h with rfl | hxs
  · rw [List.append_nil]
  · obtain ⟨y, ys, rfl⟩ := List.exists_cons_of_ne_nil hxs
    rfl

theorem eq_of_endsLiteral {x : Char} {xs : List Char} (h : endsLiteral q (x :: xs) = true)
    (hbraces : ¬ (x = '{' ∧ xs.head? = some '{')) : x = q ∨ x = '\n' := by
  rw [endsLiteral_cons] at h
  simp only [Bool.or_eq_true, decide_eq_true_eq, Bool.and_eq_true] at h
  rcases h with (h | h) | h
  · exact absurd h hbraces
  · exact .inl h
  · exact .inr h

theorem quotedEnd_place_braces {opened : Position} {taken : List Char × List String}
    {xs : List Char} (hc : c.rest = '{' :: '{' :: xs)
    (h : Inside behind (quotedEnd q opened taken c))
    (hnext : ∀ {taken d}, d.rest.length < c.rest.length →
      Inside behind (quotedEnd q opened taken d) →
        quotedEnd q (Position.move base opened) taken (d.place base behind) =
          placed base behind id (quotedEnd q opened taken d)) :
    quotedEnd q (Position.move base opened) taken (c.place base behind) =
      placed base behind id (quotedEnd q opened taken c) := by
  have hplace : (c.place base behind).rest = '{' :: '{' :: (xs ++ behind) := by
    rw [Cursor.place, hc]
    rfl
  have htwo : (c.place base behind).skip 2 = (c.skip 2).place base behind :=
    Cursor.skip_place (.inr (by simp [hc]))
  have hbody : Inside behind (mustacheBody (c.skip 2)) →
      mustacheBody ((c.skip 2).place base behind) = _ := places_mustacheBody.apply
  rw [quotedEnd_braces hc] at h ⊢
  rw [quotedEnd_braces hplace, htwo]
  cases he : mustacheBody (c.skip 2) with
  | error e d =>
    rw [he] at h hbody
    rw [hbody h]
    rfl
  | ok e d =>
    rw [he] at h hbody
    rw [hbody (inside_quotedEnd h)]
    refine hnext ?_ h
    have hle := (forward_mustacheBody.ok he).length_le
    simp only [Cursor.rest_skip, List.length_drop, hc, List.length_cons] at hle ⊢
    omega

theorem quotedEnd_place (hq : q ≠ '{') {opened : Position} {taken : List Char × List String}
    (h : Inside behind (quotedEnd q opened taken c)) :
    quotedEnd q (Position.move base opened) taken (c.place base behind) =
      placed base behind id (quotedEnd q opened taken c) := by
  generalize hn : c.rest.length = n
  induction n using Nat.strongRecOn generalizing c taken with
  | ind n ih =>
    have hinside := inside_quotedEnd h
    rcases c.rest_eq_nil_or_cons with hc | ⟨x, xs, hc⟩
    · exact quotedEnd_place_stop hq hinside (by simp [hc])
    by_cases hbraces : x = '{' ∧ xs.head? = some '{'
    · obtain ⟨rfl, hxs⟩ := hbraces
      obtain ⟨ys, rfl⟩ := List.head?_eq_some_iff.1 hxs
      exact quotedEnd_place_braces hc h fun hlt hd => ih _ (hn ▸ hlt) hd rfl
    by_cases hx : endsLiteral q (x :: xs) = true
    · have hstop := eq_of_endsLiteral hx hbraces
      exact quotedEnd_place_stop hq hinside (by simpa [hc] using hstop)
    rw [Bool.not_eq_true] at hx
    have hplace : (c.place base behind).rest = x :: (xs ++ behind) := by
      rw [Cursor.place, hc]
      rfl
    have hone : (c.place base behind).skip 1 = (c.skip 1).place base behind :=
      Cursor.skip_place (.inr (by simp [hc]))
    rw [quotedEnd_cons hc hx] at h ⊢
    have hnext : behind = [] ∨ xs ≠ [] := by
      simpa [hc] using inside_quotedEnd h
    rw [quotedEnd_cons hplace ((endsLiteral_append hnext).trans hx), hone]
    refine ih _ ?_ h rfl
    simp [← hn, hc]

theorem places_quotedValue (hq : q ≠ '{') :
    Places base behind id (quotedValue q) (quotedValue q) where
  forward := forward_quotedValue q
  apply := by
    intro c h
    rw [quotedValue_eq] at h ⊢
    rw [quotedValue_eq]
    exact quotedEnd_place hq h

end Quoted

theorem places_keyed : Places base behind (Attribute.move base) keyed keyed := by
  refine places_bind places_nextPosition fun start => places_bind places_name fun key =>
    places_bind places_peek fun found => places_ite (places_pure _) ?_
  refine places_bind (places_skip 1) fun _ => places_bind places_read fun found => ?_
  by_cases hbrace : found = some '{'
  · subst hbrace
    exact places_bind (places_expect '{') fun _ => places_bind places_mustacheBody fun _ =>
      places_pure _
  by_cases hdouble : found = some '"'
  · subst hdouble
    exact places_bind (places_quotedValue (by decide)) fun value =>
      places_pure _
  by_cases hsingle : found = some '\''
  · subst hsingle
    exact places_bind (places_quotedValue (by decide)) fun value =>
      places_pure _
  simp only [id_eq]
  exact places_bind places_position fun p => places_fail (.unexpected found) p

theorem places_require_rest {α : Type} {m : α → α} {p : List Char → Bool} (hp : Text.Steady p)
    (cause : SyntaxError.Cause) (q : Position) {x y : Scan α} (h : Places base behind m x y) :
    Places base behind m (do require (p (← get).rest) cause q; x)
      (do require (p (← get).rest) cause (Position.move base q); y) where
  forward := forward_get_bind fun _ => forward_bind (forward_require _ _ _) fun _ => h.forward
  apply := by
    intro c hc
    simp only [bind_apply, get_apply, require_apply] at hc ⊢
    by_cases hrest : p c.rest = true
    · have hplace : p (c.place base behind).rest = true :=
        (hp c.rest.suffix_refl hrest behind).trans hrest
      rw [if_pos hrest] at hc ⊢
      rw [if_pos hplace]
      exact h.apply hc
    · rw [if_neg hrest] at hc ⊢
      cases hc
      rw [if_neg (by rwa [Cursor.place, List.append_nil])]
      rfl

theorem places_variadic : Places base behind (Attribute.move base) variadic variadic :=
  places_bind places_nextPosition fun start => places_bind (places_skip 1) fun _ =>
    places_require_rest (Text.steady_isPrefixOf _) (.unexpected (some '.')) start <|
      places_bind (places_skip 2) fun _ => places_bind (places_expect '{') fun _ =>
        places_bind (places_expect '{') fun _ => places_bind places_mustacheBody fun _ =>
          places_pure _

theorem places_attribute? :
    Places base behind (Option.map (Attribute.move base)) attribute? attribute? := by
  refine places_bind (places_takeWhile _) fun _ => places_bind places_peek fun found => ?_
  cases found with
  | none => exact places_pure none
  | some x =>
    by_cases hangle : x = '>'
    · subst hangle
      exact places_pure none
    by_cases hslash : x = '/'
    · subst hslash
      exact places_pure none
    by_cases hdot : x = '.'
    · subst hdot
      exact places_map places_variadic fun _ => rfl
    simp only [id_eq]
    exact places_ite (places_map places_keyed fun _ => rfl) (places_bind (places_skip 1) fun _ =>
      places_bind places_position fun p => places_fail (.unexpected (some x)) p)

theorem places_attributes :
    Places base behind (List.map (Attribute.move base)) attributes attributes :=
  places_bind places_peek fun _ => places_ite (places_many places_attribute?) (places_pure [])

theorem places_mustache (start : Position) :
    Places base behind (Token.move base) (mustache start) (mustache (Position.move base start)) :=
  places_bind places_mustacheBody fun _ => places_pure _

theorem places_comment (start : Position) :
    Places base behind (Token.move base) (comment start) (comment (Position.move base start)) :=
  places_bind (places_takeBefore steady_endsComment) fun _ =>
    places_bind (places_skip 3) fun _ => places_pure _

theorem places_endTag (start : Position) :
    Places base behind (Token.move base) (endTag start) (endTag (Position.move base start)) :=
  places_bind places_name fun name => places_bind (places_expect '>') fun _ =>
    places_bind (places_require _ (.voidClosingTag name) start) fun _ =>
      places_pure _

theorem move_tagKind (name : String) (attributes : List Attribute) :
    (tagKind name attributes).move base = tagKind name (attributes.map (Attribute.move base)) := by
  unfold tagKind
  split <;> rfl

theorem places_startTag (start : Position) :
    Places base behind (Token.move base) (startTag start)
      (startTag (Position.move base start)) := by
  refine places_bind places_name fun name => places_bind places_attributes fun attributes =>
    places_bind places_read fun found => ?_
  by_cases hangle : found = some '>'
  · subst hangle
    simp only [id_eq, ← move_tagKind]
    exact places_pure _
  by_cases hslash : found = some '/'
  · subst hslash
    exact places_bind places_position fun slash => places_bind places_peek fun found =>
      places_bind (places_require (found = some '>') (.unclosedSlash found) slash) fun _ =>
        places_bind (places_skip 1) fun _ => places_pure _
  simp only [id_eq]
  exact places_bind places_position fun p => places_fail (.unexpected found) p

theorem places_body (opening : Opening) (start : Position) :
    Places base behind (Token.move base) (body opening start)
      (body opening (Position.move base start)) := by
  cases opening with
  | endTag => exact places_endTag start
  | comment => exact places_comment start
  | startTag => exact places_startTag start
  | mustache => exact places_mustache start

section Seals

variable {α β : Type} {m : α → α} {m' : β → β}

/-- A result of `x` ends in a character of its own, so that `y` comes to it in place although the
text may end there. -/
def Seals (base : Position) (behind : List Char) (m : α → α) (x y : Scan α) : Prop :=
  ∀ {c d a}, x c = .ok a d →
    c.rest ≠ [] ∧ y (c.place base behind) = .ok (m a) (d.place base behind)

theorem seals_bind {x y : Scan α} {f g : α → Scan β} (hx : Places base behind m x y)
    (hf : ∀ a, Seals base behind m' (f a) (g (m a))) :
    Seals base behind m' (x >>= f) (y >>= g) := by
  intro c e b h
  obtain ⟨a, d, hxc, hfd⟩ := bind_eq_ok.1 h
  obtain ⟨hne, hgd⟩ := hf a hfd
  have hyc := @hx.apply c
  rw [hxc] at hyc
  exact ⟨(hx.forward.ok hxc).rest_ne_nil hne, bind_eq_ok.2 ⟨m a, _, hyc (.inr hne), hgd⟩⟩

theorem seals_then {x y : Scan α} {f g : α → Scan β} (hx : Seals base behind m x y)
    (hf : ∀ {a b d e}, f a d = .ok b e →
      g (m a) (d.place base behind) = .ok (m' b) (e.place base behind)) :
    Seals base behind m' (x >>= f) (y >>= g) := by
  intro c e b h
  obtain ⟨a, d, hxc, hfd⟩ := bind_eq_ok.1 h
  obtain ⟨hne, hyc⟩ := hx hxc
  exact ⟨hne, bind_eq_ok.2 ⟨m a, _, hyc, hf hfd⟩⟩

theorem ne_nil_of_head? {cs : List Char} {x : Char} (h : cs.head? = some x) : cs ≠ [] :=
  List.ne_nil_of_mem (List.mem_of_mem_head? h)

theorem seals_expect (x : Char) : Seals base behind id (expect x) (expect x) := by
  intro c d a h
  simp only [expect, bind_apply, read_apply, position_apply, require_apply] at h ⊢
  split at h
  · rename_i hx
    cases h
    have hne := ne_nil_of_head? hx
    refine ⟨hne, ?_⟩
    rw [Cursor.head?_place (.inr hne), if_pos hx,
      Cursor.skip_place (.inr (List.length_pos_iff.2 hne))]
  · cases h

theorem seals_endTag (start : Position) :
    Seals base behind (Token.move base) (endTag start) (endTag (Position.move base start)) := by
  refine seals_bind places_name fun name => seals_then (seals_expect '>') ?_
  intro _ t d e h
  by_cases hvoid : Element.isVoid name = false
  · rw [bind_apply, require_apply, if_pos hvoid] at h
    rw [bind_apply, require_apply, id_eq, if_pos hvoid]
    cases h
    rfl
  · rw [bind_apply, require_apply, if_neg hvoid] at h
    cases h

theorem seals_mustacheBody : Seals base behind id mustacheBody mustacheBody := by
  intro c d e h
  rw [mustacheBody_eq] at h ⊢
  have hends := Text.drop_before endsMustache c.rest
  have hfront := @Text.Steady.before_append endsMustache steady_endsMustache c.rest
  have hlength := Text.length_before_le endsMustache c.rest
  simp only [mustacheEnd] at h ⊢
  generalize Text.before endsMustache c.rest = body at h hends hfront hlength
  rw [← Cursor.rest_skip] at hends hfront
  generalize hd : c.skip body.length = d' at h hends hfront
  split at h
  · rename_i hhead
    have hne : d'.rest ≠ [] := ne_nil_of_head? hhead
    obtain ⟨zs, hzs⟩ : ∃ zs, d'.rest = '}' :: '}' :: zs := by
      rcases endsMustache_eq_true (hends.resolve_left hne) with ⟨zs, hzs⟩ | ⟨zs, hzs⟩
      · rw [hzs] at hhead
        cases hhead
      · exact ⟨zs, hzs⟩
    have hplace : (c.place base behind).rest = c.rest ++ behind := rfl
    refine ⟨fun hnil => hne (by rw [← hd, Cursor.rest_skip, hnil, List.drop_nil]), ?_⟩
    rw [hplace, hfront hne, Cursor.skip_place (.inr hlength), hd, Cursor.head?_place (.inr hne),
      hhead, Cursor.skip_place (.inr (by simp [hzs]))]
    simp only
    split at h
    · cases h
    · cases h
      rw [if_neg ‹_›]
      rfl
  · cases h

theorem seals_mustache (start : Position) :
    Seals base behind (Token.move base) (mustache start) (mustache (Position.move base start)) := by
  refine seals_then seals_mustacheBody ?_
  intro expression t d e h
  cases h
  rfl

theorem seals_startTag (start : Position) :
    Seals base behind (Token.move base) (startTag start) (startTag (Position.move base start)) := by
  refine seals_bind places_name fun name => seals_bind places_attributes fun attributes => ?_
  intro c d t h
  rw [bind_apply, read_apply] at h ⊢
  generalize hfound : c.rest.head? = found at h
  by_cases hangle : found = some '>'
  · subst hangle
    have hne := ne_nil_of_head? hfound
    cases h
    rw [Cursor.head?_place (.inr hne), hfound, Cursor.skip_place (.inr (List.length_pos_iff.2 hne))]
    simp only [← move_tagKind]
    exact ⟨hne, rfl⟩
  by_cases hslash : found = some '/'
  · subst hslash
    have hne := ne_nil_of_head? hfound
    rw [Cursor.head?_place (.inr hne), hfound, Cursor.skip_place (.inr (List.length_pos_iff.2 hne))]
    simp only [bind_apply, position_apply, peek_apply, require_apply] at h ⊢
    by_cases hclose : (c.skip 1).rest.head? = some '>'
    · have hnext := ne_nil_of_head? hclose
      rw [if_pos hclose] at h
      rw [Cursor.head?_place (.inr hnext), if_pos hclose]
      cases h
      simp only [skip_apply, Cursor.skip_place (.inr (List.length_pos_iff.2 hnext))]
      exact ⟨hne, rfl⟩
    · rw [if_neg hclose] at h
      cases h
  · simp only at h
    cases h

end Seals

section Markup

theorem Inside.of_forward {α : Type} {x : Scan α} (hx : Forward x) (h : Inside behind (x c)) :
    behind = [] ∨ c.rest ≠ [] := by
  cases hc : x c with
  | error e d =>
    rw [hc] at h
    exact .inl h
  | ok a d =>
    rw [hc] at h
    exact h.imp id (hx.ok hc).rest_ne_nil

theorem width_le_length {opening : Opening} (h : Opening.of? c.rest = some opening) :
    opening.width ≤ c.rest.length := by
  rw [Opening.of?.eq_def] at h
  split at h
  · cases h
    simp [*, Opening.width]
  · cases h
    simp [*, Opening.width]
  · split at h
    · cases h
      simp [*, Opening.width]
    · cases h
  · cases h
    simp [*, Opening.width]
  · cases h

theorem of?_append {cs : List Char} (h : opens cs = true) (behind : List Char) :
    Opening.of? (cs ++ behind) = Opening.of? cs := by
  rw [opens, Option.isSome_iff_exists] at h
  obtain ⟨opening, h⟩ := h
  rw [h]
  rw [Opening.of?.eq_def] at h
  split at h
  · exact h
  · exact h
  · rename_i x xs hslash hbang
    split at h
    · rename_i hx
      have hcs : Opening.of? ('<' :: x :: (xs ++ behind)) = some .startTag := by
        have hne : x ≠ '/' ∧ x ≠ '!' := by
          constructor <;> (rintro rfl; revert hx; decide)
        simp [Opening.of?, hne, hx]
      exact hcs.trans h
    · cases h
  · exact h
  · cases h

theorem textToken?_place {run : List Char}
    (h : behind = [] ∨ (c.skip run.length).rest ≠ []) :
    textToken? (c.place base behind) run = (textToken? c run).map (Token.move base) := by
  have hlayout : (Text.leadingLayout run).length ≤ run.length := by
    unfold Text.leadingLayout
    split
    · exact (List.takeWhile_prefix _).length_le
    · exact Nat.zero_le _
  have hrest : behind = [] ∨ (Text.leadingLayout run).length < c.rest.length := by
    refine h.imp id ?_
    intro hne
    rw [Cursor.rest_skip, ne_eq, List.drop_eq_nil_iff] at hne
    omega
  unfold textToken?
  split
  · rfl
  · rw [Cursor.skip_place (hrest.imp id Nat.le_of_lt), Cursor.nextPosition_place]
    · rfl
    · refine hrest.imp id ?_
      intro hlt
      rw [Cursor.rest_skip, ne_eq, List.drop_eq_nil_iff]
      omega

theorem markup_place
    (h : behind = [] ∨ (c.skip (Text.before opens c.rest).length).rest ≠ []) :
    markup (c.place base behind) =
      let d := c.skip (Text.before opens c.rest).length
      match textToken? c (Text.before opens c.rest) with
      | some t => .ok (t.move base) (d.place base behind)
      | none => match Opening.of? d.rest with
        | some opening => body opening (Position.move base d.nextPosition)
          ((d.skip opening.width).place base behind)
        | none => .ok ⟨.endOfInput, Position.move base d.nextPosition⟩ (d.place base behind) := by
  have hlength := Text.length_before_le opens c.rest
  have hopens := Text.drop_before opens c.rest
  rw [markup_apply, Cursor.before_place steady_opens h, textToken?_place h,
    Cursor.skip_place (.inr hlength)]
  rw [← Cursor.rest_skip] at hopens
  generalize c.skip (Text.before opens c.rest).length = d at *
  cases textToken? c (Text.before opens c.rest) with
  | some t => rfl
  | none =>
    have hof : Opening.of? (d.place base behind).rest = Opening.of? d.rest := by
      rcases h with rfl | hne
      · rw [Cursor.place, List.append_nil]
      · exact of?_append (hopens.resolve_left hne) behind
    simp only [Option.map_none, construct_apply, hof]
    cases hd : Opening.of? d.rest with
    | none =>
      simp only [Cursor.nextPosition_place h]
    | some opening =>
      simp only [Cursor.nextPosition_place h, Cursor.skip_place (.inr (width_le_length hd))]

theorem places_markup : Places base behind (Token.move base) markup markup where
  forward := forward_markup
  apply := by
    intro c h
    have hrest : behind = [] ∨ (c.skip (Text.before opens c.rest).length).rest ≠ [] := by
      rw [markup_apply] at h
      split at h
      · exact h
      · exact h.of_forward forward_construct
    rw [markup_place hrest]
    rw [markup_apply] at h ⊢
    generalize c.skip (Text.before opens c.rest).length = d at *
    cases htext : textToken? c (Text.before opens c.rest) with
    | some t => rfl
    | none =>
      simp only [htext, construct_apply] at h ⊢
      cases hd : Opening.of? d.rest with
      | none => rfl
      | some opening =>
        simp only [hd] at h ⊢
        exact (places_body opening d.nextPosition).apply h

end Markup

theorem comment_place (start : Position)
    (h : endsComment (c.skip (Text.before endsComment c.rest).length).rest = true) :
    comment (Position.move base start) (c.place base behind) =
      placed base behind (Token.move base) (comment start c) := by
  have hlength := Text.length_before_le endsComment c.rest
  have hthree : 3 ≤ (c.skip (Text.before endsComment c.rest).length).rest.length :=
    (List.isPrefixOf_iff_prefix.1 h).length_le
  have hne : (c.skip (Text.before endsComment c.rest).length).rest ≠ [] := by
    intro hnil
    rw [hnil] at h
    cases h
  simp only [comment, bind_apply, takeBefore_apply, skip_apply,
    Cursor.before_place steady_endsComment (.inr hne), Cursor.skip_place (.inr hlength),
    Cursor.skip_place (.inr hthree)]
  rfl

theorem rawText_place {name : String}
    (h : behind = [] ∨ (closingTag name).isPrefixOf
      (c.skip (Text.before (closingTag name).isPrefixOf c.rest).length).rest = true) :
    rawText name (c.place base behind) =
      placed base behind (Token.move base) (rawText name c) := by
  have hsteady := Text.steady_isPrefixOf (closingTag name)
  have hlength := Text.length_before_le (closingTag name).isPrefixOf c.rest
  have hne : behind = [] ∨
      (c.skip (Text.before (closingTag name).isPrefixOf c.rest).length).rest ≠ [] := by
    refine h.imp id ?_
    intro hclose hnil
    rw [hnil] at hclose
    cases hclose
  have hc : behind = [] ∨ c.rest ≠ [] := by
    refine hne.imp id ?_
    intro hne hnil
    rw [Cursor.rest_skip, hnil, List.drop_nil] at hne
    exact hne rfl
  rw [rawText_apply, rawText_apply]
  simp only [Cursor.before_place hsteady hne, Cursor.skip_place (.inr hlength),
    Cursor.nextPosition_place hc]
  generalize c.skip (Text.before (closingTag name).isPrefixOf c.rest).length = d at *
  by_cases hclose : (closingTag name).isPrefixOf d.rest = true
  · have hplace : (closingTag name).isPrefixOf (d.place base behind).rest = true :=
      (hsteady d.rest.suffix_refl hclose behind).trans hclose
    have hwidth := (List.isPrefixOf_iff_prefix.1 hclose).length_le
    rw [if_pos hclose, if_pos hplace, Cursor.skip_place (.inr hwidth)]
    split <;> rfl
  · have hbehind := h.resolve_right hclose
    subst hbehind
    rw [if_neg hclose, if_neg (by rwa [Cursor.place, List.append_nil])]
    rfl

end Scan

end Template
