import Template.Scan.Construct

namespace Template.Scan

variable {α β : Type}

theorem forward_name : Forward name :=
  forward_bind (forward_takeWhile _) fun _ => forward_pure _

theorem forward_mustacheBody : Forward mustacheBody := by
  refine forward_bind forward_position fun _ => forward_bind (forward_takeBefore _) fun _ =>
    forward_bind forward_read fun _ => ?_
  split
  · exact forward_bind (forward_skip 1) fun _ => forward_bind forward_position fun _ =>
      forward_bind (forward_require _ _ _) fun _ => forward_pure _
  · exact forward_fail _ _

theorem forward_embedded (q : Char) : Forward (embedded q) :=
  forward_get_bind fun _ => forward_ite
    (forward_bind (forward_skip _) fun _ =>
      forward_bind forward_mustacheBody fun _ => forward_pure _)
    (forward_pure _)

theorem forward_quotedValue (q : Char) : Forward (quotedValue q) :=
  forward_bind forward_position fun _ => forward_bind (forward_many (forward_embedded q))
    fun _ => forward_bind (forward_takeBefore _) fun _ => forward_bind forward_read fun _ =>
      forward_bind (forward_require _ _ _) fun _ => forward_pure _

@[simp] theorem name_apply (c : Cursor) :
    name c = .ok (String.ofList (c.rest.takeWhile Text.isNameChar))
      (c.skip (c.rest.takeWhile Text.isNameChar).length) := rfl

theorem reaches_keyed (c : Cursor) :
    (c.skip (c.rest.takeWhile Text.isNameChar).length).Reaches (stop keyed c) := by
  rw [keyed, stop_bind_of_ok (nextPosition_apply c), stop_bind_of_ok (name_apply c)]
  refine forward_bind forward_peek (fun _ => forward_ite (forward_pure _) ?_) _
  refine forward_bind (forward_skip 1) fun _ => forward_bind forward_read fun _ => ?_
  split
  · exact forward_bind (forward_expect _) fun _ =>
      forward_bind forward_mustacheBody fun _ => forward_pure _
  · exact forward_bind (forward_quotedValue _) fun _ => forward_pure _
  · exact forward_bind (forward_quotedValue _) fun _ => forward_pure _
  · exact forward_bind forward_position fun _ => forward_fail _ _

theorem forward_keyed : Forward keyed := fun c => (c.reaches_skip _).trans (reaches_keyed c)

theorem reaches_variadic (c : Cursor) : (c.skip 1).Reaches (stop variadic c) := by
  rw [variadic, stop_bind_of_ok (nextPosition_apply c), stop_bind_of_ok (skip_apply 1 c)]
  exact (forward_get_bind fun _ => forward_bind (forward_require _ _ _) fun _ =>
    forward_bind (forward_skip 2) fun _ => forward_bind (forward_expect _) fun _ =>
      forward_bind (forward_expect _) fun _ => forward_bind forward_mustacheBody fun _ =>
        forward_pure _) _

theorem forward_variadic : Forward variadic := fun c =>
  (c.reaches_skip 1).trans (reaches_variadic c)

theorem forward_attribute? : Forward attribute? := by
  refine forward_bind (forward_takeWhile _) fun _ => forward_bind forward_peek fun _ => ?_
  split
  · exact forward_pure _
  · exact forward_pure _
  · exact forward_pure _
  · exact forward_map _ forward_variadic
  · exact forward_ite (forward_map _ forward_keyed)
      (forward_bind (forward_skip 1) fun _ => forward_bind forward_position fun _ =>
        forward_fail _ _)

theorem forward_attributes : Forward attributes :=
  forward_bind forward_peek fun _ =>
    forward_ite (forward_many forward_attribute?) (forward_pure _)

theorem forward_mustache (start : Position) : Forward (mustache start) :=
  forward_bind forward_mustacheBody fun _ => forward_pure _

theorem forward_comment (start : Position) : Forward (comment start) :=
  forward_bind (forward_takeBefore _) fun _ => forward_bind (forward_skip 3) fun _ =>
    forward_pure _

theorem forward_endTag (start : Position) : Forward (endTag start) :=
  forward_bind forward_name fun _ => forward_bind (forward_expect _) fun _ =>
    forward_bind (forward_require _ _ _) fun _ => forward_pure _

theorem reaches_startTag (start : Position) (c : Cursor) :
    (c.skip (c.rest.takeWhile Text.isNameChar).length).Reaches (stop (startTag start) c) := by
  rw [startTag, stop_bind_of_ok (name_apply c)]
  refine forward_bind forward_attributes (fun _ => forward_bind forward_read fun _ => ?_) _
  split
  · exact forward_pure _
  · exact forward_bind forward_position fun _ => forward_bind forward_peek fun _ =>
      forward_bind (forward_require _ _ _) fun _ => forward_bind (forward_skip 1) fun _ =>
        forward_pure _
  · exact forward_bind forward_position fun _ => forward_fail _ _

theorem forward_startTag (start : Position) : Forward (startTag start) := fun c =>
  (c.reaches_skip _).trans (reaches_startTag start c)

theorem forward_body (opening : Opening) (start : Position) : Forward (body opening start) := by
  cases opening with
  | endTag => exact forward_endTag start
  | comment => exact forward_comment start
  | startTag => exact forward_startTag start
  | mustache => exact forward_mustache start

theorem forward_rawText (name : String) : Forward (rawText name) :=
  forward_bind forward_nextPosition fun _ => forward_bind (forward_takeBefore _) fun _ =>
    forward_get_bind fun _ => forward_ite
      (forward_ite (forward_bind (forward_skip _) fun _ => forward_pure _) (forward_pure _))
      (forward_bind forward_position fun _ => forward_fail _ _)

theorem forward_construct : Forward construct := by
  refine forward_bind forward_nextPosition fun _ => forward_get_bind fun _ => ?_
  split
  · exact forward_pure _
  · exact forward_bind (forward_skip _) fun _ => forward_body _ _

theorem text?_apply (c : Cursor) :
    text? c = .ok (textToken? c (Text.before opens c.rest))
      (c.skip (Text.before opens c.rest).length) := rfl

theorem markup_apply (c : Cursor) :
    markup c = match textToken? c (Text.before opens c.rest) with
      | some t => .ok t (c.skip (Text.before opens c.rest).length)
      | none => construct (c.skip (Text.before opens c.rest).length) := by
  cases h : textToken? c (Text.before opens c.rest) <;> simp [markup, text?_apply, h]

theorem construct_apply (c : Cursor) :
    construct c = match Opening.of? c.rest with
      | none => .ok ⟨.endOfInput, c.nextPosition⟩ c
      | some opening => body opening c.nextPosition (c.skip opening.width) := by
  cases h : Opening.of? c.rest <;> simp [construct, h]

theorem before_opens_eq_nil {c : Cursor} (h : c.rest = [] ∨ opens c.rest = true) :
    Text.before opens c.rest = [] := by
  rcases h with h | h
  · rw [h, Text.before_nil]
  · exact Text.before_of_pos h

theorem markup_of_opens {c : Cursor} (h : c.rest = [] ∨ opens c.rest = true) :
    markup c = construct c := by
  rw [markup_apply, before_opens_eq_nil h]
  simp [textToken?]

theorem length_stop_markup_lt {c : Cursor} (hc : c.rest ≠ []) :
    (stop markup c).rest.length < c.rest.length := by
  by_cases hr : Text.before opens c.rest = []
  · have ho : opens c.rest = true := by simpa [hr, hc] using Text.drop_before opens c.rest
    obtain ⟨opening, ho⟩ := Option.isSome_iff_exists.1 ho
    refine Cursor.Reaches.length_lt hc opening.width_pos ?_
    have := forward_body opening c.nextPosition (c.skip opening.width)
    simpa [stop, markup_apply, hr, textToken?, construct_apply, ho] using this
  · refine Cursor.Reaches.length_lt hc (List.length_pos_iff.2 hr) ?_
    have := forward_construct (c.skip (Text.before opens c.rest).length)
    cases h : textToken? c (Text.before opens c.rest) with
    | none => simpa [stop, markup_apply, h] using this
    | some t => simpa [stop, markup_apply, h] using Cursor.reaches_refl _

theorem markup_of_rest_eq_nil {c : Cursor} (hc : c.rest = []) :
    markup c = .ok ⟨.endOfInput, c.position⟩ c := by
  obtain ⟨p, cs⟩ := c
  subst hc
  rfl

theorem rawText_apply (name : String) (c : Cursor) :
    rawText name c =
      let body := Text.before (closingTag name).isPrefixOf c.rest
      let d := c.skip body.length
      if (closingTag name).isPrefixOf d.rest then
        if body = [] then .ok ⟨.endTag name, c.nextPosition⟩ (d.skip (closingTag name).length)
        else .ok ⟨.text (String.ofList body), c.nextPosition⟩ d
      else .error ⟨.unexpected none, d.position⟩ d := by
  simp only [rawText, bind_apply, nextPosition_apply, takeBefore_apply, get_apply]
  split
  · split <;> rfl
  · rfl

end Template.Scan
