import Template.Proofs.Escape
import Template.Reading

namespace Template

namespace Text

def Clean (cs : List Char) : Prop := '\r' ∉ cs ∧ '\x0c' ∉ cs

instance (cs : List Char) : Decidable (Clean cs) :=
  inferInstanceAs (Decidable ('\r' ∉ cs ∧ '\x0c' ∉ cs))

theorem Clean.of_subset {as bs : List Char} (h : Clean bs) (hsub : as ⊆ bs) : Clean as :=
  ⟨fun hr => h.1 (hsub hr), fun hf => h.2 (hsub hf)⟩

theorem clean_normalize (cs : List Char) : Clean (normalize cs) :=
  ⟨not_mem_normalize (.inl rfl) cs, not_mem_normalize (.inr rfl) cs⟩

end Text

theorem Cursor.Reaches.clean {c d : Cursor} (h : c.Reaches d) (hc : Text.Clean c.rest) :
    Text.Clean d.rest := by
  obtain ⟨n, rfl⟩ := h
  exact hc.of_subset (List.drop_subset n c.rest)

structure IsName (n : String) : Prop where
  start : ∃ c cs, n.toList = c :: cs ∧ Text.isNameStart c = true
  chars : ∀ c ∈ n.toList, Text.isNameChar c = true

/-- No line break stands in the expression, and no pair of closing braces, not even one that its
last character makes with the brace after it. -/
structure IsExpression (e : String) : Prop where
  ne_nil : e.toList ≠ []
  clean : Text.Clean e.toList
  no_break : '\n' ∉ e.toList
  no_close : ¬ ['}', '}'] <:+: e.toList ++ ['}']

def Attribute.Sound (a : Attribute) : Prop :=
  match a.kind with
  | .string key _ _ => IsName key
  | .mustache key expression => IsName key ∧ IsExpression expression
  | .bool key => IsName key
  | .variadic expression => IsExpression expression

namespace Scan

variable {c d : Cursor}

theorem endsMustache_eq_true {cs : List Char} (h : endsMustache cs = true) :
    (∃ s, cs = '\n' :: s) ∨ ∃ s, cs = '}' :: '}' :: s := by
  unfold endsMustache at h
  split at h
  · exact .inl ⟨_, rfl⟩
  · exact .inr ⟨_, rfl⟩
  · cases h

theorem mustacheBody_eq_ok {e : String} (h : mustacheBody c = .ok e d) :
    e.toList ≠ [] ∧ Text.before endsMustache c.rest = e.toList ∧
      ∃ rest, c.rest = e.toList ++ '}' :: '}' :: rest := by
  simp only [mustacheBody, bind_apply, position_apply, takeBefore_apply, read_apply,
    Cursor.rest_skip] at h
  have hsplit := Text.before_append_drop endsMustache c.rest
  have hend := Text.drop_before endsMustache c.rest
  revert h hsplit hend
  generalize List.drop (Text.before endsMustache c.rest).length c.rest = s
  generalize Text.before endsMustache c.rest = body
  intro h hsplit hend
  rcases hend with rfl | hend
  · cases h
  · rcases endsMustache_eq_true hend with ⟨s, rfl⟩ | ⟨s, rfl⟩
    · cases h
    · by_cases hbody : body = []
      · simp [require, hbody] at h
      · simp only [require, hbody, List.head?_cons, bind_apply, skip_apply, position_apply,
          ne_eq, not_false_eq_true, if_true, pure_apply, EStateM.Result.ok.injEq] at h
        rw [← h.1, String.toList_ofList]
        exact ⟨hbody, rfl, s, hsplit.symm⟩

theorem isExpression_of_mustacheBody {e : String} (hc : Text.Clean c.rest)
    (h : mustacheBody c = .ok e d) : IsExpression e := by
  obtain ⟨hne, hbefore, rest, hrest⟩ := mustacheBody_eq_ok h
  -- scanning stops at the first closing pair, so none starts inside the expression
  have hminimal : ∀ u v : List Char, e.toList = u ++ v → v ≠ [] →
      endsMustache (v ++ '}' :: '}' :: rest) = false := by
    intro u v huv hv
    have hlt : u.length < (Text.before endsMustache c.rest).length := by
      rw [hbefore, huv, List.length_append]
      have := List.length_pos_iff.2 hv
      omega
    have hmin := Text.before_minimal endsMustache c.rest hlt
    rwa [hrest, huv, List.append_assoc, List.drop_left] at hmin
  refine ⟨hne, hc.of_subset ?_, ?_, ?_⟩
  · rw [hrest]
    exact List.subset_append_left _ _
  · intro hmem
    obtain ⟨u, v, huv⟩ := List.append_of_mem hmem
    have := hminimal u _ huv (List.cons_ne_nil _ _)
    cases this
  · rintro ⟨u, v, huv⟩
    rw [List.append_assoc, List.append_eq_append_iff] at huv
    rcases huv with ⟨w, hw, hv⟩ | ⟨w, -, hv⟩
    · have hne : w ≠ [] := by
        rintro rfl
        cases hv
      have htrue : endsMustache (w ++ '}' :: '}' :: rest) = true := by
        rw [List.append_cons, ← hv]
        rfl
      rw [hminimal u w hw hne] at htrue
      cases htrue
    · have hlength := congrArg List.length hv
      simp only [List.length_append, List.length_cons, List.length_nil] at hlength
      omega

theorem isName_takeWhile {cs : List Char} (h : cs.head?.any Text.isNameStart = true) :
    IsName (String.ofList (cs.takeWhile Text.isNameChar)) := by
  rw [Option.any_eq_true] at h
  obtain ⟨x, hx, hstart⟩ := h
  obtain ⟨xs, rfl⟩ := List.head?_eq_some_iff.1 hx
  constructor
  · rw [String.toList_ofList, List.takeWhile_cons_of_pos (Text.isNameChar_of_isNameStart hstart)]
    exact ⟨x, _, rfl, hstart⟩
  · intro y hy
    rw [String.toList_ofList] at hy
    exact List.all_eq_true.1 List.all_takeWhile y hy

theorem length_name_pos {cs : List Char} (h : cs.head?.any Text.isNameStart = true) :
    0 < (cs.takeWhile Text.isNameChar).length := by
  obtain ⟨⟨x, xs, hx, -⟩, -⟩ := isName_takeWhile h
  rw [String.toList_ofList] at hx
  rw [hx]
  exact Nat.succ_pos _

variable {α β : Type}

/-- From text in which `P` holds the computation yields nothing but what `Q` holds of. -/
def Gives (P : List Char → Prop) (x : Scan α) (Q : α → Prop) : Prop :=
  ∀ c : Cursor, Text.Clean c.rest → P c.rest → ∀ a d, x c = .ok a d → Q a

def Anywhere (_ : List Char) : Prop := True

variable {P : List Char → Prop}

section Gives

variable {Q : α → Prop} {R : β → Prop}

theorem gives_pure {a : α} (h : Q a) : Gives P (pure a) Q := by
  intro c _ _ b d hb
  cases hb
  exact h

theorem gives_fail (cause : SyntaxError.Cause) (p : Position) : Gives P (fail cause p) Q := by
  intro c _ _ b d hb
  cases hb

theorem gives_true (x : Scan α) : Gives P x fun _ => True := fun _ _ _ _ _ _ => trivial

theorem gives_bind {x : Scan α} {f : α → Scan β} (hx : Forward x) (gx : Gives P x Q)
    (gf : ∀ a, Q a → Gives Anywhere (f a) R) : Gives P (x >>= f) R := by
  intro c hc hp b d hb
  obtain ⟨a, e, ha, hb⟩ := bind_eq_ok.1 hb
  exact gf a (gx c hc hp a e ha) e ((hx.ok ha).clean hc) trivial b d hb

theorem gives_seq {x : Scan α} {f : α → Scan β} (hx : Forward x)
    (gf : ∀ a, Gives Anywhere (f a) R) : Gives P (x >>= f) R :=
  gives_bind hx (gives_true x) fun a _ => gf a

theorem gives_peek {f : Option Char → Scan β}
    (gf : ∀ o, Gives (fun cs => cs.head? = o) (f o) R) : Gives P (peek >>= f) R :=
  fun c hc _ b d hb => gf c.rest.head? c hc rfl b d hb

theorem gives_get {f : Cursor → Scan β} (gf : ∀ c, Gives P (f c) R) : Gives P (get >>= f) R :=
  fun c hc hp b d hb => gf c c hc hp b d hb

theorem gives_nextPosition {f : Position → Scan β} (gf : ∀ p, Gives P (f p) R) :
    Gives P (nextPosition >>= f) R :=
  fun c hc hp b d hb => gf c.nextPosition c hc hp b d hb

theorem gives_ite {p : Prop} [Decidable p] {x y : Scan α} (gx : Gives P x Q) (gy : Gives P y Q) :
    Gives P (if p then x else y) Q := by
  split
  · exact gx
  · exact gy

theorem gives_map {f : α → β} {x : Scan α} (gx : Gives P x fun a => R (f a)) :
    Gives P (f <$> x) R := by
  intro c hc hp b d hb
  rw [map_apply] at hb
  cases hx : x c with
  | error e d => rw [hx] at hb; cases hb
  | ok a d' =>
    rw [hx] at hb
    cases hb
    exact gx c hc hp a _ hx

theorem gives_some {x : Scan α} (gx : Gives P x Q) : Gives P x fun a => ∀ b ∈ some a, Q b := by
  intro c hc hp a d ha b hb
  cases hb
  exact gx c hc hp a d ha

theorem Gives.mono {P' : List Char → Prop} {x : Scan α} (gx : Gives P x Q)
    (hp : ∀ cs, P' cs → P cs) : Gives P' x Q :=
  fun c hc hp' a d ha => gx c hc (hp c.rest hp') a d ha

theorem gives_many {item : Scan (Option α)} (hitem : Forward item)
    (gitem : Gives Anywhere item fun o => ∀ a ∈ o, Q a) :
    Gives P (many item) fun as => ∀ a ∈ as, Q a := by
  intro c hc hp
  clear hp
  fun_induction many item c with
  | case1 c e d hi =>
    intro as e h
    cases h
  | case2 c d hi =>
    intro as e h
    cases h
    exact List.forall_mem_nil _
  | case3 c a d hi _ e d' hm ih =>
    intro as e h
    cases h
  | case4 c a d hi _ as d' hm ih =>
    intro bs e h
    cases h
    rw [List.forall_mem_cons]
    exact ⟨gitem c hc trivial (some a) d hi a rfl, ih ((hitem.ok hi).clean hc) as d' hm⟩
  | case5 c a d hi =>
    intro bs e h
    cases h
    rw [List.forall_mem_singleton]
    exact gitem c hc trivial (some a) d hi a rfl

end Gives

theorem gives_mustacheBody : Gives P mustacheBody IsExpression := by
  intro c hc _ e d h
  exact isExpression_of_mustacheBody hc h

theorem gives_name :
    Gives (fun cs => cs.head?.any Text.isNameStart = true) name IsName := by
  intro c _ hstart n d h
  cases h
  exact isName_takeWhile hstart

theorem gives_keyed :
    Gives (fun cs => cs.head?.any Text.isNameStart = true) keyed Attribute.Sound := by
  refine gives_nextPosition fun start => gives_bind forward_name gives_name fun key hkey => ?_
  refine gives_peek fun o => gives_ite (gives_pure hkey) ?_
  refine gives_seq (forward_skip 1) fun _ => gives_seq forward_read fun found => ?_
  split
  · exact gives_seq (forward_expect _) fun _ => gives_bind forward_mustacheBody
      gives_mustacheBody fun e he => gives_pure ⟨hkey, he⟩
  · exact gives_seq (forward_quotedValue _) fun _ => gives_pure hkey
  · exact gives_seq (forward_quotedValue _) fun _ => gives_pure hkey
  · exact gives_seq forward_position fun _ => gives_fail _ _

theorem gives_variadic : Gives P variadic Attribute.Sound :=
  gives_nextPosition fun _ => gives_seq (forward_skip 1) fun _ => gives_get fun _ =>
    gives_seq (forward_require _ _ _) fun _ => gives_seq (forward_skip 2) fun _ =>
      gives_seq (forward_expect _) fun _ => gives_seq (forward_expect _) fun _ =>
        gives_bind forward_mustacheBody gives_mustacheBody fun _ he => gives_pure he

theorem gives_attribute? : Gives P attribute? fun o => ∀ a ∈ o, a.Sound := by
  refine gives_seq (forward_takeWhile _) fun _ => gives_peek fun o => ?_
  split
  · exact gives_pure fun _ ha => nomatch ha
  · exact gives_pure fun _ ha => nomatch ha
  · exact gives_pure fun _ ha => nomatch ha
  · exact gives_map (gives_some gives_variadic)
  · split
    · rename_i hstart
      apply gives_map
      apply gives_some
      apply gives_keyed.mono
      rintro cs hhead
      rw [hhead]
      exact hstart
    · exact gives_seq (forward_skip 1) fun _ => gives_seq forward_position fun _ => gives_fail _ _

theorem gives_attributes : Gives P attributes fun as => ∀ a ∈ as, a.Sound :=
  gives_peek fun _ => gives_ite (gives_many forward_attribute? gives_attribute?)
    (gives_pure (List.forall_mem_nil _))

end Scan

def Token.Sound (t : Token) : Prop :=
  match t.kind with
  | .text data => data.toList ≠ []
  | .mustache expression => IsExpression expression
  | .startTag name attributes =>
    IsName name ∧ Element.isVoid name = false ∧ ∀ a ∈ attributes, a.Sound
  | .selfClosingTag name attributes => IsName name ∧ ∀ a ∈ attributes, a.Sound
  | _ => True

namespace Scan

theorem gives_startTag (start : Position) :
    Gives (fun cs => cs.head?.any Text.isNameStart = true) (startTag start) Token.Sound := by
  refine gives_bind forward_name gives_name fun name hname =>
    gives_bind forward_attributes gives_attributes fun attributes hattributes =>
      gives_seq forward_read fun _ => ?_
  split
  · apply gives_pure
    cases hvoid : Element.isVoid name with
    | true => simpa [tagKind, hvoid, Token.Sound] using ⟨hname, hattributes⟩
    | false => simpa [tagKind, hvoid, Token.Sound] using ⟨hname, hattributes⟩
  · exact gives_seq forward_position fun _ => gives_peek fun _ =>
      gives_seq (forward_require _ _ _) fun _ => gives_seq (forward_skip 1) fun _ =>
        gives_pure ⟨hname, hattributes⟩
  · exact gives_seq forward_position fun _ => gives_fail _ _

theorem gives_body (opening : Opening) (start : Position) :
    Gives (fun cs => opening = .startTag → cs.head?.any Text.isNameStart = true)
      (body opening start) Token.Sound := by
  cases opening with
  | endTag =>
    exact gives_seq forward_name fun _ => gives_seq (forward_expect _) fun _ =>
      gives_seq (forward_require _ _ _) fun _ => gives_pure trivial
  | comment =>
    exact gives_seq (forward_takeBefore _) fun _ => gives_seq (forward_skip 3) fun _ =>
      gives_pure trivial
  | startTag => exact (gives_startTag start).mono fun _ h => h rfl
  | mustache =>
    exact gives_bind forward_mustacheBody gives_mustacheBody fun _ he => gives_pure he

theorem isNameStart_of_startTag {cs : List Char} (h : Opening.of? cs = some .startTag) :
    (cs.drop Opening.startTag.width).head?.any Text.isNameStart = true := by
  unfold Opening.of? at h
  split at h
  · cases h
  · cases h
  · split at h
    · assumption
    · cases h
  · cases h
  · cases h

theorem gives_construct : Gives P construct Token.Sound := by
  intro c hc _ t d h
  rw [construct_apply] at h
  cases ho : Opening.of? c.rest with
  | none =>
    rw [ho] at h
    cases h
    trivial
  | some opening =>
    rw [ho] at h
    refine gives_body opening c.nextPosition (c.skip opening.width) ?_ ?_ t d h
    · exact (c.reaches_skip _).clean hc
    · rintro rfl
      exact isNameStart_of_startTag ho

theorem sound_of_textToken? {c : Cursor} {run : List Char} {t : Token}
    (h : textToken? c run = some t) : t.Sound := by
  unfold textToken? at h
  split at h
  · cases h
  · rename_i data hdata
    cases h
    simp only [Token.Sound, String.toList_ofList, ne_eq, CharRef.decode_eq_nil_iff]
    exact hdata

theorem forward_text? : Forward text? :=
  forward_get_bind fun _ => forward_bind (forward_takeBefore _) fun _ => forward_pure _

theorem forward_markup : Forward markup := by
  refine forward_bind forward_text? fun o => ?_
  cases o with
  | some t => exact forward_pure t
  | none => exact forward_construct

theorem gives_markup : Gives P markup Token.Sound := by
  intro c hc _ t d h
  rw [markup_apply] at h
  cases ht : textToken? c (Text.before opens c.rest) with
  | some t' =>
    rw [ht] at h
    cases h
    exact sound_of_textToken? ht
  | none =>
    rw [ht] at h
    exact gives_construct (P := Anywhere) _ ((c.reaches_skip _).clean hc) trivial t d h

end Scan

end Template
