import Template.Proofs.Feeding
import Template.Proofs.Locality
import Template.Proofs.Respelling

namespace Template

def Token.Closed (c : Cursor) (t : Token) : Prop :=
  match t.kind with
  | .endTag _ | .selfClosingTag _ _ | .mustache _ => True
  | .comment data => ∀ n < c.rest.length, t.position = (c.skip n).nextPosition →
    (c.skip n).rest = ['<', '!', '-', '-'] ++ (data.toList ++ ['-', '-', '>'])
  | _ => False

namespace Scan

variable {base : Position} {behind : List Char} {c d : Cursor} {t : Token}

theorem markup_place_of_closed (h : markup c = .ok t d) (hkind : t.kind ≠ .endOfInput)
    (hclosed : t.Closed c) :
    markup (c.place base behind) = .ok (t.move base) (d.place base behind) := by
  rw [markup_apply] at h
  cases htext : textToken? c (Text.before opens c.rest) with
  | some t' =>
    rw [htext] at h
    cases h
    obtain ⟨data, hdata⟩ := kind_of_textToken? htext
    rw [Token.Closed, hdata] at hclosed
    exact hclosed.elim
  | none =>
    simp only [htext, construct_apply] at h
    cases hopening : Opening.of? (c.skip (Text.before opens c.rest).length).rest with
    | none =>
      rw [hopening] at h
      cases h
      exact absurd rfl hkind
    | some opening =>
      have hne : (c.skip (Text.before opens c.rest).length).rest ≠ [] := by
        intro hnil
        rw [hnil] at hopening
        cases hopening
      rw [markup_place (.inr hne)]
      simp only [htext, hopening] at h ⊢
      cases opening with
      | endTag => exact (seals_endTag _ h).2
      | startTag => exact (seals_startTag _ h).2
      | mustache => exact (seals_mustache _ h).2
      | comment =>
        have hlt : (Text.before opens c.rest).length < c.rest.length := by
          rwa [Cursor.rest_skip, ne_eq, List.drop_eq_nil_iff, Nat.not_le] at hne
        cases h
        have hrest := hclosed _ hlt rfl
        rw [String.toList_ofList] at hrest
        apply comment_place
        generalize Text.before endsComment _ = data at hrest ⊢
        rw [Cursor.rest_skip, Cursor.rest_skip, hrest]
        change endsComment ((data ++ ['-', '-', '>']).drop data.length) = true
        rw [List.drop_left' rfl]
        rfl

theorem rawText_place_of_ok {name : String} (h : rawText name c = .ok t d) :
    rawText name (c.place base behind) = .ok (t.move base) (d.place base behind) := by
  have hclose : (closingTag name).isPrefixOf
      (c.skip (Text.before (closingTag name).isPrefixOf c.rest).length).rest = true := by
    rw [rawText_apply] at h
    by_contra hclose
    rw [if_neg hclose] at h
    cases h
  rw [rawText_place (.inr hclose), h]
  rfl

end Scan

namespace Reading

variable {base : Position} {behind : List Char} {s u v : Reading} {t : Token} {ts : List Token}

def place (base : Position) (behind : List Char) (s : Reading) : Reading :=
  ⟨s.mode, s.cursor.place base behind⟩

@[simp] theorem Mode.after_move (mode : Mode) (kind : Token.Kind) :
    mode.after (kind.move base) = mode.after kind := by
  cases kind <;> rfl

theorem next_place_nil (s : Reading) :
    (s.place base []).next = (s.next.1.move base, s.next.2.place base []) := by
  have htoken : s.mode.token (s.cursor.place base []) =
      Scan.placed base [] (Token.move base) (s.mode.token s.cursor) := by
    cases s.mode with
    | markup =>
      apply Scan.places_markup.apply
      cases Scan.markup s.cursor with
      | ok t d => exact .inl rfl
      | error e d => rfl
    | rawText name => exact Scan.rawText_place (.inl rfl)
  rw [next, next]
  simp only [place, htoken]
  cases s.mode.token s.cursor with
  | ok t d =>
    simp only [Scan.placed, Token.move, Mode.after_move]
    rfl
  | error e d => rfl

theorem lexemes_place_nil (s : Reading) :
    (s.place base []).lexemes = s.lexemes.map (Lexeme.move base) := by
  generalize hn : s.weight = n
  induction n using Nat.strongRecOn generalizing s with
  | ind n ih =>
    have hnext : (s.place base []).next = _ := next_place_nil s
    by_cases hend : s.next.1.isEnd = true
    · rw [lexemes_of_isEnd hend, lexemes_of_isEnd (by rw [hnext, Lexeme.isEnd_move, hend]), hnext]
      rfl
    · have hweight := weight_next_lt (Bool.eq_false_iff.2 hend)
      rw [lexemes_of_not_isEnd hend,
        lexemes_of_not_isEnd (by rwa [hnext, Lexeme.isEnd_move]), hnext, List.map_cons,
        ih _ (hn ▸ hweight) _ rfl]

theorem next_place (h : s.next = (.ok t, u)) (hkind : t.kind ≠ .endOfInput)
    (hend : u.cursor.rest ≠ [] ∨ t.Closed s.cursor) :
    (s.place base behind).next = (.ok (t.move base), u.place base behind) := by
  obtain ⟨mode, c⟩ := s
  cases hc : mode.token c with
  | error e d =>
    simp only [next, hc] at h
    cases h
  | ok t' d =>
    simp only [next, hc] at h
    cases h
    have htoken : mode.token (c.place base behind) =
        .ok (t.move base) (d.place base behind) := by
      cases mode with
      | rawText name => exact Scan.rawText_place_of_ok hc
      | markup =>
        rcases hend with hne | hclosed
        · have hplaces : Scan.Inside behind (Scan.markup c) →
              Scan.markup (c.place base behind) = _ := Scan.places_markup.apply
          change Scan.markup c = _ at hc
          rw [hc] at hplaces
          exact hplaces (.inr hne)
        · exact Scan.markup_place_of_closed hc hkind hclosed
    simp only [next, place, htoken, Token.move, Mode.after_move]

inductive Passes : Reading → List Token → Reading → Prop
  | nil (s : Reading) : Passes s [] s
  | cons {s u v : Reading} {t : Token} {ts : List Token} : s.next = (.ok t, u) →
      t.kind ≠ .endOfInput → Passes u ts v → Passes s (t :: ts) v

theorem Passes.lexemes_eq (h : Passes s ts u) : s.lexemes = ts.map .ok ++ u.lexemes := by
  induction h with
  | nil s => rfl
  | cons hnext hkind _ ih => rw [lexemes_cons hnext hkind, ih, List.map_cons, List.cons_append]

theorem Passes.reaches (h : Passes s ts u) : s.cursor.Reaches u.cursor := by
  induction h with
  | nil s => exact s.cursor.reaches_refl
  | @cons s u v t ts hnext _ _ ih =>
    have hstep := reaches_next s
    rw [hnext] at hstep
    exact hstep.trans ih

theorem exists_passes {ls : List Lexeme} (h : s.lexemes = ts.map .ok ++ ls)
    (hts : ∀ t ∈ ts, t.kind ≠ .endOfInput) : ∃ u, Passes s ts u ∧ u.lexemes = ls := by
  induction ts generalizing s with
  | nil => exact ⟨s, .nil s, h⟩
  | cons t ts ih =>
    rw [List.forall_mem_cons] at hts
    rw [List.map_cons, List.cons_append] at h
    by_cases hend : s.next.1.isEnd = true
    · rw [lexemes_of_isEnd hend] at h
      obtain ⟨p, hp⟩ := Lexeme.isEnd_iff.1 hend
      cases hp.symm.trans (List.cons.inj h).1
      exact absurd rfl hts.1
    · rw [lexemes_of_not_isEnd hend] at h
      obtain ⟨htoken, hrest⟩ := List.cons.inj h
      obtain ⟨v, hpasses, hv⟩ := ih hrest hts.2
      exact ⟨v, .cons (Prod.ext htoken rfl) hts.1 hpasses, hv⟩

theorem Passes.exists_of_append {us : List Token} (h : Passes s (ts ++ us) v) :
    ∃ u, Passes s ts u ∧ Passes u us v := by
  induction ts generalizing s with
  | nil => exact ⟨s, .nil s, h⟩
  | cons t ts ih =>
    cases h with
    | cons hnext hkind htail =>
      obtain ⟨u, hu, hrest⟩ := ih htail
      exact ⟨u, .cons hnext hkind hu, hrest⟩

theorem Passes.place (h : Passes s ts u) (hu : u.cursor.rest ≠ []) :
    Passes (s.place base behind) (ts.map (Token.move base)) (u.place base behind) := by
  induction h with
  | nil s => exact .nil _
  | cons hnext hkind htail ih =>
    have hne := htail.reaches.rest_ne_nil hu
    exact .cons (next_place hnext hkind (.inl hne))
      (fun hend => hkind (Token.Kind.move_eq_endOfInput.1 hend)) (ih hu)

end Reading

inductive Token.Kind.Spelled : Token.Kind → List Char → Prop
  | endTag (name : String) : Spelled (.endTag name) (Scan.closingTag name)
  | selfClosingTag (name : String) (attributes : List Attribute) (cs : List Char) :
    Spelled (.selfClosingTag name attributes) ('<' :: (cs ++ ['>']))
  | mustache (expression : String) : Spelled (.mustache expression) (Indented.mustache expression)
  | comment (data : String) :
    Spelled (.comment data) (['<', '!', '-', '-'] ++ (data.toList ++ ['-', '-', '>']))

/-- The last token of the source is `t`, and the source ends where `t`, as it is written, ends. -/
structure EndsIn (source : String) (t : Token) : Prop where
  last : ∃ ts p, tokens source = .ok (ts ++ [t, ⟨.endOfInput, p⟩])
  written : ∃ front text, Text.normalize source.toList = front ++ text ∧
    t.position = .ofRead (front ++ text.take 1) ∧ t.kind.Spelled text

def endPosition (source : String) : Position := .ofRead (Text.normalize source.toList)

namespace Position

theorem after_le (p : Position) (cs : List Char) :
    p.line ≤ (p.after cs).line ∧
      ((p.after cs).line = p.line → (p.after cs).column = p.column + cs.length) := by
  induction cs generalizing p with
  | nil => exact ⟨Nat.le_refl _, fun _ => rfl⟩
  | cons c cs ih =>
    obtain ⟨hline, hcolumn⟩ := ih (p.advance c)
    rw [after_cons, List.length_cons]
    unfold advance at hline hcolumn ⊢
    split at hline
    · rename_i hbreak
      simp only [if_pos hbreak] at hcolumn ⊢
      change p.line + 1 ≤ _ at hline
      exact ⟨Nat.le_of_succ_le hline, fun heq => absurd hline (by omega)⟩
    · rename_i hbreak
      simp only [if_neg hbreak] at hcolumn ⊢
      refine ⟨hline, fun heq => ?_⟩
      rw [hcolumn heq]
      omega

theorem eq_nil_of_after_eq {p : Position} {cs : List Char} (h : p.after cs = p) : cs = [] := by
  have hcolumn := (p.after_le cs).2 (congrArg line h)
  rw [h] at hcolumn
  exact List.eq_nil_of_length_eq_zero (by omega)

theorem ofRead_take_inj {cs : List Char} {m n : Nat} (hm : m ≤ cs.length) (hn : n ≤ cs.length)
    (h : ofRead (cs.take m) = ofRead (cs.take n)) : m = n := by
  have hle : ∀ {m n : Nat}, n ≤ cs.length → m ≤ n →
      ofRead (cs.take m) = ofRead (cs.take n) → m = n := by
    intro m n hn hmn h
    have hsplit : cs.take n = cs.take m ++ (cs.drop m).take (n - m) := by
      rw [← List.take_add, Nat.add_sub_cancel' hmn]
    rw [hsplit, ofRead_append] at h
    have hlength := congrArg List.length (eq_nil_of_after_eq h.symm)
    simp only [List.length_take, List.length_drop, List.length_nil] at hlength
    omega
  rcases Nat.le_total m n with hmn | hnm
  · exact hle hn hmn h
  · exact (hle hm hnm h.symm).symm

end Position

namespace Text

theorem isBlank_of_stripLayoutFrom {inBreak : Bool} {cs : List Char}
    (h : stripLayoutFrom inBreak cs = []) : ∀ c ∈ cs, isBlank c = true := by
  induction cs generalizing inBreak with
  | nil => exact fun c hc => nomatch hc
  | cons c cs ih =>
    rw [stripLayoutFrom] at h
    split at h
    · rename_i hc
      refine List.forall_mem_cons.2 ⟨?_, ih h⟩
      rw [Bool.or_eq_true, decide_eq_true_eq, Bool.and_eq_true] at hc
      rcases hc with rfl | hc
      · rfl
      · exact hc.2
    · cases h

end Text

theorem Scan.isBlank_of_end {c d : Cursor} {p : Position}
    (h : markup c = .ok ⟨.endOfInput, p⟩ d) : ∀ x ∈ c.rest, Text.isBlank x = true := by
  have hsplit := Text.before_append_drop opens c.rest
  have hdrop := Text.drop_before opens c.rest
  rw [← Cursor.rest_skip] at hsplit hdrop
  rw [markup_apply] at h
  split at h
  · rename_i t htext
    cases h
    obtain ⟨data, hdata⟩ := kind_of_textToken? htext
    cases hdata
  · rename_i htext
    rw [construct_apply] at h
    split at h
    · rename_i hopening
      rw [(of?_eq_none_iff hdrop).1 hopening, List.append_nil] at hsplit
      have hstrip : Text.stripLayout (Text.before opens c.rest) = [] := by
        unfold textToken? at htext
        split at htext
        · assumption
        · cases htext
      rw [← hsplit]
      exact Text.isBlank_of_stripLayoutFrom hstrip
    · exact absurd rfl (kind_ne_of_body h)

theorem Reading.rest_ne_nil_of_next {s u : Reading} {t : Token} (h : s.next = (.ok t, u))
    (hkind : t.kind ≠ .endOfInput) : s.cursor.rest ≠ [] := by
  obtain ⟨mode, p, cs⟩ := s
  rintro rfl
  cases mode with
  | markup =>
    cases h
    exact hkind rfl
  | rawText name =>
    simp only [next, Mode.token, Scan.rawText_apply] at h
    cases h

namespace Token.Kind.Spelled

theorem exists_concat {kind : Token.Kind} {text : List Char} (h : kind.Spelled text) :
    ∃ cs x, text = cs ++ [x] ∧ Text.isBlank x = false := by
  cases h with
  | endTag name => exact ⟨['<', '/'] ++ name.toList, '>', rfl, rfl⟩
  | selfClosingTag name attributes cs => exact ⟨'<' :: cs, '>', rfl, rfl⟩
  | mustache expression =>
    exact ⟨['{', '{'] ++ expression.toList ++ ['}'], '}', by simp [Indented.mustache], rfl⟩
  | comment data =>
    exact ⟨['<', '!', '-', '-'] ++ (data.toList ++ ['-', '-']), '>', by simp, rfl⟩

theorem after {kind : Token.Kind} {text : List Char} (h : kind.Spelled text)
    (mode : Reading.Mode) : mode.after kind = .markup := by
  cases h <;> rfl

theorem closed {t : Token} {text front : List Char} (h : t.kind.Spelled text)
    (hposition : t.position = .ofRead (front ++ text.take 1)) (k : Nat) :
    t.Closed (Lookahead.Plain.cursor (front ++ text) k) := by
  obtain ⟨kind, p⟩ := t
  have hne : text ≠ [] := by
    obtain ⟨cs, x, rfl, -⟩ := h.exists_concat
    simp
  cases h with
  | endTag | selfClosingTag | mustache => trivial
  | comment data =>
    intro n hn hstart
    generalize ['<', '!', '-', '-'] ++ (data.toList ++ ['-', '-', '>']) = text at *
    have htake : front ++ text.take 1 = (front ++ text).take (front.length + 1) := by
      rw [List.take_append, List.take_of_length_le (Nat.le_succ _), Nat.add_sub_cancel_left]
    simp only [Lookahead.Plain.cursor, List.length_drop] at hn
    rw [Cursor.nextPosition, Lookahead.Plain.cursor_skip, Lookahead.Plain.cursor_skip,
      hposition, htake] at hstart
    have hlength := List.length_pos_iff.2 hne
    have hplace := Position.ofRead_take_inj (by rw [List.length_append]; omega) (by omega) hstart
    rw [Lookahead.Plain.cursor_skip]
    have hfront : k + n = front.length := by omega
    rw [Lookahead.Plain.cursor, hfront, List.drop_left]

end Token.Kind.Spelled

theorem Reading.isBlank_of_lexemes {c : Cursor} {p : Position}
    (h : Reading.lexemes ⟨.markup, c⟩ = [.ok ⟨.endOfInput, p⟩]) :
    ∀ x ∈ c.rest, Text.isBlank x = true := by
  have hnext : (next ⟨.markup, c⟩).1 = .ok ⟨.endOfInput, p⟩ := by
    rw [lexemes] at h
    split at h
    · exact (List.cons.inj h).1
    · exact (List.cons.inj h).1
  cases hmarkup : Scan.markup c with
  | error e d =>
    simp only [next, Mode.token, hmarkup] at hnext
    cases hnext
  | ok t d =>
    simp only [next, Mode.token, hmarkup] at hnext
    cases hnext
    exact Scan.isBlank_of_end hmarkup

theorem Reading.mode_of_next {s u : Reading} {t : Token} (h : s.next = (.ok t, u)) :
    u.mode = s.mode.after t.kind := by
  rw [next] at h
  split at h
  · cases h
    rfl
  · cases h

namespace EndsIn

variable {source : String} {t : Token}

theorem kinds {ts : List Token} {p : Position}
    (h : lexemes source = ts.map .ok ++ [.ok ⟨.endOfInput, p⟩]) :
    ∀ u ∈ ts, u.kind ≠ .endOfInput := by
  obtain ⟨ls, q, hls, hnone⟩ := (Reading.ofString source).exists_lexemes_eq
  have hsame := (List.append_inj' (hls.symm.trans h) rfl).1
  intro u hu hkind
  have hend := hnone (.ok u) (hsame ▸ List.mem_map_of_mem hu)
  obtain ⟨kind, q⟩ := u
  cases hkind
  cases hend

theorem cursor_eq {front text : List Char} {k : Nat} {kind : Token.Kind} (h : kind.Spelled text)
    (hblank : ∀ x ∈ (Lookahead.Plain.cursor (front ++ text) k).rest, Text.isBlank x = true) :
    Lookahead.Plain.cursor (front ++ text) k = ⟨.ofRead (front ++ text), []⟩ := by
  obtain ⟨cs, x, rfl, hx⟩ := h.exists_concat
  rw [← List.append_assoc] at hblank ⊢
  generalize front ++ cs = ds at *
  have hle : (ds ++ [x]).length ≤ k := by
    by_contra hlt
    rw [Nat.not_le, List.length_append, List.length_singleton] at hlt
    have hmem : x ∈ (ds ++ [x]).drop k := by
      rw [List.drop_append_of_le_length (Nat.le_of_lt_succ hlt)]
      exact List.mem_append_right _ (List.mem_singleton_self x)
    rw [hblank x hmem] at hx
    cases hx
  rw [Lookahead.Plain.cursor, List.take_of_length_le hle, List.drop_eq_nil_of_le hle]

theorem exists_passes (h : EndsIn source t) :
    ∃ ts u p, lexemes source = (ts ++ [t]).map .ok ++ [.ok ⟨.endOfInput, p⟩] ∧
      t.kind ≠ .endOfInput ∧ (Reading.ofString source).Passes ts u ∧
      t.Closed u.cursor ∧ u.next = (.ok t, ⟨.markup, ⟨endPosition source, []⟩⟩) := by
  obtain ⟨⟨ts, p, htokens⟩, front, text, hsource, hposition, hspelled⟩ := h
  have hlast : lexemes source = (ts ++ [t]).map .ok ++ [.ok ⟨.endOfInput, p⟩] := by
    rw [eq_map_of_mapM htokens, List.append_cons, List.map_append]
    rfl
  obtain ⟨⟨mode, c⟩, hpasses, hv⟩ := Reading.exists_passes hlast (kinds hlast)
  have hstart : (Reading.ofString source).cursor = Lookahead.Plain.cursor (front ++ text) 0 := by
    rw [Reading.ofString, hsource]
    rfl
  obtain ⟨n, hn⟩ := hpasses.reaches
  rw [hstart, Lookahead.Plain.cursor_skip] at hn
  obtain ⟨u, hu, htail⟩ := hpasses.exists_of_append
  cases htail with
  | cons hnext hkind hnil =>
    cases hnil
    obtain ⟨k, hk⟩ := hu.reaches
    rw [hstart, Lookahead.Plain.cursor_skip] at hk
    refine ⟨ts, u, p, hlast, hkind, hu, hk ▸ hspelled.closed hposition _, ?_⟩
    have hmode := Reading.mode_of_next hnext
    rw [hspelled.after] at hmode
    change mode = _ at hmode
    subst hmode
    change c = _ at hn
    subst hn
    rw [hnext, cursor_eq hspelled (Reading.isBlank_of_lexemes hv), endPosition, hsource]

theorem normalize_append (h : EndsIn source t) (behind : List Char) :
    Text.normalize (source.toList ++ behind) =
      Text.normalize source.toList ++ Text.normalize behind := by
  obtain ⟨-, front, text, hsource, -, hspelled⟩ := h
  obtain ⟨cs, x, rfl, hblank⟩ := hspelled.exists_concat
  apply Text.normalize_append
  intro hlast
  have hbreak := Text.getLast?_normalize hlast
  rw [hsource, ← List.append_assoc, List.getLast?_concat] at hbreak
  cases hbreak
  cases hblank

theorem lexemes_append (h : EndsIn source t) :
    ∃ ts p, lexemes source = (ts ++ [t]).map .ok ++ [.ok ⟨.endOfInput, p⟩] ∧
      ∀ behind, lexemes (source ++ behind) =
        (ts ++ [t]).map .ok ++ (lexemes behind).map (Lexeme.move (endPosition source)) := by
  obtain ⟨ts, u, p, hlexemes, hkind, hpasses, hclosed, hnext⟩ := h.exists_passes
  refine ⟨ts, p, hlexemes, ?_⟩
  intro behind
  have hu := Reading.rest_ne_nil_of_next hnext hkind
  have hwhole : Reading.ofString (source ++ behind) =
      (Reading.ofString source).place {} (Text.normalize behind.toList) := by
    rw [Reading.ofString, String.toList_append, h.normalize_append]
    rfl
  have hbehind : Reading.place {} (Text.normalize behind.toList)
      ⟨.markup, ⟨endPosition source, []⟩⟩ =
        (Reading.ofString behind).place (endPosition source) [] := by
    simp [Reading.place, Cursor.place, Reading.ofString]
  have hall : Reading.Passes (Reading.place {} (Text.normalize behind.toList) (.ofString source))
      (ts.map (Token.move {})) (u.place {} (Text.normalize behind.toList)) := hpasses.place hu
  have hlast : (u.place {} (Text.normalize behind.toList)).next = _ :=
    Reading.next_place hnext hkind (.inr hclosed)
  rw [Token.move_zero, List.map_id] at hall
  rw [Token.move_zero, hbehind] at hlast
  rw [lexemes, hwhole, hall.lexemes_eq, Reading.lexemes_cons hlast hkind,
    Reading.lexemes_place_nil, List.map_append, List.append_assoc]
  rfl

end EndsIn

end Template
