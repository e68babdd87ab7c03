import Template.Proofs.Parsing

namespace Template

namespace SyntaxError.Cause

def isTelling : Cause → Bool
  | .other _ => false
  | _ => true

theorem head?_append {s : String} {c : Char} (h : s.toList.head? = some c) (t : String) :
    (s ++ t).toList.head? = some c := by
  rw [String.toList_append, List.head?_append, h]
  rfl

theorem ne_of_head? {s r : String} {c : Char} (hs : s.toList.head? = some c)
    (hr : r.toList.head? ≠ some c) : s ≠ r := by
  rintro rfl
  exact hr hs

theorem message_ne {cause : Cause} (h : cause.isTelling = true) :
    cause.message ≠ "syntax error" := by
  cases cause with
  | unexpected found =>
    unfold message
    split
    · decide
    · decide
    · exact ne_of_head? (c := 'u') (head?_append rfl _) (by decide)
    all_goals contradiction
  | unclosedSlash found =>
    unfold message
    split
    · contradiction
    · contradiction
    · contradiction
    · decide
    · exact ne_of_head? (c := '\'') (head?_append (head?_append rfl _) _) (by decide)
    all_goals contradiction
  | emptyMustache => decide
  | voidClosingTag name =>
    exact ne_of_head? (c := 'v') (head?_append (head?_append rfl _) _) (by decide)
  | unmatchedClosingTag name =>
    exact ne_of_head? (c := 'c') (head?_append (head?_append rfl _) _) (by decide)
  | unclosedElement name =>
    exact ne_of_head? (c := 'u') (head?_append (head?_append rfl _) _) (by decide)
  | other m => cases h

/-- What scanning can blame.  A closing tag is blamed if its element is void. -/
inductive Lexical : Cause → Prop
  | unexpected (found : Option Char) : Lexical (.unexpected found)
  | unclosedSlash (found : Option Char) : Lexical (.unclosedSlash found)
  | emptyMustache : Lexical .emptyMustache
  | voidClosingTag {name : String} : Element.isVoid name = true → Lexical (.voidClosingTag name)

theorem Lexical.isTelling {cause : Cause} (h : cause.Lexical) : cause.isTelling = true := by
  cases h <;> rfl

end SyntaxError.Cause

namespace Scan

variable {α β : Type}

def Tells (x : Scan α) : Prop := ∀ c e d, x c = .error e d → e.cause.Lexical

theorem tells_pure (a : α) : Tells (pure a) := by
  intro c e d h
  cases h

theorem tells_fail {cause : SyntaxError.Cause} (h : cause.Lexical) (p : Position) :
    Tells (fail cause p : Scan α) := by
  intro c e d he
  cases he
  exact h

theorem tells_bind {x : Scan α} {f : α → Scan β} (hx : Tells x) (hf : ∀ a, Tells (f a)) :
    Tells (x >>= f) := by
  intro c e d h
  rcases bind_eq_error.1 h with h | ⟨a, c', -, h⟩
  · exact hx c e d h
  · exact hf a c' e d h

theorem tells_map {f : α → β} {x : Scan α} (hx : Tells x) : Tells (f <$> x) := by
  intro c e d h
  rw [map_apply] at h
  cases hc : x c with
  | ok a c' =>
    rw [hc] at h
    cases h
  | error e' c' =>
    rw [hc] at h
    cases h
    exact hx c _ _ hc

theorem tells_ite {p : Prop} [Decidable p] {x y : Scan α} (hx : Tells x) (hy : Tells y) :
    Tells (if p then x else y) := by
  split
  · exact hx
  · exact hy

theorem tells_get_bind {f : Cursor → Scan α} (hf : ∀ c, Tells (f c)) : Tells (get >>= f) :=
  fun c => hf c c

theorem tells_many {item : Scan (Option α)} (h : Tells item) : Tells (many item) := by
  intro c
  fun_induction many item c with
  | case1 c e d hi =>
    intro e' d' he
    cases he
    exact h c _ _ hi
  | case2 c d hi =>
    intro e' d' he
    cases he
  | case3 c a d hi _ e d' hm ih =>
    intro e' d'' he
    cases he
    exact ih _ _ hm
  | case4 c a d hi _ as d' hm ih =>
    intro e' d'' he
    cases he
  | case5 c a d hi =>
    intro e' d'' he
    cases he

theorem tells_total {x : Scan α} (h : ∀ c, ∃ a d, x c = .ok a d) : Tells x := by
  intro c e d he
  obtain ⟨a, d', ha⟩ := h c
  rw [ha] at he
  cases he

theorem tells_position : Tells position := tells_total fun _ => ⟨_, _, rfl⟩

theorem tells_nextPosition : Tells nextPosition := tells_total fun _ => ⟨_, _, rfl⟩

theorem tells_peek : Tells peek := tells_total fun _ => ⟨_, _, rfl⟩

theorem tells_skip (n : Nat) : Tells (skip n) := tells_total fun _ => ⟨_, _, rfl⟩

theorem tells_read : Tells read := tells_total fun _ => ⟨_, _, rfl⟩

theorem tells_takeBefore (p : List Char → Bool) : Tells (takeBefore p) :=
  tells_total fun _ => ⟨_, _, rfl⟩

theorem tells_takeWhile (p : Char → Bool) : Tells (takeWhile p) :=
  tells_total fun _ => ⟨_, _, rfl⟩

theorem tells_name : Tells name := tells_total fun _ => ⟨_, _, rfl⟩

theorem tells_require {p : Prop} [Decidable p] {cause : SyntaxError.Cause}
    (h : ¬p → cause.Lexical) (position : Position) : Tells (require p cause position) := by
  rw [require]
  split
  · exact tells_pure _
  · exact tells_fail (h ‹_›) _

theorem tells_expect (c : Char) : Tells (expect c) :=
  tells_bind tells_read fun _ => tells_bind tells_position fun _ =>
    tells_require (fun _ => .unexpected _) _

theorem tells_mustacheBody : Tells mustacheBody := by
  refine tells_bind tells_position fun _ => tells_bind (tells_takeBefore _) fun _ =>
    tells_bind tells_read fun _ => ?_
  split
  · exact tells_bind (tells_skip 1) fun _ => tells_bind tells_position fun _ =>
      tells_bind (tells_require (fun _ => .emptyMustache) _) fun _ => tells_pure _
  · exact tells_fail (.unexpected _) _

theorem tells_quotedValue (q : Char) : Tells (quotedValue q) := by
  have hembedded : Tells (embedded q) := tells_get_bind fun _ => tells_ite
    (tells_bind (tells_skip _) fun _ => tells_bind tells_mustacheBody fun _ => tells_pure _)
    (tells_pure _)
  exact tells_bind tells_position fun _ => tells_bind (tells_many hembedded) fun _ =>
    tells_bind (tells_takeBefore _) fun _ => tells_bind tells_read fun _ =>
      tells_bind (tells_require (fun _ => .unexpected _) _) fun _ => tells_pure _

theorem tells_keyed : Tells keyed := by
  refine tells_bind tells_nextPosition fun _ => tells_bind tells_name fun _ =>
    tells_bind tells_peek fun _ => tells_ite (tells_pure _) ?_
  refine tells_bind (tells_skip 1) fun _ => tells_bind tells_read fun _ => ?_
  split
  · exact tells_bind (tells_expect _) fun _ => tells_bind tells_mustacheBody fun _ => tells_pure _
  · exact tells_bind (tells_quotedValue _) fun _ => tells_pure _
  · exact tells_bind (tells_quotedValue _) fun _ => tells_pure _
  · exact tells_bind tells_position fun _ => tells_fail (.unexpected _) _

theorem tells_variadic : Tells variadic :=
  tells_bind tells_nextPosition fun _ => tells_bind (tells_skip 1) fun _ =>
    tells_get_bind fun _ => tells_bind (tells_require (fun _ => .unexpected _) _) fun _ =>
      tells_bind (tells_skip 2) fun _ => tells_bind (tells_expect _) fun _ =>
        tells_bind (tells_expect _) fun _ => tells_bind tells_mustacheBody fun _ => tells_pure _

theorem tells_attribute? : Tells attribute? := by
  refine tells_bind (tells_takeWhile _) fun _ => tells_bind tells_peek fun _ => ?_
  split
  · exact tells_pure _
  · exact tells_pure _
  · exact tells_pure _
  · exact tells_map tells_variadic
  · exact tells_ite (tells_map tells_keyed) (tells_bind (tells_skip 1) fun _ =>
      tells_bind tells_position fun _ => tells_fail (.unexpected _) _)

theorem tells_attributes : Tells attributes :=
  tells_bind tells_peek fun _ => tells_ite (tells_many tells_attribute?) (tells_pure _)

theorem tells_startTag (start : Position) : Tells (startTag start) := by
  refine tells_bind tells_name fun _ => tells_bind tells_attributes fun _ =>
    tells_bind tells_read fun _ => ?_
  split
  · exact tells_pure _
  · exact tells_bind tells_position fun _ => tells_bind tells_peek fun _ =>
      tells_bind (tells_require (fun _ => .unclosedSlash _) _) fun _ =>
        tells_bind (tells_skip 1) fun _ => tells_pure _
  · exact tells_bind tells_position fun _ => tells_fail (.unexpected _) _

theorem tells_body (opening : Opening) (start : Position) : Tells (body opening start) := by
  cases opening with
  | endTag =>
    refine tells_bind tells_name fun name => tells_bind (tells_expect _) fun _ =>
      tells_bind (tells_require ?_ _) fun _ => tells_pure _
    intro hvoid
    exact .voidClosingTag (eq_true_of_ne_false hvoid)
  | comment =>
    exact tells_bind (tells_takeBefore _) fun _ => tells_bind (tells_skip 3) fun _ => tells_pure _
  | startTag => exact tells_startTag start
  | mustache => exact tells_bind tells_mustacheBody fun _ => tells_pure _

theorem tells_construct : Tells construct := by
  refine tells_bind tells_nextPosition fun _ => tells_get_bind fun _ => ?_
  split
  · exact tells_pure _
  · exact tells_bind (tells_skip _) fun _ => tells_body _ _

theorem tells_markup : Tells markup := by
  refine tells_bind (tells_total fun _ => ⟨_, _, rfl⟩) fun o => ?_
  cases o with
  | some t => exact tells_pure t
  | none => exact tells_construct

theorem tells_rawText (name : String) : Tells (rawText name) :=
  tells_bind tells_nextPosition fun _ => tells_bind (tells_takeBefore _) fun _ =>
    tells_get_bind fun _ => tells_ite
      (tells_ite (tells_bind (tells_skip _) fun _ => tells_pure _) (tells_pure _))
      (tells_bind tells_position fun _ => tells_fail (.unexpected _) _)

end Scan

theorem Reading.lexical_of_next {s s' : Reading} {e : SyntaxError} (h : s.next = (.error e, s')) :
    e.cause.Lexical := by
  have htells : Scan.Tells s.mode.token := by
    cases s.mode with
    | markup => exact Scan.tells_markup
    | rawText name => exact Scan.tells_rawText name
  rw [next] at h
  cases hs : s.mode.token s.cursor with
  | ok t d =>
    rw [hs] at h
    cases h
  | error e' d =>
    rw [hs] at h
    cases h
    exact htells _ _ _ hs

theorem Reading.lexical_of_mem {s : Reading} {e : SyntaxError} (h : .error e ∈ s.lexemes) :
    e.cause.Lexical := by
  generalize hn : s.weight = n
  induction n using Nat.strongRecOn generalizing s with
  | ind n ih =>
    by_cases hend : s.next.1.isEnd = true
    · rw [lexemes_of_isEnd hend, List.mem_singleton] at h
      exact lexical_of_next (Prod.ext h.symm rfl)
    · have hlt := weight_next_lt (Bool.eq_false_iff.2 hend)
      rw [lexemes_of_not_isEnd hend, List.mem_cons] at h
      rcases h with h | h
      · exact lexical_of_next (Prod.ext h.symm rfl)
      · exact ih _ (hn ▸ hlt) h rfl

theorem mem_of_mapM_eq_error {ls : List Lexeme} {e : SyntaxError} (h : ls.mapM id = .error e) :
    .error e ∈ ls := by
  induction ls with
  | nil => cases h
  | cons l ls ih =>
    rw [List.mapM_cons] at h
    cases l with
    | error e' =>
      cases h
      exact List.mem_cons_self
    | ok t =>
      cases hls : ls.mapM id with
      | error e' =>
        rw [hls] at h
        cases h
        exact List.mem_cons_of_mem _ (ih hls)
      | ok ts =>
        rw [hls] at h
        cases h

theorem telling_of_tokens {source : String} {e : SyntaxError} (h : tokens source = .error e) :
    e.cause.isTelling = true :=
  (Reading.lexical_of_mem (mem_of_mapM_eq_error h)).isTelling

namespace Document

/-- What an error is about for which there is no document: itself a lexeme, or a tag. -/
inductive Blame (source : String) : SyntaxError → Prop
  | lexeme {e : SyntaxError} : .error e ∈ lexemes source → Blame source e
  | closing {name : String} {p : Position} : .ok ⟨.endTag name, p⟩ ∈ lexemes source →
      Blame source ⟨.unmatchedClosingTag name, p⟩
  | opening {name : String} {p : Position} {t : Token} : .ok t ∈ lexemes source →
      .opening name ∈ t.brackets → Blame source ⟨.unclosedElement name, p⟩

theorem blame_of_parse {source : String} {e : SyntaxError}
    (h : parse source = .error (.malformed e)) : Blame source e := by
  cases ending source with
  | complete ts t g hparse =>
    rw [hparse] at h
    cases h
  | fault e' i hparse hfault =>
    rw [hparse] at h
    cases h
    generalize e.message = m at hfault
    cases hfault with
    | lexical _ hfirst =>
      obtain ⟨l, hl, hle⟩ := List.mem_filterMap.1 (List.mem_of_head? hfirst)
      cases l with
      | ok t => cases hle
      | error e' =>
        cases hle
        exact .lexeme hl
    | unmatched hlexeme _ => exact .closing (List.mem_of_getElem? hlexeme)
    | @unclosed name p _ hinnermost =>
      obtain ⟨u, v, huv, -⟩ := hinnermost
      have hmem : Bracket.opening name ∈ ((lexemes source).take i).flatMap Lexeme.brackets := by
        rw [huv]
        exact List.mem_append_right _ List.mem_cons_self
      obtain ⟨l, hl, hbracket⟩ := List.mem_flatMap.1 hmem
      cases l with
      | error e => cases hbracket
      | ok t => exact .opening (List.mem_of_mem_take hl) hbracket

theorem telling_of_parse {source : String} {e : SyntaxError}
    (h : parse source = .error (.malformed e)) : e.cause.isTelling = true := by
  cases blame_of_parse h with
  | lexeme he => exact (Reading.lexical_of_mem he).isTelling
  | closing => rfl
  | opening => rfl

end Document

end Template
