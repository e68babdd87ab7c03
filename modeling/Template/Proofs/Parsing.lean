import Template.Proofs.Building

namespace Template

def Lexeme.brackets : Lexeme → List Bracket
  | .ok t => t.brackets
  | .error _ => []

/-- The lexeme `i` is one at which reading has to stop with the error, shown as the message: it is
an error itself, it closes what nothing written after it could balance, or it is the end of the
input and an element is open. -/
inductive FaultAt (ls : List Lexeme) (i : Nat) : SyntaxError → String → Prop
  | lexical {e e' : SyntaxError} : ls[i]? = some (.error e') →
      (ls.filterMap Lexeme.error?).head? = some e → FaultAt ls i e e.message
  | unmatched {name : String} {p : Position} : ls[i]? = some (.ok ⟨.endTag name, p⟩) →
      ¬ Bracket.Viable ((ls.take (i + 1)).flatMap Lexeme.brackets) →
      FaultAt ls i ⟨.unmatchedClosingTag name, p⟩ ("closing tag `" ++ name ++ "` not matching")
  | unclosed {name : String} {p : Position} : ls[i]? = some (.ok ⟨.endOfInput, p⟩) →
      Bracket.Innermost ((ls.take i).flatMap Lexeme.brackets) name →
      FaultAt ls i ⟨.unclosedElement name, p⟩
        ("unexpected end of input, expecting closing tag for `" ++ name ++ "`")

theorem Lexeme.isEnd_iff {l : Lexeme} : l.isEnd = true ↔ ∃ p, l = .ok ⟨.endOfInput, p⟩ := by
  constructor
  · intro h
    cases l with
    | error e => cases h
    | ok t =>
      obtain ⟨kind, p⟩ := t
      cases kind with
      | endOfInput => exact ⟨p, rfl⟩
      | _ => cases h
  · rintro ⟨p, rfl⟩
    rfl

theorem Reading.exists_lexemes_eq (s : Reading) :
    ∃ ls p, s.lexemes = ls ++ [.ok ⟨.endOfInput, p⟩] ∧ ∀ l ∈ ls, l.isEnd = false := by
  induction s using Reading.lexemes.induct with
  | case1 s step hend =>
    obtain ⟨p, hp⟩ := Lexeme.isEnd_iff.1 hend
    refine ⟨[], p, ?_, fun l hl => nomatch hl⟩
    rw [Reading.lexemes, ← hp]
    exact if_pos hend
  | case2 s step hend ih =>
    obtain ⟨ls, p, hls, hall⟩ := ih
    refine ⟨step.1 :: ls, p, ?_, List.forall_mem_cons.2 ⟨Bool.eq_false_iff.2 hend, hall⟩⟩
    rw [Reading.lexemes, List.cons_append, ← hls]
    exact if_neg hend

section Tokens

variable {ls rest : List Lexeme} {ts : List Token} {e : SyntaxError}

theorem mapM_ok (ts : List Token) : (ts.map .ok : List Lexeme).mapM id = .ok ts := by
  induction ts with
  | nil => rfl
  | cons t ts ih =>
    rw [List.map_cons, List.mapM_cons, ih]
    rfl

theorem mapM_error (ts : List Token) (e : SyntaxError) (rest : List Lexeme) :
    (ts.map .ok ++ .error e :: rest : List Lexeme).mapM id = .error e := by
  induction ts with
  | nil =>
    rw [List.map_nil, List.nil_append, List.mapM_cons]
    rfl
  | cons t ts ih =>
    rw [List.map_cons, List.cons_append, List.mapM_cons, ih]
    rfl

theorem eq_map_of_mapM (h : ls.mapM id = .ok ts) : ls = ts.map .ok := by
  induction ls generalizing ts with
  | nil =>
    cases h
    rfl
  | cons l ls ih =>
    rw [List.mapM_cons] at h
    cases l with
    | error e => cases h
    | ok t =>
      cases hls : ls.mapM id with
      | error e =>
        rw [hls] at h
        cases h
      | ok us =>
        rw [hls] at h
        cases h
        rw [List.map_cons, ← ih hls]

theorem filterMap_error?_map (ts : List Token) :
    (ts.map .ok : List Lexeme).filterMap Lexeme.error? = [] := by
  rw [List.filterMap_map]
  exact List.filterMap_eq_nil_iff.2 fun _ _ => rfl

theorem flatMap_brackets (ts : List Token) :
    (ts.map .ok : List Lexeme).flatMap Lexeme.brackets = ts.flatMap Token.brackets := by
  rw [List.flatMap_map]
  rfl

end Tokens

inductive Stop (ls : List Lexeme) (ts : List Token) (names : List String) : Prop
  | finished : ls = ts.map .ok → Stop ls ts names
  | lexical (e : SyntaxError) (rest : List Lexeme) : ls = ts.map .ok ++ .error e :: rest →
      Stop ls ts names
  | unmatched (name : String) (p : Position) (rest : List Lexeme) : names.head? ≠ some name →
      ls = ts.map .ok ++ .ok ⟨.endTag name, p⟩ :: rest → Stop ls ts names

theorem Stop.cons {ls : List Lexeme} {ts : List Token} {names : List String} (t : Token)
    (h : Stop ls ts names) : Stop (.ok t :: ls) (t :: ts) names := by
  cases h with
  | finished h => exact .finished (congrArg _ h)
  | lexical e rest h => exact .lexical e rest (congrArg _ h)
  | unmatched name p rest hname h => exact .unmatched name p rest hname (congrArg _ h)

theorem exists_stop {ls : List Lexeme} (hls : ∀ l ∈ ls, l.isEnd = false) (ns : List String) :
    ∃ ts names, (∀ t ∈ ts, t.kind ≠ .endOfInput) ∧
      Bracket.unclosed? ns (ts.flatMap Token.brackets) = some names ∧ Stop ls ts names := by
  induction ls generalizing ns with
  | nil => exact ⟨[], ns, List.forall_mem_nil _, rfl, .finished rfl⟩
  | cons l ls ih =>
    rw [List.forall_mem_cons] at hls
    cases l with
    | error e => exact ⟨[], ns, List.forall_mem_nil _, rfl, .lexical e ls rfl⟩
    | ok t =>
      cases hms : Bracket.unclosed? ns t.brackets with
      | some ms =>
        obtain ⟨ts, names, hend, hnames, hstop⟩ := ih hls.2 ms
        refine ⟨t :: ts, names, List.forall_mem_cons.2 ⟨?_, hend⟩, ?_, hstop.cons t⟩
        · intro hkind
          obtain ⟨kind, p⟩ := t
          cases hkind
          exact absurd hls.1 (by simp [Lexeme.isEnd])
        · rw [List.flatMap_cons, Bracket.unclosed?_append, hms, Option.bind_some, hnames]
      | none =>
        obtain ⟨name, p, rfl, hname⟩ := Bracket.exists_endTag hms
        exact ⟨[], ns, List.forall_mem_nil _, rfl, .unmatched name p ls hname rfl⟩

section Faults

variable {ls rest : List Lexeme} {ts : List Token} {names : List String}

theorem getElem?_length_map (ts : List Token) (l : Lexeme) (rest : List Lexeme) :
    (ts.map .ok ++ l :: rest)[ts.length]? = some l := by
  rw [List.getElem?_append_right (by simp), List.length_map, Nat.sub_self, List.getElem?_cons_zero]

theorem take_length_map (ts : List Token) (rest : List Lexeme) :
    ((ts.map .ok : List Lexeme) ++ rest).take ts.length = ts.map .ok := by
  rw [List.take_append_of_le_length (by simp), List.take_of_length_le (by simp)]

theorem not_faultAt (hend : ∀ t ∈ ts, t.kind ≠ .endOfInput)
    (hnames : Bracket.unclosed? [] (ts.flatMap Token.brackets) = some names) {j : Nat}
    (hj : j < ts.length) (e : SyntaxError) (m : String) : ¬ FaultAt (ts.map .ok ++ rest) j e m := by
  have hget : (ts.map .ok ++ rest)[j]? = some (.ok ts[j] : Lexeme) := by
    rw [List.getElem?_append_left (by simpa using hj), List.getElem?_map,
      List.getElem?_eq_getElem hj, Option.map_some]
  intro h
  cases h with
  | lexical he _ =>
    rw [hget] at he
    cases he
  | unmatched _ hviable =>
    apply hviable
    rw [List.take_append_of_le_length (by simpa using Nat.succ_le_of_lt hj), ← List.map_take,
      flatMap_brackets]
    have hall : Bracket.Viable (ts.flatMap Token.brackets) := Bracket.viable_iff.2 ⟨names, hnames⟩
    rw [← List.take_append_drop (j + 1) ts, List.flatMap_append] at hall
    exact hall.of_append
  | unclosed hl _ =>
    rw [hget] at hl
    have htoken := Except.ok.inj (Option.some.inj hl)
    exact hend ts[j] (List.getElem_mem hj) (congrArg Token.kind htoken)

theorem faultAt_lexical (ts : List Token) (e : SyntaxError) (rest : List Lexeme) :
    FaultAt (ts.map .ok ++ .error e :: rest) ts.length e e.message := by
  refine .lexical (getElem?_length_map ts _ rest) ?_
  rw [List.filterMap_append, filterMap_error?_map]
  rfl

theorem faultAt_unmatched {name : String} (p : Position) (hname : names.head? ≠ some name)
    (hnames : Bracket.unclosed? [] (ts.flatMap Token.brackets) = some names) :
    FaultAt (ts.map .ok ++ .ok ⟨.endTag name, p⟩ :: rest) ts.length
      ⟨.unmatchedClosingTag name, p⟩ (SyntaxError.message ⟨.unmatchedClosingTag name, p⟩) := by
  refine .unmatched (getElem?_length_map ts _ rest) ?_
  rw [List.append_cons, List.take_append_of_le_length (by simp), List.take_of_length_le (by simp),
    List.flatMap_append, flatMap_brackets]
  exact Bracket.not_viable_closing hnames hname

theorem faultAt_unclosed {name : String} (p : Position)
    (hnames : Bracket.unclosed? [] (ts.flatMap Token.brackets) = some (name :: names)) :
    FaultAt (ts.map .ok ++ .ok ⟨.endOfInput, p⟩ :: rest) ts.length
      ⟨.unclosedElement name, p⟩ (SyntaxError.message ⟨.unclosedElement name, p⟩) := by
  refine .unclosed (getElem?_length_map ts _ rest) ?_
  rw [take_length_map, flatMap_brackets]
  exact Bracket.innermost_of_unclosed? hnames

end Faults

namespace Document

open Builder

structure Progress (source : String) (ts : List Token) (b : Builder) (s : Site) : Prop where
  shows : b.Shows s
  marks : s.marks = ts.flatMap Token.marks
  names : Bracket.unclosed? [] (ts.flatMap Token.brackets) = some s.names
  before_end : ∀ t ∈ ts, t.kind ≠ .endOfInput
  run : ∀ rest, lexemes source = ts.map .ok ++ rest → parse source = b.run rest

inductive Ending (source : String) : Prop
  | complete (ts : List Token) (t : Tree) (g : Grove) : parse source = .ok ⟨t⟩ →
      tokens source = .ok ts → Bracket.Balanced (ts.flatMap Token.brackets) →
      t.node? Tree.root = some { kind := .unset } → g.In t →
      t.children Tree.root = g.roots → g.marks = ts.flatMap Token.marks → g.toForest.Proper →
      Tree.root :: g.ids = List.range t.size → Ending source
  | fault (e : SyntaxError) (i : Nat) : parse source = .error (.malformed e) →
      FaultAt (lexemes source) i e e.message →
      (lexemes source)[i]?.map Lexeme.position = some e.position →
      (∀ j < i, ∀ e' m, ¬ FaultAt (lexemes source) j e' m) →
      (∀ ts, tokens source = .ok ts → ¬ Bracket.Balanced (ts.flatMap Token.brackets)) →
      Ending source

namespace Progress

variable {source : String} {ts : List Token} {b : Builder} {s : Site} {p : Position}
  {rest : List Lexeme} (h : Progress source ts b s)
include h

theorem not_faultAt_lt (hls : lexemes source = ts.map .ok ++ rest) {j : Nat} (hj : j < ts.length)
    (e : SyntaxError) (m : String) : ¬ FaultAt (lexemes source) j e m := by
  rw [hls]
  exact not_faultAt h.before_end h.names hj e m

omit h in
theorem tokens_eq (hls : lexemes source = ts.map .ok ++ [.ok ⟨.endOfInput, p⟩]) :
    tokens source = .ok (ts ++ [⟨.endOfInput, p⟩]) := by
  have hmap : lexemes source = (ts ++ [⟨.endOfInput, p⟩] : List Token).map .ok := by
    rw [hls, List.map_append]
    rfl
  rw [tokens, hmap, mapM_ok]

theorem unclosed?_eq : Bracket.unclosed? []
    ((ts ++ [⟨.endOfInput, p⟩] : List Token).flatMap Token.brackets) = some s.names := by
  rw [List.flatMap_append, Bracket.unclosed?_append, h.names]
  rfl

theorem complete (hls : lexemes source = ts.map .ok ++ [.ok ⟨.endOfInput, p⟩])
    (hnames : s.names = []) : Ending source := by
  obtain ⟨g, hin, hroots, hmarks, hproper, hids⟩ := h.shows.complete hnames
  refine .complete (ts ++ [⟨.endOfInput, p⟩]) b.tree g ?_ (tokens_eq hls) ?_ h.shows.rooted hin
    hroots ?_ hproper hids
  · rw [h.run _ hls, h.shows.run_end hnames]
  · rw [Bracket.balanced_iff, h.unclosed?_eq, hnames]
  · rw [hmarks, h.marks, List.flatMap_append]
    simp [Token.marks]

theorem unclosed {name : String} {names : List String}
    (hls : lexemes source = ts.map .ok ++ [.ok ⟨.endOfInput, p⟩])
    (hnames : s.names = name :: names) : Ending source := by
  have hunclosed := h.names
  rw [hnames] at hunclosed
  refine .fault ⟨.unclosedElement name, p⟩ ts.length ?_ ?_ ?_ ?_ ?_
  · rw [h.run _ hls, h.shows.run_unclosed hnames]
  · rw [hls]
    exact faultAt_unclosed p hunclosed
  · rw [hls, getElem?_length_map]
    rfl
  · exact fun j hj => h.not_faultAt_lt hls hj
  · intro us hus hbalanced
    rw [tokens_eq hls] at hus
    cases hus
    rw [Bracket.balanced_iff, h.unclosed?_eq, hnames] at hbalanced
    cases hbalanced

theorem lexical {e : SyntaxError} (hls : lexemes source = ts.map .ok ++ .error e :: rest) :
    Ending source := by
  refine .fault e ts.length ?_ ?_ ?_ ?_ ?_
  · rw [h.run _ hls]
    rfl
  · rw [hls]
    exact faultAt_lexical ts e rest
  · rw [hls, getElem?_length_map]
    rfl
  · exact fun j hj => h.not_faultAt_lt hls hj
  · intro us hus
    rw [tokens, hls, mapM_error] at hus
    cases hus

theorem unmatched {name : String} (hname : s.names.head? ≠ some name)
    (hls : lexemes source = ts.map .ok ++ .ok ⟨.endTag name, p⟩ :: rest) : Ending source := by
  refine .fault ⟨.unmatchedClosingTag name, p⟩ ts.length ?_ ?_ ?_ ?_ ?_
  · rw [h.run _ hls, h.shows.run_unmatched hname]
  · rw [hls]
    exact faultAt_unmatched p hname h.names
  · rw [hls, getElem?_length_map]
    rfl
  · exact fun j hj => h.not_faultAt_lt hls hj
  · intro us hus hbalanced
    have hviable := hbalanced.viable
    rw [← flatMap_brackets, ← eq_map_of_mapM hus, hls, List.append_cons, List.flatMap_append,
      List.flatMap_append, flatMap_brackets] at hviable
    exact Bracket.not_viable_closing h.names hname hviable.of_append

end Progress

theorem exists_progress (source : String) :
    ∃ ts b s ls p, Progress source ts b s ∧ lexemes source = ls ++ [.ok ⟨.endOfInput, p⟩] ∧
      Stop ls ts s.names := by
  obtain ⟨ls, p, hls, hend⟩ := (Reading.ofString source).exists_lexemes_eq
  obtain ⟨ts, names, hts, hnames, hstop⟩ := exists_stop hend []
  obtain ⟨b, s, hshows, hmarks, rfl, hrun⟩ := shows_empty.run hts hnames
  refine ⟨ts, b, s, ls, p, ⟨hshows, hmarks, hnames, hts, ?_⟩, hls, hstop⟩
  intro rest hrest
  rw [Document.parse, ofLexemes, hrest, hrun]

theorem ending (source : String) : Ending source := by
  obtain ⟨ts, b, s, ls, p, h, hls, hstop⟩ := exists_progress source
  cases hstop with
  | finished hfin =>
    rw [hfin] at hls
    cases hnames : s.names with
    | nil => exact h.complete hls hnames
    | cons name names => exact h.unclosed hls hnames
  | lexical e rest hfin =>
    rw [hfin, List.append_assoc, List.cons_append] at hls
    exact h.lexical hls
  | unmatched name p' rest hname hfin =>
    rw [hfin, List.append_assoc, List.cons_append] at hls
    exact h.unmatched hname hls

/-- A document is a lossless picture of the tokens: a walk from its root meets what they mark, in
their order, and enters every node once, in the order in which the nodes are numbered. -/
theorem walk_of_parse {source : String} {d : Document} (h : parse source = .ok d) :
    ∃ ts, tokens source = .ok ts ∧
      (d.tree.walk Tree.root).flatMap d.tree.marksAt = ts.flatMap Token.marks ∧
      (d.tree.walk Tree.root).filterMap Visit.entered? = List.range' 1 (d.tree.size - 1) := by
  cases ending source with
  | fault e i hparse =>
    rw [hparse] at h
    cases h
  | complete ts t g hparse htokens _ _ hin hroots hmarks _ hids =>
    rw [hparse] at h
    cases h
    have hlength : g.ids.length + 1 = t.size := by
      simpa using congrArg List.length hids
    have hwalk : t.walk Tree.root = g.walk := by
      rw [Tree.walk, hroots]
      refine hin.walkTo_eq (g.height_le_length.trans ?_)
      rw [← hlength]
      exact Nat.le_succ _
    refine ⟨ts, htokens, ?_, ?_⟩
    · rw [hwalk, hin.marksAt_walk, hmarks]
    · rw [hwalk, g.entered_walk, ← hlength, Nat.add_sub_cancel]
      rw [← hlength, List.range_eq_range', List.range'_succ] at hids
      exact (List.cons.inj hids).2

theorem walk_of_parse_paragraph :
    ∃ d ts, parse "<p>x<br>y</p>" = .ok d ∧ tokens "<p>x<br>y</p>" = .ok ts ∧
      (d.tree.walk Tree.root).flatMap d.tree.marksAt = ts.flatMap Token.marks ∧
      (d.tree.walk Tree.root).filterMap Visit.entered? = List.range' 1 (d.tree.size - 1) := by
  have hok : (parse "<p>x<br>y</p>").isOk = true := by decide +kernel
  cases hd : parse "<p>x<br>y</p>" with
  | error f =>
    rw [hd] at hok
    cases hok
  | ok d =>
    obtain ⟨ts, hts⟩ := walk_of_parse hd
    exact ⟨d, ts, rfl, hts⟩

/-- A source has a document exactly if it has tokens and their tags are balanced.  If it has none,
the error is that of the earliest fault, and stands where the lexeme stands. -/
theorem parse_ok_iff_or_fault (source : String) :
    ((∃ d, parse source = .ok d) ↔
      ∃ ts, tokens source = .ok ts ∧ Bracket.Balanced (ts.flatMap Token.brackets)) ∧
    ((∃ d, parse source = .ok d) ∨
      ∃ e i, parse source = .error (.malformed e) ∧ FaultAt (lexemes source) i e e.message ∧
        (lexemes source)[i]?.map Lexeme.position = some e.position ∧
        ∀ j < i, ∀ e' m, ¬ FaultAt (lexemes source) j e' m) := by
  cases ending source with
  | complete ts t g hparse htokens hbalanced =>
    have hok : ∃ d, parse source = .ok d := ⟨⟨t⟩, hparse⟩
    exact ⟨⟨fun _ => ⟨ts, htokens, hbalanced⟩, fun _ => hok⟩, .inl hok⟩
  | fault e i hparse hfault hposition hfirst hunbalanced =>
    refine ⟨⟨?_, ?_⟩, .inr ⟨e, i, hparse, hfault, hposition, hfirst⟩⟩
    · rintro ⟨d, hd⟩
      rw [hparse] at hd
      cases hd
    · rintro ⟨ts, hts, hbalanced⟩
      exact absurd hbalanced (hunbalanced ts hts)

end Document

end Template
